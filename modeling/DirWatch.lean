import DirWatch.Machine.Scripted
import DirWatch.Main
import DirWatch.Proofs.Difference
import DirWatch.Proofs.Engine.Absorb
import DirWatch.Proofs.Engine.Adopt
import DirWatch.Proofs.Engine.AdoptLoop
import DirWatch.Proofs.Engine.Alive
import DirWatch.Proofs.Engine.Annex
import DirWatch.Proofs.Engine.Batch
import DirWatch.Proofs.Engine.Cells
import DirWatch.Proofs.Engine.Deletions
import DirWatch.Proofs.Engine.Drift
import DirWatch.Proofs.Engine.Effects
import DirWatch.Proofs.Engine.Entries
import DirWatch.Proofs.Engine.Explained
import DirWatch.Proofs.Engine.Guard
import DirWatch.Proofs.Engine.Invariant
import DirWatch.Proofs.Engine.Items
import DirWatch.Proofs.Engine.Laws
import DirWatch.Proofs.Engine.Locality
import DirWatch.Proofs.Engine.Marks
import DirWatch.Proofs.Engine.Moved
import DirWatch.Proofs.Engine.Order
import DirWatch.Proofs.Engine.Pass
import DirWatch.Proofs.Engine.Passes
import DirWatch.Proofs.Engine.Progress
import DirWatch.Proofs.Engine.Reached
import DirWatch.Proofs.Engine.Rearming
import DirWatch.Proofs.Engine.Replaced
import DirWatch.Proofs.Engine.Retire
import DirWatch.Proofs.Engine.Rooted
import DirWatch.Proofs.Engine.Settled
import DirWatch.Proofs.Engine.Steady
import DirWatch.Proofs.Engine.Steps
import DirWatch.Proofs.Engine.Stream
import DirWatch.Proofs.Engine.Sweep
import DirWatch.Proofs.Engine.Upkeep
import DirWatch.Proofs.Engine.Watches
import DirWatch.Proofs.EventQueue
import DirWatch.Proofs.EventQueue.History
import DirWatch.Proofs.FileTree.Lookup
import DirWatch.Proofs.FileTree.Open
import DirWatch.Proofs.FileTree.Scene
import DirWatch.Proofs.Filter
import DirWatch.Proofs.Filter.Building
import DirWatch.Proofs.Number.Reading
import DirWatch.Proofs.Path.Below
import DirWatch.Proofs.Path.Relative
import DirWatch.Proofs.PendingSet
import DirWatch.Proofs.Registry.Adoption
import DirWatch.Proofs.Registry.AllOrNothing
import DirWatch.Proofs.Registry.Explored
import DirWatch.Proofs.Registry.FirstWalk
import DirWatch.Proofs.Registry.Forest
import DirWatch.Proofs.Registry.Observed
import DirWatch.Proofs.Registry.Opening
import DirWatch.Proofs.Replica
import DirWatch.Proofs.Scene
import DirWatch.Proofs.Settings.Resolved
import DirWatch.Proofs.Settings.Variables
import DirWatch.Proofs.TrackedDirectory.History
import DirWatch.Proofs.Walk
import DirWatch.Proofs.Walk.Enumeration
import DirWatch.Proofs.Walk.Listed
import DirWatch.Proofs.WatchService
import DirWatch.Proofs.Watcher
import DirWatch.Proofs.Worker.Acknowledged
import DirWatch.Proofs.Worker.Clock
import DirWatch.Proofs.Worker.Deadline
import DirWatch.Proofs.Worker.Delivery
import DirWatch.Proofs.Worker.Difference
import DirWatch.Proofs.Worker.Healing
import DirWatch.Proofs.Worker.Moves
import DirWatch.Proofs.Worker.Observed
import DirWatch.Proofs.Worker.PendingOrder
import DirWatch.Proofs.Worker.Rescan
import DirWatch.Proofs.Worker.Snapshot
import DirWatch.Proofs.Worker.Telling
