import DirWatch.Proofs.Difference
import DirWatch.Proofs.Engine.Invariant
import DirWatch.Worker.Basic
import Mathlib.Data.List.Nodup

/-! # Snapshots

A snapshot of a registry that hangs together names every tracked entry once. -/

namespace DirWatch

variable {σ : Type}

def SnapshotEntry.view (e : SnapshotEntry) : EntryView :=
  (e.path.components, e.isDirectory, e.modified)

namespace Worker

/-- The entries of one directory in a snapshot. -/
def entriesOf (r : Registry σ) (e : Path × TrackedDirectory Name) : List SnapshotEntry :=
  e.2.items.entries.filterMap fun (n, i) =>
    (r.relative? (e.1.child n)).map fun p => ⟨p, i.isDirectory, i.modified⟩

theorem entriesOf_view {r : Registry σ} {p : Path} {y : List Name} (h : Path.At r.root p y)
    (d : TrackedDirectory Name) : (entriesOf r (p, d)).map SnapshotEntry.view =
      d.items.entries.map fun e => ((y ++ [e.1]).map .name, e.2.isDirectory, e.2.modified) := by
  rw [entriesOf, List.map_filterMap, ← List.filterMap_eq_map]
  refine List.filterMap_congr ?_
  rintro ⟨n, i⟩ -
  obtain ⟨q, hq, hc⟩ := (h.child n).stripPrefix?_components
  dsimp only
  rw [Registry.relative?, hq]
  simp only [Option.map_some, SnapshotEntry.view, hc, Function.comp_apply]

theorem snapshot_perm (w : Worker σ) :
    w.snapshot.Perm (w.registry.directories.entries.flatMap (entriesOf w.registry)) :=
  List.mergeSort_perm _ _

variable {w : Worker σ}

theorem at_of_mem (h : w.registry.Anchored) {p : Path} {d : TrackedDirectory Name}
    (hm : (p, d) ∈ w.registry.directories.entries) :
    ∃ y, Path.At w.registry.root p y ∧ w.registry.forest y = some d := by
  have hget : w.registry.get? p = some d := OrderedMap.get?_of_mem hm
  obtain ⟨y, hy⟩ := h.inside (Option.isSome_of_eq_some hget)
  exact ⟨y, hy, (Registry.get?_eq_forest hy).symm.trans hget⟩

/-- A snapshot shows what is tracked. -/
theorem mem_snapshot (h : w.registry.Anchored) {v : EntryView} :
    v ∈ w.snapshot.map SnapshotEntry.view ↔ ∃ y d n i, w.registry.forest y = some d ∧
      d.items.get? n = some i ∧ v = ((y ++ [n]).map .name, i.isDirectory, i.modified) := by
  rw [(w.snapshot_perm.map _).mem_iff, List.map_flatMap, List.mem_flatMap]
  constructor
  · rintro ⟨⟨p, d⟩, hm, hv⟩
    obtain ⟨y, hy, hd⟩ := at_of_mem h hm
    rw [entriesOf_view hy, List.mem_map] at hv
    obtain ⟨⟨n, i⟩, hi, rfl⟩ := hv
    exact ⟨y, d, n, i, hd, OrderedMap.mem_entries_iff.1 hi, rfl⟩
  · rintro ⟨y, d, n, i, hd, hi, rfl⟩
    obtain ⟨p, hp, hm⟩ := OrderedMap.exists_mem_of_get? hd
    have hat : Path.At w.registry.root p y :=
      (Path.at_below _ y).of_compare_eq (Std.OrientedCmp.eq_symm hp)
    refine ⟨(p, d), hm, ?_⟩
    rw [entriesOf_view hat, List.mem_map]
    exact ⟨(n, i), OrderedMap.mem_entries_iff.2 hi, rfl⟩

/-- The tracked entries, as a snapshot shows them. -/
def entries (w : Worker σ) : Set EntryView := {v | v ∈ w.snapshot.map SnapshotEntry.view}

theorem mem_entries (h : w.registry.Anchored) {y : List Name} {n : Name} {f : Bool}
    {t : Option Timestamp} : ((y ++ [n]).map .name, f, t) ∈ w.entries ↔
      ∃ d i, w.registry.forest y = some d ∧ d.items.get? n = some i ∧ i.isDirectory = f ∧
        i.modified = t := by
  refine (mem_snapshot h).trans ⟨?_, ?_⟩
  · rintro ⟨z, d, m, i, hd, hi, he⟩
    obtain ⟨hp, hf, ht⟩ := And.imp_right Prod.mk.inj (Prod.mk.inj he)
    obtain ⟨rfl, rfl⟩ := Path.map_name_concat_inj.1 hp
    exact ⟨d, i, hd, hi, hf.symm, ht.symm⟩
  · rintro ⟨d, i, hd, hi, rfl, rfl⟩
    exact ⟨y, d, n, i, hd, hi, rfl⟩

/-- The tracked entries are those of a view of the registered directories. -/
theorem shows_entries (h : w.registry.Anchored) : w.registry.forest.known.Shows w.entries where
  placed v hv := by
    obtain ⟨y, d, n, i, -, -, rfl⟩ := (mem_snapshot h).1 hv
    exact ⟨y, n, rfl⟩
  kind y n f := by
    rw [Option.map_eq_some_iff]
    constructor
    · rintro ⟨t, ht⟩
      obtain ⟨d, i, hd, hi, rfl, -⟩ := (mem_entries h).1 ht
      exact ⟨i.known, Forest.known_eq_some.2 ⟨d, i, hd, hi, rfl⟩, i.isDirectory_known⟩
    · rintro ⟨k, hk, rfl⟩
      obtain ⟨d, i, hd, hi, rfl⟩ := Forest.known_eq_some.1 hk
      exact ⟨i.modified, (mem_entries h).2 ⟨d, i, hd, hi, i.isDirectory_known.symm, rfl⟩⟩
  time y n t := by
    rw [mem_entries h, Forest.known_eq_some]
    simp only [Item.known_eq_file]

/-- A snapshot shows no path twice. -/
theorem nodup_snapshot (h : w.registry.Anchored) :
    (w.snapshot.map (·.path.components)).Nodup := by
  have hpaths : ∀ {p d y}, Path.At w.registry.root p y →
      (entriesOf w.registry (p, d)).map (·.path.components) =
        d.items.keys.map fun n => (y ++ [n]).map .name := by
    intro p d y hy
    have hv := congrArg (List.map Prod.fst) (entriesOf_view hy d)
    simpa only [List.map_map, Function.comp_def, SnapshotEntry.view, OrderedMap.keys] using hv
  rw [(w.snapshot_perm.map _).nodup_iff, List.map_flatMap, List.nodup_flatMap]
  constructor
  · rintro ⟨p, d⟩ hm
    obtain ⟨y, hy, -⟩ := at_of_mem h hm
    rw [hpaths hy]
    exact d.items.nodup_keys.map fun n m he => (Path.map_name_concat_inj.1 he).2
  · -- entries of different directories have different parents
    refine w.registry.directories.ordered.imp_of_mem ?_
    rintro ⟨p, d⟩ ⟨q, e⟩ hp hq hlt
    obtain ⟨y, hy, -⟩ := at_of_mem h hp
    obtain ⟨z, hz, -⟩ := at_of_mem h hq
    intro v hv hv'
    dsimp only at hv hv'
    rw [hpaths hy, List.mem_map] at hv
    rw [hpaths hz, List.mem_map] at hv'
    obtain ⟨n, -, rfl⟩ := hv
    obtain ⟨m, -, he⟩ := hv'
    obtain ⟨rfl, -⟩ := Path.map_name_concat_inj.1 he
    have hc := hy.compare_eq hz
    simp [hlt] at hc

end Worker

end DirWatch
