import DirWatch.Machine.Scripted
import DirWatch.Proofs.Engine.Pass
import DirWatch.Proofs.Engine.Steady
import DirWatch.Proofs.FileTree.Lookup

/-! # A file tree as a scene

What a file tree shows below a directory to a watcher with a filter. A directory on the tree is never
taken to be gone. It is listed if it may be read and nothing on the way keeps a look-up from it, and
then shows its entries, or none if it may not be searched. -/

namespace DirWatch

namespace FileTree

/-- What a tree shows below a directory. -/
def scene (t : FileTree) (location : List Name) (filter : Filter) : Scene where
  root := pathOf location
  filter := filter
  metadata := t.metadata
  readDirectory := t.readDirectory

/-- No directory has two entries with one name. -/
def Distinct (t : FileTree) : Prop :=
  ∀ location d, t.top.at? location = some d → (d.entries.map (·.1)).Nodup

/-- A tree whose top has nothing but such directories is such a tree. -/
theorem distinct_directory {i : Identity} {mode : Nat} {entries : List (Name × Node)}
    (hnames : (entries.map (·.1)).Nodup)
    (hentries : ∀ e ∈ entries, Distinct { top := e.2 }) :
    Distinct { top := .directory i mode entries } := by
  intro location d hd
  cases location with
  | nil =>
      obtain rfl := Option.some.inj hd
      exact hnames
  | cons n location =>
      obtain ⟨next, hnext, hd⟩ := Option.bind_eq_some_iff.1 hd
      obtain ⟨e, he, rfl⟩ := Option.map_eq_some_iff.1 hnext
      exact hentries e (List.mem_of_find?_eq_some he) location d hd

/-- A directory stands at a place below a location. -/
def DirectoryAt (t : FileTree) (location y : List Name) (d : Node) : Prop :=
  t.top.at? (location ++ y) = some d ∧ d.isDirectory = true

variable {t : FileTree} {location y : List Name} {filter : Filter} {d : Node}

theorem root_below (t : FileTree) (location : List Name) (filter : Filter) (y : List Name) :
    (t.scene location filter).root.below y = pathOf (location ++ y) :=
  below_pathOf location y

/-- An obstacle does not make a directory vanish. -/
theorem listingError_of_obstacle {p : Path} {e : IoFailure}
    (h : t.top.obstacle? location = some e) : listingError p e = .io e := by
  rcases Node.of_obstacle? h with rfl | rfl <;> rfl

theorem listing_eq (h : t.DirectoryAt location y d)
    (hr : (pathOf (location ++ y)).refusal? = none)
    (ho : t.top.obstacle? (location ++ y) = none) (hread : d.isReadable = true) :
    (t.scene location filter).listing y =
      .ofEntries (fun n => filter.allows (.ofNames (y ++ [n]))) d.identity
        (d.entries.map (shown d)) := by
  rw [Scene.listing, root_below, scene]
  dsimp only
  rw [metadata_pathOf h.1 hr, readDirectory_pathOf h.1 h.2 hr, ho]
  dsimp only
  rw [hread]
  rfl

/-- What comes of listing a directory. -/
theorem look_directory (h : t.DirectoryAt location y d) :
    (t.scene location filter).look y =
      match (pathOf (location ++ y)).refusal?.or (t.top.obstacle? (location ++ y)) with
      | some e => .error (.io e)
      | none =>
        if d.isReadable then .ok ((t.scene location filter).listing y)
        else .error (.io .permissionDenied) := by
  rw [Scene.look, root_below]
  cases hr : (pathOf (location ++ y)).refusal? with
  | some failure => rfl
  | none =>
      rw [scene]
      dsimp only
      rw [metadata_pathOf h.1 hr, readDirectory_pathOf h.1 h.2 hr, Option.none_or]
      cases ho : t.top.obstacle? (location ++ y) with
      | some e => exact congrArg Except.error (listingError_of_obstacle ho)
      | none =>
          dsimp only
          rw [Node.metadata, h.2]
          cases d.isReadable <;> rfl

/-- What comes of listing a directory by a path in any text: its entries, or a failure that does not
tell it is gone. -/
theorem answer_directory (filter : Filter) (h : t.DirectoryAt location y d) {p : Path}
    (hp : Path.At (pathOf location) p y) (observed : Name → Bool) :
    (d.isReadable = true ∧ (t.scene location filter).answer observed p =
        .ok (.ofEntries observed d.identity (d.entries.map (shown d)))) ∨
      ∃ e, (t.scene location filter).answer observed p = .error (.io e) := by
  rw [Scene.answer]
  cases hr : p.refusal? with
  | some failure => exact .inr ⟨failure, rfl⟩
  | none =>
      rw [scene]
      dsimp only
      rcases metadata_of_at h.1 h.2 hp hr with hm | hm | hm <;> rw [hm]
      · dsimp only
        rw [Node.metadata, h.2]
        rcases readDirectory_of_at h.1 h.2 hp hr with ⟨hread, he⟩ | he | he <;> rw [he]
        · exact .inl ⟨hread, rfl⟩
        · exact .inr ⟨.permissionDenied, rfl⟩
        · exact .inr ⟨.nameTooLong, rfl⟩
      · exact .inr ⟨.permissionDenied, rfl⟩
      · exact .inr ⟨.nameTooLong, rfl⟩

/-- A directory that is listed may be read, and nothing keeps a look-up from it. -/
theorem listed_iff (h : t.DirectoryAt location y d) :
    (t.scene location filter).Listed y ↔ (pathOf (location ++ y)).refusal? = none ∧
      t.top.obstacle? (location ++ y) = none ∧ d.isReadable = true := by
  rw [Scene.Listed, look_directory h, ← and_assoc, ← Option.or_eq_none_iff]
  cases (pathOf (location ++ y)).refusal?.or (t.top.obstacle? (location ++ y)) with
  | some e => simp
  | none => cases hread : d.isReadable <;> simp

theorem child?_eq_some_iff (h : (d.entries.map (·.1)).Nodup) {n : Name} {next : Node} :
    d.child? n = some next ↔ (n, next) ∈ d.entries := by
  rw [Node.child?, Option.map_eq_some_iff]
  constructor
  · rintro ⟨⟨m, next'⟩, hfind, rfl⟩
    obtain rfl : m = n := by simpa using List.find?_some hfind
    exact List.mem_of_find?_eq_some hfind
  · intro hmem
    refine ⟨(n, next), ?_, rfl⟩
    have hsome : (d.entries.find? fun e => e.1 = n).isSome :=
      List.find?_isSome.2 ⟨_, hmem, decide_eq_true rfl⟩
    obtain ⟨⟨m, next'⟩, hfind⟩ := Option.isSome_iff_exists.1 hsome
    obtain rfl : m = n := by simpa using List.find?_some hfind
    rw [hfind, List.inj_on_of_nodup_map h (List.mem_of_find?_eq_some hfind) hmem rfl]

/-- A listing shows the entries that are observed, if the directory may be searched. -/
theorem get?_listing_directory (ht : t.Distinct) (h : t.DirectoryAt location y d)
    (hl : (t.scene location filter).Listed y) {n : Name} {e : ListedEntry} :
    ((t.scene location filter).listing y).entries.get? n = some e ↔
      filter.allows (.ofNames (y ++ [n])) = true ∧ d.isSearchable = true ∧
        ∃ next, d.child? n = some next ∧ e = ⟨next.isDirectory, next.modified⟩ := by
  obtain ⟨hr, ho, hread⟩ := (listed_iff h).1 hl
  have hnames := ht _ d h.1
  rw [listing_eq h hr ho hread, Scene.get?_ofEntries (by
    rw [List.map_map]
    exact hnames)]
  constructor
  · rintro ⟨a, ha, m, rfl, hm, hobs, rfl⟩
    obtain ⟨⟨n, next⟩, hmem, rfl⟩ := List.mem_map.1 ha
    dsimp only [shown] at hm hobs ⊢
    split at hm
    · next hs =>
        obtain rfl := Except.ok.inj hm
        exact ⟨hobs, hs, next, (child?_eq_some_iff hnames).2 hmem, rfl⟩
    · cases hm
  · rintro ⟨hobs, hs, next, hchild, rfl⟩
    refine ⟨_, List.mem_map.2 ⟨_, (child?_eq_some_iff hnames).1 hchild, rfl⟩, next.metadata, rfl, ?_,
      hobs, rfl⟩
    rw [shown, if_pos hs]

end FileTree

/-! ## The scripted machine -/

namespace ScriptedMachine

/-- A scripted machine shows its tree, unless a directory goes away as it is watched. -/
theorem displays (t : FileTree) (location : List Name) (filter : Filter)
    {faults : OrderedMap Path Fault} (hf : ∀ p, faults.get? p ≠ some .vanish) :
    host.Displays (t.scene location filter) fun m => m.tree = t ∧ m.faults = faults where
  metadata := by
    rintro p m ⟨rfl, rfl⟩
    exact ⟨rfl, rfl, rfl⟩
  readDirectory := by
    rintro p m ⟨rfl, rfl⟩
    exact ⟨rfl, rfl, rfl⟩
  watch := by
    rintro p m ⟨rfl, rfl⟩
    change (watch p m).2.tree = m.tree ∧ (watch p m).2.faults = m.faults
    unfold watch
    dsimp only
    split
    · exact ⟨rfl, rfl⟩
    · exact ⟨rfl, rfl⟩
    · next hp => exact absurd hp (hf p)
    · exact ⟨rfl, rfl⟩
  unwatch := by
    rintro p m ⟨rfl, rfl⟩
    change (unwatch p m).2.tree = m.tree ∧ (unwatch p m).2.faults = m.faults
    unfold unwatch
    split <;> exact ⟨rfl, rfl⟩

theorem displays_faultless (t : FileTree) (location : List Name) (filter : Filter) :
    host.Displays (t.scene location filter) fun m => m.tree = t ∧ m.faults = ∅ :=
  displays t location filter (by simp)

/-- Without faults every watch is placed. -/
theorem watch_eq_ok {m : ScriptedMachine} (hm : m.faults = ∅) (p : Path) :
    (host.watch p m).1 = .ok () := by
  change (watch p m).1 = .ok ()
  rw [watch, hm, OrderedMap.get?_empty]

section Below

variable {r : Registry ScriptedMachine} {location y : List Name} {d : Node}
  (hroot : r.root = FileTree.pathOf location) (h : r.machine.tree.DirectoryAt location y d)
  (hr : (FileTree.pathOf (location ++ y)).refusal? = none)
  (ho : r.machine.tree.top.obstacle? (location ++ y) = none) (hread : d.isReadable = true)

/-- What a directory shows to a watcher of what is below a location. -/
def listing (r : Registry ScriptedMachine) (y : List Name) (d : Node) : Listing Name :=
  .ofEntries (fun n => r.filter.allows (.ofNames (y ++ [n]))) d.identity
    (d.entries.map (FileTree.shown d))

include hroot h hr ho hread

/-- The machine lists a directory that nothing keeps it from, and goes on as it was. -/
theorem list_below : r.list host (FileTree.pathOf (location ++ y)) = (.ok (listing r y d),
    r.record (.listed (FileTree.pathOf (location ++ y)) (.ok (listing r y d)))) := by
  have hobs : r.observes (FileTree.pathOf (location ++ y)) =
      fun n => r.filter.allows (.ofNames (y ++ [n])) := by
    refine Registry.observes_eq ?_
    rw [hroot, ← FileTree.below_pathOf, Path.stripPrefix?_below]
  have hmeta := FileTree.metadata_pathOf h.1 hr
  have hentries := FileTree.readDirectory_pathOf h.1 h.2 hr
  rw [ho] at hmeta hentries
  rw [Registry.list, hobs]
  unfold Host.list
  rw [hr]
  simp only [host, hmeta, Node.metadata, h.2, hentries, hread]
  rfl

variable (location y) in
/-- A pass over such a directory. -/
theorem diff_below {s : Engine ScriptedMachine} (hs : s.registry = r) {e : TrackedDirectory Name}
    (he : r.get? (FileTree.pathOf (location ++ y)) = some e) :
    s.diff host (FileTree.pathOf (location ++ y)) =
      Engine.resume host (FileTree.pathOf (location ++ y)) e
        { s with
          registry := (r.record (.began (FileTree.pathOf (location ++ y)))).record
            (.listed (FileTree.pathOf (location ++ y)) (.ok (listing r y d))) }
        (.ok (listing r y d)) := by
  subst hs
  have hlist := list_below
    (r := s.registry.record (.began (FileTree.pathOf (location ++ y)))) hroot h hr ho hread
  rw [Engine.diff_eq he, hlist]
  rfl

end Below

end ScriptedMachine

end DirWatch
