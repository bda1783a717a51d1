import DirWatch.Proofs.FileTree.Open

/-! # A walk and the listings

On a machine that answers from a scene whose directories are open, a walk visits what is collected
when the root is listed, and every directory that is listed. -/

namespace DirWatch

variable {σ : Type} {host : Host σ} {sc : Scene} {holds : σ → Prop}

/-! ## What is collected -/

namespace Registry

/-- The directories that listings lead to: the root, and what the listing of such a directory shows
as a directory. -/
inductive Descends (host : Host σ) (r : Registry σ) : List Name → Prop
  | root : Descends host r []
  | child {y : List Name} {n : Name} {l : Listing Name} {e : ListedEntry}
      (parent : Descends host r y) (listed : (r.list host (r.root.below y)).1 = .ok l)
      (shown : l.entries.get? n = some e) (isDirectory : e.isDirectory = true) :
      Descends host r (y ++ [n])

/-- What the listings of these directories show. -/
def Collects (host : Host σ) (r : Registry σ) (z : List Name) (e : ListedEntry) : Prop :=
  ∃ y n l, z = y ++ [n] ∧ r.Descends host y ∧ (r.list host (r.root.below y)).1 = .ok l ∧
    l.entries.get? n = some e

section Open

variable (h : host.Displays sc holds) (hopen : sc.Open) {r : Registry σ} (hroot : r.root = sc.root)
  (hfilter : r.filter = sc.filter) (hr : holds r.machine) {y z : List Name} {e : ListedEntry}
include h hroot hfilter hr

theorem list_eq_look (y : List Name) : (r.list host (r.root.below y)).1 = sc.look y := by
  rw [list, hroot, Host.Presents.observes_below hroot hfilter]
  exact (h.list y hr).1

include hopen

theorem list_eq_listing (hy : sc.Directory y) :
    (r.list host (r.root.below y)).1 = .ok (sc.listing y) := by
  rw [list_eq_look h hroot hfilter hr, hopen.look_eq hy]

/-- Listings lead to the observable directories. -/
theorem descends_iff : r.Descends host y ↔ sc.Directory y := by
  constructor
  · intro hy
    induction hy with
    | root => exact .root
    | child parent listed shown isDirectory ih =>
        rw [list_eq_listing h hopen hroot hfilter hr ih] at listed
        obtain rfl := Except.ok.inj listed
        obtain ⟨m, hm, rfl⟩ := (Scene.get?_listing hopen.toListable ih).1 shown
        exact .child ih hm isDirectory
  · intro hy
    induction hy with
    | root => exact .root
    | child parent shown isDirectory ih =>
        exact .child ih (list_eq_listing h hopen hroot hfilter hr parent)
          ((Scene.get?_listing hopen.toListable parent).2 ⟨_, shown, rfl⟩) isDirectory

/-- They show what the observable directories show. -/
theorem collects_iff : r.Collects host z e ↔
    ∃ m, sc.ShowsAt z m ∧ e = ⟨m.isDirectory, m.modified⟩ := by
  constructor
  · rintro ⟨y, n, l, rfl, hy, hl, he⟩
    rw [descends_iff h hopen hroot hfilter hr] at hy
    rw [list_eq_listing h hopen hroot hfilter hr hy] at hl
    obtain rfl := Except.ok.inj hl
    obtain ⟨m, hm, rfl⟩ := (Scene.get?_listing hopen.toListable hy).1 he
    exact ⟨m, Scene.showsAt_concat.2 ⟨hy, hm⟩, rfl⟩
  · rintro ⟨m, ⟨y, n, rfl, hy, hm⟩, rfl⟩
    exact ⟨y, n, _, rfl, (descends_iff h hopen hroot hfilter hr).2 hy,
      list_eq_listing h hopen hroot hfilter hr hy,
      (Scene.get?_listing hopen.toListable hy).2 ⟨m, hm, rfl⟩⟩

/-- This is what is observable. -/
theorem collected_eq_observable :
    {v : EntryView | ∃ z e, r.Collects host z e ∧ v = (z.map .name, e.isDirectory, e.modified)} =
      sc.Observable := by
  ext v
  constructor
  · rintro ⟨z, e, he, rfl⟩
    obtain ⟨m, ⟨y, n, rfl, hy, hm⟩, rfl⟩ := (collects_iff h hopen hroot hfilter hr).1 he
    exact ⟨y, n, m, hy, hm, rfl⟩
  · rintro ⟨y, n, m, hy, hm, rfl⟩
    exact ⟨_, _, (collects_iff h hopen hroot hfilter hr).2
      ⟨m, Scene.showsAt_concat.2 ⟨hy, hm⟩, rfl⟩, rfl⟩

end Open

/-- The file in nested directories is collected. -/
theorem collects_nested {n : Name} {k : Nat} (hopen : (FileTree.nested n k).Open []) :
    let r : Registry ScriptedMachine :=
      { root := FileTree.pathOf [], machine := { tree := FileTree.nested n k } }
    r.Collects ScriptedMachine.host (List.replicate (k + 1) n) ⟨false, some ⟨7, 0⟩⟩ :=
  (collects_iff (ScriptedMachine.displays_faultless _ [] {}) (hopen.scene {}) rfl rfl
    ⟨rfl, rfl⟩).2 ⟨_, FileTree.showsAt_nested hopen, rfl⟩

end Registry

/-! ## What is visited -/

namespace Walk

/-- The visit of what was listed at a place below a root. Its time is missing if its path cannot be
looked up. -/
def visitOf (root : Path) (z : List Name) (e : ListedEntry) : Visit where
  path := root.below z
  relative := .ofNames z
  isDirectory := e.isDirectory
  modified := if (root.below z).refusal? = none then e.modified else none

/-- In a tree whose directories are open, a walk visits every observable entry below the root once,
every directory before what is below it. These are the entries that are collected when the root is
listed, and every directory that is listed, and no listing fails. A visit has the kind and the time
of the entry, except that the time is missing if the path of the entry cannot be looked up. On
demand the root comes first, and of all these the directories are yielded. -/
theorem run_eq_collected (h : host.Displays sc holds) (hopen : sc.Open) {r : Registry σ}
    (hroot : r.root = sc.root) (hfilter : r.filter = sc.filter) (hr : holds r.machine) {s : σ}
    (hs : holds s) :
    let found := ((⟨r.root, r.filter, false, false⟩ : Walk).run host s).1
    (∀ y, r.Descends host y → ∃ l, (r.list host (r.root.below y)).1 = .ok l) ∧
      {v | ∃ z e, r.Collects host z e ∧ v = (z.map .name, e.isDirectory, e.modified)} =
        sc.Observable ∧
      (∀ v, v ∈ found ↔ ∃ z e, r.Collects host z e ∧ v = visitOf r.root z e) ∧
      (found.map (·.relative)).Nodup ∧
      found.Pairwise (fun u v => ¬ u.relative.startsWith v.relative) ∧
      ∃ first : Visit, first.path = r.root ∧ first.relative = ⟨[]⟩ ∧ first.isDirectory = true ∧
        ∀ only rooted : Bool, ((⟨r.root, r.filter, only, rooted⟩ : Walk).run host s).1 =
          let all := if rooted then first :: found else found
          if only then all.filter (·.isDirectory) else all := by
  intro found
  obtain ⟨first, vs, hpath, hrelative, hdirectory, hvs, hrun⟩ := exists_enumeration h hopen
  rw [← hroot, ← hfilter] at hrun
  obtain rfl : found = vs := hrun false false s hs
  refine ⟨?_, Registry.collected_eq_observable h hopen hroot hfilter hr, ?_, hvs.nodup,
    hvs.pairwise, first, hpath.trans hroot.symm, hrelative, hdirectory,
    fun only rooted => hrun only rooted s hs⟩
  · intro y hy
    rw [Registry.descends_iff h hopen hroot hfilter hr] at hy
    exact ⟨_, Registry.list_eq_listing h hopen hroot hfilter hr hy⟩
  · intro v
    rw [hvs.mem_iff, hroot]
    constructor
    · rintro ⟨z, k, hk, rfl⟩
      exact ⟨z, ⟨k.isDirectory, k.modified⟩,
        (Registry.collects_iff h hopen hroot hfilter hr).2 ⟨k, hk, rfl⟩, rfl⟩
    · rintro ⟨z, e, he, rfl⟩
      obtain ⟨k, hk, rfl⟩ := (Registry.collects_iff h hopen hroot hfilter hr).1 he
      exact ⟨z, k, hk, rfl⟩

/-- A file in a directory is visited as it is listed. -/
theorem run_eq_collected_nested :
    let tree := FileTree.nested Engine.nameA 1
    let r : Registry ScriptedMachine := { root := FileTree.pathOf [], machine := { tree } }
    tree.Open [] ∧ ∃ v ∈ ((⟨r.root, r.filter, false, false⟩ : Walk).run ScriptedMachine.host
      r.machine).1, v.relative = .ofNames [Engine.nameA, Engine.nameA] ∧ v.isDirectory = false ∧
        v.modified = some ⟨7, 0⟩ := by
  intro tree r
  have hopen : tree.Open [] := FileTree.open_nested (by decide) (by decide) (by decide)
  have hmachine : r.machine.tree = tree ∧ r.machine.faults = ∅ := ⟨rfl, rfl⟩
  obtain ⟨-, -, hvisits, -⟩ := run_eq_collected (ScriptedMachine.displays_faultless tree [] {})
    (hopen.scene {}) (r := r) rfl rfl hmachine hmachine
  exact ⟨hopen, _, (hvisits _).2 ⟨_, _, Registry.collects_nested hopen, rfl⟩, rfl, rfl, rfl⟩

/-- A name as long as names can be. -/
def longName : Name where
  bytes := List.replicate Name.limit 0x6E
  valid := by
    have hlength : (List.replicate Name.limit (0x6E : UInt8)).length = 255 := List.length_replicate
    refine ⟨?_, ?_, ?_, fun h => absurd (List.eq_of_mem_replicate h) (by decide)⟩ <;>
      · intro h
        rw [h] at hlength
        cases hlength

/-- Below fifteen directories with such names a file cannot be looked up by its path. Its time is
collected, and is missing from the visit. -/
theorem run_ne_collected_of_long_path :
    let tree := FileTree.nested longName 15
    let r : Registry ScriptedMachine := { root := FileTree.pathOf [], machine := { tree } }
    let found := ((⟨r.root, r.filter, false, false⟩ : Walk).run ScriptedMachine.host r.machine).1
    tree.Open [] ∧
      {x | ∃ v ∈ found, x = (v.relative, v.isDirectory, v.modified)} ≠
        {x | ∃ z e, r.Collects ScriptedMachine.host z e ∧
          x = (.ofNames z, e.isDirectory, e.modified)} := by
  intro tree r found
  have hnul : 0 ∉ longName.bytes := fun h => absurd (List.eq_of_mem_replicate h) (by decide)
  have hlength : longName.bytes.length = 255 := List.length_replicate
  have hopen : tree.Open [] := FileTree.open_nested hnul hlength.le (by rw [hlength]; decide)
  have hfound : (tree.scene [] {}).Enumerates (tree.scene [] {}).ShowsAt found :=
    enumerates_run (ScriptedMachine.displays_faultless tree [] {}) (hopen.scene {}) ⟨rfl, rfl⟩
  refine ⟨hopen, fun heq => ?_⟩
  obtain ⟨v, hv, hsame⟩ := heq.symm.subset ⟨_, _, Registry.collects_nested hopen, rfl⟩
  obtain ⟨z, m, -, rfl⟩ := hfound.mem_iff.1 hv
  obtain ⟨hrelative, hrest⟩ := Prod.mk.inj hsame
  obtain rfl := Path.ofNames_inj.1 hrelative
  have hlong : ((tree.scene [] {}).root.below (List.replicate 16 longName)).refusal? ≠ none := by
    rw [FileTree.root_below, List.nil_append, Ne, FileTree.refusal?_nested hnul, hlength]
    decide
  have htime := (Prod.mk.inj hrest).2
  rw [Scene.modified_visitAt_of_refused hlong] at htime
  cases htime

end Walk

end DirWatch
