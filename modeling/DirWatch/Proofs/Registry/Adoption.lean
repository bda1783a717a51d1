import DirWatch.Proofs.Engine.Upkeep
import DirWatch.Proofs.Engine.Watches
import DirWatch.Proofs.FileTree.Scene
import DirWatch.Proofs.Registry.Explored

/-! # Opening a tree and adopting it

A walk goes by what directories show their entries as, and adopting goes by metadata. They part at
a directory that may not be searched: the walk goes on below it, but nothing there can be listed,
and its listing does not show what is there. So both register the same directories of a file
tree. -/

namespace DirWatch

/-! ## Ways through a file tree -/

namespace FileTree

variable {t : FileTree} {location y z : List Name} {filter : Filter} {d next : Node} {n : Name}

theorem DirectoryAt.child (h : t.DirectoryAt location y d) (hn : d.child? n = some next)
    (hnext : next.isDirectory = true) : t.DirectoryAt location (y ++ [n]) next := by
  refine ⟨?_, hnext⟩
  rw [← List.append_assoc, Node.at?_concat, h.1, Option.bind_some, hn]

/-- A path whose entries are read was not refused. -/
theorem refusal?_of_readDirectory {p : Path} {es : List DirectoryEntry}
    (h : t.readDirectory p = .ok es) : p.refusal? = none := by
  cases hr : p.refusal? with
  | none => rfl
  | some failure =>
      have hnode : t.node .target p = .error failure := by
        rw [node, locate, hr]
        rfl
      rw [readDirectory, hnode] at h
      cases h

/-- A walk goes on from a directory that can be listed to the directories in it. -/
theorem enters_iff (ht : t.Distinct) (h : t.DirectoryAt location y d) :
    (t.scene location filter).Enters y z ↔ (t.scene location filter).Listed y ∧
      ∃ n next, z = y ++ [n] ∧ filter.allows (.ofNames z) = true ∧ d.child? n = some next ∧
        next.isDirectory = true := by
  rw [listed_iff h, Scene.Enters, root_below, scene]
  dsimp only
  constructor
  · rintro ⟨-, es, hes, e, he, hz, hf, hdir⟩
    have hr := refusal?_of_readDirectory hes
    rw [readDirectory_pathOf h.1 h.2 hr] at hes
    cases ho : t.top.obstacle? (location ++ y) with
    | some failure =>
        rw [ho] at hes
        cases hes
    | none =>
        rw [ho] at hes
        dsimp only at hes
        split at hes
        · cases hes
        next hread =>
        obtain rfl := Except.ok.inj hes
        obtain ⟨⟨n, next⟩, hmem, rfl⟩ := List.mem_map.1 he
        exact ⟨⟨hr, rfl, by simpa using hread⟩, n, next, hz, hf,
          (child?_eq_some_iff (ht _ d h.1)).2 hmem, hdir⟩
  · rintro ⟨⟨hr, ho, hread⟩, n, next, hz, hf, hn, hdir⟩
    refine ⟨Path.length_lt_of_refusal?_eq_none hr, d.entries.map (shown d), ?_, shown d (n, next),
      List.mem_map_of_mem ((child?_eq_some_iff (ht _ d h.1)).1 hn), hz, hf, hdir⟩
    rw [readDirectory_pathOf h.1 h.2 hr, ho]
    simp [hread]

/-- A listing leads to the directories in a directory that may be searched. -/
theorem leads_iff_child (ht : t.Distinct) (h : t.DirectoryAt location y d)
    (hl : (t.scene location filter).Listed y) :
    (t.scene location filter).Leads y n ↔ filter.allows (.ofNames (y ++ [n])) = true ∧
      d.isSearchable = true ∧ ∃ next, d.child? n = some next ∧ next.isDirectory = true := by
  rw [Scene.Leads, Option.map_eq_some_iff]
  constructor
  · rintro ⟨e, he, hdir⟩
    obtain ⟨hf, hs, next, hn, rfl⟩ := (get?_listing_directory ht h hl).1 he
    exact ⟨hf, hs, next, hn, hdir⟩
  · rintro ⟨hf, hs, next, hn, hdir⟩
    exact ⟨_, (get?_listing_directory ht h hl).2 ⟨hf, hs, next, hn, rfl⟩, hdir⟩

/-- What can be listed is in a directory that may be searched. -/
theorem isSearchable_of_listed (h : t.DirectoryAt location y d) (hn : d.child? n = some next)
    (hnext : next.isDirectory = true) (hl : (t.scene location filter).Listed (y ++ [n])) :
    d.isSearchable = true := by
  obtain ⟨-, ho, -⟩ := (listed_iff (h.child hn hnext)).1 hl
  rw [← List.append_assoc, Node.obstacle?_append h.1, Option.or_eq_none_iff] at ho
  by_contra hs
  rw [Node.obstacle?, if_pos (by simpa using hs)] at ho
  cases ho.2

/-- A walk comes to directories only. -/
theorem directoryAt_of_walked (ht : t.Distinct) (h : t.DirectoryAt location y d)
    (hw : (t.scene location filter).Walked y z) : ∃ d', t.DirectoryAt location z d' := by
  induction hw with
  | refl => exact ⟨d, h⟩
  | tail _ hz ih =>
      obtain ⟨d', hd'⟩ := ih
      obtain ⟨-, n, next, rfl, -, hn, hdir⟩ := (enters_iff ht hd').1 hz
      exact ⟨next, hd'.child hn hdir⟩

/-- Listings lead to those places that a walk comes to and that can be listed. -/
theorem reached_iff_walked (ht : t.Distinct) (h : t.DirectoryAt location [] d) :
    (t.scene location filter).Reached [] y ↔
      (t.scene location filter).Walked [] y ∧ (t.scene location filter).Listed y := by
  constructor
  · intro hreached
    refine ⟨?_, hreached.listed⟩
    induction hreached with
    | here => exact .refl
    | @child y n parent leads _ ih =>
        obtain ⟨d', hd'⟩ := directoryAt_of_walked ht h ih
        obtain ⟨hf, -, next, hn, hdir⟩ := (leads_iff_child ht hd' parent.listed).1 leads
        exact ih.tail ((enters_iff ht hd').2 ⟨parent.listed, n, next, rfl, hf, hn, hdir⟩)
  · rintro ⟨hw, hl⟩
    induction hw with
    | refl => exact .here hl
    | tail hw hz ih =>
        obtain ⟨d', hd'⟩ := directoryAt_of_walked ht h hw
        obtain ⟨hparent, n, next, rfl, hf, hn, hdir⟩ := (enters_iff ht hd').1 hz
        refine .child (ih hparent) ((leads_iff_child ht hd' hparent).2 ⟨hf, ?_, next, hn, hdir⟩) hl
        exact isSearchable_of_listed hd' hn hdir hl

end FileTree

/-! ## Adopting the root -/

variable {σ : Type} {host : Host σ} {sc : Scene} {holds : σ → Prop}

namespace Engine

/-- Paths that are written as the root joined with names are all that an engine adopts. -/
theorem upkeep_below (host : Host σ) (root : Path) :
    Upkeep host (fun s => ∀ p ∈ s.registry.paths, ∃ y, p = root.below y)
      (fun p => ∃ y, p = root.below y) (fun _ => False) (fun _ _ _ => True) where
  emit s kind p f hs _ := by
    unfold emit
    split <;> exact hs
  unmark _ _ _ hp _ := hp.elim
  cancel _ _ _ _ hp _ := hp.elim
  left _ _ _ _ _ _ hp _ _ := hp.elim
  register s p hs hp q hq := (Registry.mem_paths_register host hq).elim (fun he => he ▸ hp) (hs q)
  entered s p s' d n i _ hp _ _ _ := by
    obtain ⟨y, rfl⟩ := hp
    exact ⟨trivial, fun _ => ⟨y ++ [n], (Path.below_concat root y n).symm⟩⟩

/-- Registering the root and adopting its subdirectories in some order registers what listings lead
to. -/
theorem reached_adopt (h : host.Displays sc holds)
    (hw : ∀ p s, holds s → (host.watch p s).1 = .ok ()) (hlisted : sc.Listed []) {machine : σ}
    (hm : holds machine) :
    let rooted := register host sc.root
      { registry := { root := sc.root, filter := sc.filter, machine } }
    let top : TrackedDirectory Name := .ofListing (sc.listing [])
    rooted.1 = .ok true ∧ rooted.2.registry.get? sc.root = some top ∧
      ∀ ns : List Name, ns.Perm top.subdirectories →
        let adopted := inTurn (adopt host) (ns.map sc.root.child) rooted.2
        adopted.1 = .ok () ∧ (h.spareLaws hw).Fits adopted.2.registry ∧
          (∀ p ∈ adopted.2.registry.paths, ∃ y, p = sc.root.below y) ∧
            ∀ y d, adopted.2.forest y = some d ↔
              sc.Reached [] y ∧ d = .ofListing (sc.listing y) := by
  intro rooted top
  set s : Engine σ := { registry := { root := sc.root, filter := sc.filter, machine } } with hs
  have hfit : (h.spareLaws hw).Fits s.registry := ⟨rfl, rfl, hm, nofun⟩
  have hnames : (h.spareLaws hw).Names sc.root [] := ⟨Path.at_below sc.root [], [], rfl⟩
  rcases register_cases hfit hnames rfl with
    ⟨e, s₁, -, hmay, -⟩ | ⟨l, s₁, hreg, hl, -, hfit₁, hf, -, hst⟩
  · exact absurd hlisted (Host.Displays.mayFail_iff.1 hmay)
  obtain ⟨rfl, -⟩ := Scene.of_look_eq_ok hl.symm
  have htop : s₁.forest [] = some top := by rw [hf, Function.update_self]
  have hrooted : rooted = (.ok true, s₁) := hreg
  rw [hrooted]
  refine ⟨rfl, (hfit₁.get?_eq (Path.at_below sc.root [])).trans htop, fun ns hns => ?_⟩
  have hbare : ∀ y, Covers (ns.map fun n => [] ++ [n]) y → s₁.forest y = none := by
    intro y hy
    rw [hf, Function.update_of_ne (Apart.covers_of_children hy).2]
    rfl
  obtain ⟨es, hes⟩ := adopted_children hfit₁ hnames (hns.nodup_iff.2 top.nodup_subdirectories) hbare
  have hspread := Spread.round (fun n => hns.mem_iff) hl (fun _ _ => rfl) hf hst hes.toSpread
  have hup := upkeep_below host sc.root
  have hpaths : ∀ p ∈ s₁.registry.paths, ∃ y, p = sc.root.below y := by
    have hregister := hup.register s sc.root nofun ⟨[], rfl⟩
    rwa [hreg] at hregister
  have hchild : ∀ p ∈ ns.map sc.root.child, ∃ y, p = sc.root.below y := by
    rintro p hp
    obtain ⟨n, -, rfl⟩ := List.mem_map.1 hp
    exact ⟨[n], rfl⟩
  refine ⟨hes.ok, hes.fits, ?_, fun y d => ⟨fun hd => ?_, ?_⟩⟩
  · exact DirWatch.inTurn_keeps
      (I := fun s' : Engine σ => ∀ p ∈ s'.registry.paths, ∃ y, p = sc.root.below y)
      (fun p hp _ hs' => hup.adopt (hchild p hp) hs') hpaths
  · refine ⟨?_, (hspread.eq_ofListing ⟨[], by simp⟩ hd).2⟩
    refine (hspread.registered_iff List.mem_cons_self List.nil_prefix).1 ?_
    rw [hd]
    simp
  · rintro ⟨hreached, rfl⟩
    obtain ⟨d', hd'⟩ := Option.ne_none_iff_exists'.1
      ((hspread.registered_iff List.mem_cons_self List.nil_prefix).2 hreached)
    rw [← (hspread.eq_ofListing ⟨[], by simp⟩ hd').2]
    exact hd'

end Engine

/-! ## One registry -/

namespace Registry

/-- What is found under a path that is written as the root joined with names is told by the
forest. -/
theorem get?_of_forest {r r' : Registry σ} (hroot : r'.root = r.root)
    (hpaths : ∀ p ∈ r.paths, ∃ y, p = r.root.below y) (h : r.forest = r'.forest) {p : Path}
    {d : TrackedDirectory Name} (hd : r.get? p = some d) : r'.get? p = some d := by
  obtain ⟨k, hk, hmem⟩ := OrderedMap.exists_mem_of_get? hd
  obtain ⟨y, rfl⟩ := hpaths k (List.mem_map_of_mem hmem)
  have hat : Path.At r.root p y := (Path.at_below r.root y).of_compare_eq hk
  rwa [get?_eq_forest (hroot ▸ hat), ← h, ← get?_eq_forest hat]

/-- Such a registry is told by its forest. -/
theorem directories_eq {r r' : Registry σ} (hroot : r'.root = r.root)
    (hpaths : ∀ p ∈ r.paths, ∃ y, p = r.root.below y)
    (hpaths' : ∀ p ∈ r'.paths, ∃ y, p = r'.root.below y) (h : r.forest = r'.forest) :
    r.directories = r'.directories := by
  refine OrderedMap.eq_of_get? ?_ fun p => Option.ext fun d => ?_
  · intro p hp q hq he
    obtain ⟨y, rfl⟩ := hpaths p hp
    obtain ⟨z, rfl⟩ := hpaths' q hq
    rw [hroot] at he ⊢
    rw [((Path.at_below r.root z).of_compare_eq he).unique (Path.at_below r.root y)]
  · exact ⟨get?_of_forest hroot hpaths h, get?_of_forest hroot.symm hpaths' h.symm⟩

variable {watched : σ → Set (List Component)} {t : FileTree} {location : List Name}
  {filter : Filter} {d : Node}

/-- While a file tree does not change and every watch is placed, it does not matter whether the tree
is opened, or its root is registered and the subdirectories of the root are adopted in some order:
the same directories are registered, with the same items, and the same is watched. -/
theorem adopted_eq_opened (ht : t.Distinct) (hd : t.DirectoryAt location [] d)
    (h : host.Displays (t.scene location filter) holds) (hk : host.HoldsWatches watched)
    (hw : ∀ p s, holds s → (host.watch p s).1 = .ok ())
    (hlisted : (t.scene location filter).Listed []) {machine : σ} (hm : holds machine)
    (hnone : watched machine = ∅) :
    let root := FileTree.pathOf location
    let opened := openTree host root filter machine
    let rooted := Engine.register host root { registry := { root, filter, machine } }
    let top : TrackedDirectory Name := .ofListing ((t.scene location filter).listing [])
    opened.1 = .ok () ∧ rooted.1 = .ok true ∧ rooted.2.registry.get? root = some top ∧
      ∀ ns : List Name, ns.Perm top.subdirectories →
        let adopted := inTurn (Engine.adopt host) (ns.map root.child) rooted.2
        adopted.1 = .ok () ∧ adopted.2.registry.directories = opened.2.directories ∧
          watched adopted.2.registry.machine = watched opened.2.machine := by
  intro root opened rooted top
  obtain ⟨hopened, hfits, hpaths, hforest⟩ := explored_openTree h hw hlisted hm
  obtain ⟨hrooted, htop, hadopted⟩ := Engine.reached_adopt h hw hlisted hm
  refine ⟨hopened, hrooted, htop, fun ns hns => ?_⟩
  obtain ⟨hok, hfits', hpaths', hforest'⟩ := hadopted ns hns
  intro adopted
  have hdirectories : adopted.2.registry.directories = opened.2.directories := by
    refine directories_eq (hfits.root_eq.trans hfits'.root_eq.symm)
      (hfits'.root_eq.symm ▸ hpaths') (hfits.root_eq.symm ▸ hpaths) ?_
    funext y
    refine Option.ext fun e => (hforest' y e).trans (Iff.trans ?_ (hforest y e).symm)
    rw [FileTree.reached_iff_walked ht hd, and_assoc]
  refine ⟨hok, hdirectories, ?_⟩
  have hstart : InStep watched ∅ ({ root, filter, machine } : Registry σ) :=
    inStep_empty rfl rfl hnone ∅
  have hwalk : opened.2.InStep watched ∅ :=
    hstart.registerTree hk (Walk.spares_traverse hk _ machine)
  have hsteps : adopted.2.registry.InStep watched ∅ := by
    have hup := (Engine.upkeep_inStep hk ∅).toUpkeep
    exact inTurn_keeps (I := fun s : Engine σ => s.registry.InStep watched ∅)
      (fun _ _ _ hs => hup.adopt trivial hs) (hstart.register hk)
  rw [hwalk.watched_eq, hsteps.watched_eq, registered_congr hdirectories]

/-! ## Directories that keep something from a watcher -/

/-- A directory with an empty directory in it. -/
def vault (i mode : Nat) (inner : Name) : Node :=
  .directory ⟨0, i⟩ mode [(inner, .directory ⟨0, i + 1⟩ 0o755 [])]

/-- A tree with an open directory, one that may not be read and one that may not be searched. -/
def vaults : FileTree where
  top := .directory ⟨0, 1⟩ 0o755 [(Engine.nameA, vault 2 0o755 Engine.nameX),
    (Engine.nameB, vault 4 0o311 Engine.nameX), (Engine.nameX, vault 6 0o644 Engine.nameA)]

theorem distinct_vault (i mode : Nat) (inner : Name) :
    FileTree.Distinct { top := vault i mode inner } := by
  refine FileTree.distinct_directory (by simp) ?_
  intro e he
  rw [List.mem_singleton.1 he]
  exact FileTree.distinct_directory List.nodup_nil (by simp)

theorem distinct_vaults : vaults.Distinct := by
  refine FileTree.distinct_directory (by decide +kernel) ?_
  intro e he
  simp only [List.mem_cons, List.not_mem_nil, or_false] at he
  rcases he with rfl | rfl | rfl <;> exact distinct_vault _ _ _

/-- The walk tries the directory that may not be read and what is in the one that may not be
searched, and adopting comes to the former only. Neither registers any of this, and both register
what is in the open directory. -/
theorem adopted_eq_opened_vaults :
    let root := FileTree.pathOf []
    let machine : ScriptedMachine := { tree := vaults }
    let opened := openTree ScriptedMachine.host root {} machine
    let rooted := Engine.register ScriptedMachine.host root { registry := { root, machine } }
    let adopted := inTurn (Engine.adopt ScriptedMachine.host)
      ([Engine.nameX, Engine.nameA, Engine.nameB].map root.child) rooted.2
    adopted.2.registry.directories = opened.2.directories ∧
      adopted.2.registry.machine.watched.places = opened.2.machine.watched.places ∧
        (opened.2.forest [Engine.nameA, Engine.nameX] ≠ none) ∧
          opened.2.forest [Engine.nameB] = none ∧
            opened.2.forest [Engine.nameX, Engine.nameA] = none := by
  intro root machine opened rooted adopted
  have hd : vaults.DirectoryAt [] [] vaults.top := ⟨rfl, rfl⟩
  have ha : vaults.DirectoryAt [] [Engine.nameA] (vault 2 0o755 Engine.nameX) := ⟨rfl, rfl⟩
  have hax : vaults.DirectoryAt [] [Engine.nameA, Engine.nameX] (.directory ⟨0, 3⟩ 0o755 []) :=
    ⟨rfl, rfl⟩
  have hb : vaults.DirectoryAt [] [Engine.nameB] (vault 4 0o311 Engine.nameX) := ⟨rfl, rfl⟩
  have hxa : vaults.DirectoryAt [] [Engine.nameX, Engine.nameA] (.directory ⟨0, 7⟩ 0o755 []) :=
    ⟨rfl, rfl⟩
  have hdisplays := ScriptedMachine.displays_faultless vaults [] {}
  have hplaced : ∀ p (s : ScriptedMachine), s.tree = vaults ∧ s.faults = ∅ →
      (ScriptedMachine.host.watch p s).1 = .ok () := fun p _ hs => ScriptedMachine.watch_eq_ok hs.2 p
  have hlisted : (vaults.scene [] {}).Listed [] := (FileTree.listed_iff hd).2 (by decide +kernel)
  have hlisteda : (vaults.scene [] {}).Listed [Engine.nameA] :=
    (FileTree.listed_iff ha).2 (by decide +kernel)
  have hmachine : machine.tree = vaults ∧ machine.faults = ∅ := ⟨rfl, rfl⟩
  obtain ⟨-, -, -, hsame⟩ := adopted_eq_opened distinct_vaults hd hdisplays
    ScriptedMachine.holdsWatches hplaced hlisted hmachine OrderedMap.places_empty
  obtain ⟨-, hdirectories, hwatched⟩ := hsame [Engine.nameX, Engine.nameA, Engine.nameB] (by
    rw [FileTree.listing_eq hd (by decide +kernel) (by decide +kernel) (by decide +kernel)]
    decide +kernel)
  obtain ⟨-, -, -, hforest⟩ := explored_openTree hdisplays hplaced hlisted hmachine
  have hunlisted : ∀ y, ¬ (vaults.scene [] {}).Listed y → opened.2.forest y = none := by
    intro y hy
    by_contra hne
    obtain ⟨e, he⟩ := Option.ne_none_iff_exists'.1 hne
    exact hy ((hforest y e).1 he).2.1
  refine ⟨hdirectories, hwatched, ?_, hunlisted _ ?_, hunlisted _ ?_⟩
  · have hwalked : (vaults.scene [] {}).Walked [] [Engine.nameA, Engine.nameX] :=
      .tail (.single ((FileTree.enters_iff distinct_vaults hd).2
          ⟨hlisted, _, _, rfl, Filter.allows_default _, rfl, rfl⟩))
        ((FileTree.enters_iff distinct_vaults ha).2
          ⟨hlisteda, _, _, rfl, Filter.allows_default _, rfl, rfl⟩)
    refine Option.ne_none_iff_exists'.2 ⟨_, (hforest _ _).2 ⟨hwalked, ?_, rfl⟩⟩
    exact (FileTree.listed_iff hax).2 (by decide +kernel)
  · rw [FileTree.listed_iff hb]
    decide +kernel
  · rw [FileTree.listed_iff hxa]
    decide +kernel

end Registry

end DirWatch
