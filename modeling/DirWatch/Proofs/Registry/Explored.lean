import DirWatch.Proofs.Engine.Reached
import DirWatch.Proofs.Registry.FirstWalk
import Mathlib.Logic.Relation

/-! # What opening a tree registers

A walk takes the entries of directories for what they are shown as, and opening a tree tries every
directory that a walk comes to. On a machine that answers from a scene and places every watch, those
are registered that can be listed, each from its listing. -/

namespace DirWatch

variable {σ : Type} {host : Host σ} {sc : Scene} {holds : σ → Prop}

namespace Scene

/-- A walk goes on from a directory to an observed entry that the directory shows as one. -/
def Enters (sc : Scene) (y z : List Name) : Prop :=
  (sc.root.below y).text.length < Path.limit ∧ ∃ es, sc.readDirectory (sc.root.below y) = .ok es ∧
    ∃ e ∈ es, z = y ++ [e.name] ∧ sc.filter.allows (.ofNames z) = true ∧ e.isDirectory = true

/-- A walk from one place comes to another. -/
abbrev Walked (sc : Scene) : List Name → List Name → Prop := Relation.ReflTransGen sc.Enters

/-- A walk comes to where it starts and to what it comes to from the places that it enters there. -/
theorem exists_walked_iff {y : List Name} {P : List Name → Prop} :
    (∃ x, sc.Walked y x ∧ P x) ↔ P y ∨ ∃ z, sc.Enters y z ∧ ∃ x, sc.Walked z x ∧ P x := by
  constructor
  · rintro ⟨x, hx, hp⟩
    rcases Relation.ReflTransGen.cases_head hx with rfl | ⟨z, hz, hx⟩
    · exact .inl hp
    · exact .inr ⟨z, hz, x, hx, hp⟩
  · rintro (hp | ⟨z, hz, x, hx, hp⟩)
    · exact ⟨y, .refl, hp⟩
    · exact ⟨x, .head hz hx, hp⟩

end Scene

namespace Walk

variable {w : Walk} {D : List Name → Prop} {search : Path → σ → Traversal σ}

/-- What a walk yields of some visits. -/
def kept (w : Walk) (vs : List Visit) : List Visit :=
  if w.directoriesOnly then vs.filter (·.isDirectory) else vs

theorem kept_nil (w : Walk) : w.kept [] = [] := by
  unfold kept
  split <;> rfl

theorem kept_append (w : Walk) (us vs : List Visit) :
    w.kept (us ++ vs) = w.kept us ++ w.kept vs := by
  unfold kept
  split
  · exact List.filter_append us vs
  · rfl

/-- What is yielded of a path in a scene. -/
theorem lists_offer (h : host.Displays sc holds) (w : Walk) (p : Path) (isDirectory : Bool) {s : σ}
    (hs : holds s) :
    (w.offer host p isDirectory s).Lists holds
      (w.kept [w.visit p isDirectory (sc.metadata p)]) := by
  obtain ⟨hmeta, hms⟩ := h.metadata p s hs
  unfold offer
  split
  · next hleft =>
      obtain ⟨honly, hfile⟩ := Bool.and_eq_true_iff.1 hleft
      rw [kept, if_pos honly, List.filter_cons_of_neg (by simpa [visit] using hfile)]
      exact .finished hs
  · next hleft =>
      have hkept : w.kept [w.visit p isDirectory (sc.metadata p)] =
          [w.visit p isDirectory (sc.metadata p)] := by
        unfold kept
        split
        · next honly => simpa [honly, visit] using hleft
        · rfl
      rw [hkept, ← hmeta]
      exact .yielded hms fun _ hs => .finished hs

/-- A walk goes through the observed entries of a directory that can be read. -/
theorem lists_level (h : host.Displays sc holds) {p : Path} {es : List DirectoryEntry}
    (hshort : p.text.length < Path.limit) (hes : sc.readDirectory p = .ok es) {vs : List Visit}
    (hvs : ∀ s, holds s → (Traversal.gather (w.enter host search p)
      (es.filter fun e => w.filter.allows (relativeTo w.root (p.child e.name))) s).Lists holds vs)
    {s : σ} (hs : holds s) : (w.level host search p s).Lists holds vs := by
  obtain ⟨hread, hrs⟩ := h.readDirectory p s hs
  rw [hes] at hread
  unfold level
  rw [if_neg (Nat.not_le_of_lt hshort)]
  split
  · next he =>
      rw [he] at hread
      cases hread
  · next he =>
      rw [he] at hread hrs
      obtain rfl := Except.ok.inj hread
      exact hvs _ hrs

/-- It yields nothing of one that cannot be read. -/
theorem lists_level_nil (h : host.Displays sc holds) {p : Path}
    (hnone : ∀ es, p.text.length < Path.limit → sc.readDirectory p ≠ .ok es) {s : σ}
    (hs : holds s) : (w.level host search p s).Lists holds [] := by
  obtain ⟨hread, hrs⟩ := h.readDirectory p s hs
  unfold level
  split
  · exact .finished hs
  next hshort =>
  split
  · next he =>
      rw [he] at hrs
      exact .finished hrs
  · next es _ he =>
      rw [he] at hread
      exact absurd hread.symm (hnone es (Nat.lt_of_not_le hshort))

/-- A walk starts at a root that is a directory. -/
theorem entrance_of_directory (h : host.Displays sc holds) (hroot : w.root = sc.root)
    {m : Metadata} (hm : sc.metadata sc.root = .ok m) (hd : m.isDirectory = true) {s : σ}
    (hs : holds s) : w.entrance host s = (some (true, true), (host.metadata sc.root s).2) := by
  have hmeta := (h.metadata sc.root s hs).1
  rw [hm] at hmeta
  unfold entrance
  rw [hroot]
  rcases hr : host.metadata sc.root s with ⟨r, s'⟩
  rw [hr] at hmeta
  subst hmeta
  exact if_pos hd

/-- A search in places of `D` yields the directories that a walk comes to from there. -/
def Explores (sc : Scene) (holds : σ → Prop) (D : List Name → Prop)
    (search : Path → σ → Traversal σ) : Prop :=
  ∀ y, D y → ∃ vs, (∀ s, holds s → (search (sc.root.below y) s).Lists holds vs) ∧
    ∀ p, p ∈ vs.map (·.path) ↔ ∃ z, sc.Enters y z ∧ ∃ x, sc.Walked z x ∧ p = sc.root.below x

section Directories

variable (h : host.Displays sc holds) (honly : w.directoriesOnly = true)
include h honly

theorem explores_enter (hsearch : Explores sc holds D search) {y : List Name} {e : DirectoryEntry}
    (hy : D (y ++ [e.name])) :
    ∃ vs, (∀ s, holds s → (w.enter host search (sc.root.below y) e s).Lists holds vs) ∧
      ∀ p, p ∈ vs.map (·.path) ↔
        e.isDirectory = true ∧ ∃ x, sc.Walked (y ++ [e.name]) x ∧ p = sc.root.below x := by
  have hfirst := fun s => lists_offer h w ((sc.root.below y).child e.name) e.isDirectory (s := s)
  unfold enter
  cases hd : e.isDirectory with
  | false =>
      simp only [hd, kept, honly, if_true, visit, List.filter_cons, List.filter_nil,
        Bool.false_eq_true, if_false] at hfirst
      exact ⟨[], fun s hs => (hfirst s hs).andThen fun _ hs => .finished hs, by simp⟩
  | true =>
      simp only [hd, kept, honly, if_true, visit, List.filter_cons, List.filter_nil] at hfirst
      obtain ⟨vs, hlists, hvs⟩ := hsearch (y ++ [e.name]) hy
      rw [Path.below_concat] at hlists
      refine ⟨_, fun s hs => (hfirst s hs).andThen fun s hs => hlists s hs, fun p => ?_⟩
      rw [List.singleton_append, List.map_cons, List.mem_cons, hvs p, Scene.exists_walked_iff,
        Path.below_concat]
      exact (and_iff_right rfl).symm

theorem explores_gather (hsearch : Explores sc holds D search) {y : List Name}
    (hy : ∀ n, D (y ++ [n])) (es : List DirectoryEntry) :
    ∃ vs, (∀ s, holds s →
        (Traversal.gather (w.enter host search (sc.root.below y)) es s).Lists holds vs) ∧
      ∀ p, p ∈ vs.map (·.path) ↔ ∃ e ∈ es, e.isDirectory = true ∧
        ∃ x, sc.Walked (y ++ [e.name]) x ∧ p = sc.root.below x := by
  induction es with
  | nil => exact ⟨[], fun s hs => .finished hs, by simp⟩
  | cons e es ih =>
      obtain ⟨us, hus, hfirst⟩ := explores_enter h honly hsearch (hy e.name)
      obtain ⟨vs, hvs, hrest⟩ := ih
      refine ⟨us ++ vs, fun s hs => (hus s hs).andThen hvs, fun p => ?_⟩
      rw [List.map_append, List.mem_append, hfirst p, hrest p, List.exists_mem_cons_iff]

variable (hroot : w.root = sc.root) (hfilter : w.filter = sc.filter)
include hroot hfilter

/-- A search in a directory is one below those of its entries that are observed. -/
theorem explores_level {D' : List Name → Prop} (hsearch : Explores sc holds D' search)
    (hD : ∀ y n, D y → (sc.root.below y).text.length < Path.limit → D' (y ++ [n])) :
    Explores sc holds D (w.level host search) := by
  intro y hy
  by_cases hread : (sc.root.below y).text.length < Path.limit ∧
      ∃ es, sc.readDirectory (sc.root.below y) = .ok es
  · obtain ⟨hshort, es, hes⟩ := hread
    obtain ⟨vs, hvs, hfound⟩ := explores_gather h honly hsearch (fun n => hD y n hy hshort)
      (es.filter fun e => w.filter.allows (relativeTo w.root ((sc.root.below y).child e.name)))
    refine ⟨vs, fun s hs => lists_level h hshort hes hvs hs, fun p => (hfound p).trans ?_⟩
    have hobs : ∀ e : DirectoryEntry,
        w.filter.allows (relativeTo w.root ((sc.root.below y).child e.name)) =
          sc.filter.allows (.ofNames (y ++ [e.name])) := by
      intro e
      rw [hroot, ← Path.below_concat, relativeTo_below, hfilter]
    constructor
    · rintro ⟨e, he, hd, x, hx⟩
      obtain ⟨he, hf⟩ := List.mem_filter.1 he
      exact ⟨_, ⟨hshort, es, hes, e, he, rfl, hobs e ▸ hf, hd⟩, x, hx⟩
    · rintro ⟨z, ⟨-, es', hes', e, he, rfl, hf, hd⟩, x, hx⟩
      obtain rfl := Except.ok.inj (hes.symm.trans hes')
      exact ⟨e, List.mem_filter.2 ⟨he, (hobs e).trans hf⟩, hd, x, hx⟩
  · refine ⟨[], fun s hs => lists_level_nil h ?_ hs, fun p => iff_of_false (by simp) ?_⟩
    · exact fun es hshort hes => hread ⟨hshort, es, hes⟩
    · rintro ⟨z, ⟨hshort, es, hes, -⟩, -⟩
      exact hread ⟨hshort, es, hes⟩

/-- The room is never used up before a directory has no path that can be looked up. -/
theorem explores_below (room : Nat) :
    Explores sc holds (fun y => Path.limit ≤ room + (sc.root.below y).text.length)
      (w.below host room) := by
  induction room with
  | zero =>
      have hnowhere : Explores sc holds (fun _ => False) fun (_ : Path) (s : σ) => .finished s :=
        fun _ hf => hf.elim
      refine explores_level h honly hroot hfilter hnowhere ?_
      intro y n hy hlt
      omega
  | succ room ih =>
      refine explores_level h honly hroot hfilter ih ?_
      intro y n hy hlt
      have hgrows := Path.length_lt_child (sc.root.below y) n
      rw [Path.below_concat]
      omega

/-- A walk over the directories of a tree comes to the root and to what is entered from it. -/
theorem mem_traverse (hinclude : w.includeRoot = true) {m : Metadata}
    (hm : sc.metadata sc.root = .ok m) (hd : m.isDirectory = true) :
    ∃ vs, (∀ s, holds s → (w.traverse host s).Lists holds vs) ∧
      ∀ p, p ∈ vs.map (·.path) ↔ ∃ x, sc.Walked [] x ∧ p = sc.root.below x := by
  obtain ⟨vs, hvs, hfound⟩ := explores_below h honly hroot hfilter
    (Path.limit - sc.root.text.length) [] (Nat.le_add_of_sub_le le_rfl)
  have hfirst := fun s => lists_offer h w sc.root true (s := s)
  simp only [kept, honly, if_true, visit, List.filter_cons, List.filter_nil] at hfirst
  refine ⟨[w.visit sc.root true (sc.metadata sc.root)] ++ vs, fun s hs => ?_, fun p => ?_⟩
  · unfold traverse
    rw [entrance_of_directory h hroot hm hd hs]
    simp only [hinclude, if_true, hroot]
    exact (hfirst _ (h.metadata sc.root s hs).2).andThen hvs
  · rw [List.singleton_append, List.map_cons, List.mem_cons, Scene.exists_walked_iff]
    exact or_congr_right (hfound p)

end Directories

end Walk

namespace Registry

/-- What is registered after a registration was registered before or is the directory asked for. -/
theorem mem_paths_register (host : Host σ) {r : Registry σ} {p q : Path}
    (h : q ∈ (r.register host p).2.paths) : q = p ∨ q ∈ r.paths :=
  register_keeps (I := fun r' : Registry σ => ∀ q ∈ r'.paths, q = p ∨ q ∈ r.paths)
    (fun _ h => h) (fun _ h => h) (fun _ h => h)
    (fun _ _ _ _ h _ _ hq => (OrderedMap.mem_keys_insert hq).elim .inl (h _))
    (fun _ hq => .inr hq) q h

section Displayed

variable {h : host.Displays sc holds} {hw : ∀ p s, holds s → (host.watch p s).1 = .ok ()}
  {tried : List Path} {r : Registry σ}

/-- Registering a directory fails without harm, if at all, and the directory is registered
afterwards if it was before or can be listed. -/
theorem forest_register (hr : (h.spareLaws hw).Fits r) {y : List Name}
    (hy : ∀ d, r.forest y = some d → sc.Listed y ∧ d = .ofListing (sc.listing y)) :
    let r' := r.register host (sc.root.below y)
    (∀ e, r'.1 = .error e → e.isFatal = false) ∧ (h.spareLaws hw).Fits r'.2 ∧
      ∀ z d, r'.2.forest z = some d ↔
        r.forest z = some d ∨ z = y ∧ sc.Listed y ∧ d = .ofListing (sc.listing y) := by
  have hnames : (h.spareLaws hw).Names (sc.root.below y) y := ⟨Path.at_below _ _, y, rfl⟩
  cases hd : r.forest y with
  | some e =>
      have hcontains : r.contains (sc.root.below y) = true :=
        (hr.contains_iff hnames.1).2 (by simp [hd])
      rw [register, if_pos hcontains]
      refine ⟨by simp, hr, fun z d => (or_iff_left_of_imp ?_).symm⟩
      rintro ⟨rfl, -, rfl⟩
      rw [hd, (hy e hd).2]
  | none =>
      rcases Engine.register_cases (s := { registry := r }) hr hnames hd with
        ⟨e, s', hreg, hmay, hfatal, htold⟩ | ⟨l, s', hreg, hl, -, hfits, hf, -⟩
      · have hres : (r.register host (sc.root.below y)).1 = .error e := congrArg Prod.fst hreg
        have hs' : (r.register host (sc.root.below y)).2 = s'.registry :=
          congrArg (·.2.registry) hreg
        dsimp only
        rw [hres, hs', show s'.registry.forest = r.forest from htold.forest]
        refine ⟨?_, htold.fits, fun z d => (or_iff_left ?_).symm⟩
        · rintro e' ⟨⟩
          by_contra hfat
          cases hfatal ((Bool.not_eq_false _).mp hfat)
        · exact fun hz => Host.Displays.mayFail_iff.1 hmay hz.2.1
      · have hres : (r.register host (sc.root.below y)).1 = .ok true := congrArg Prod.fst hreg
        have hs' : (r.register host (sc.root.below y)).2 = s'.registry :=
          congrArg (·.2.registry) hreg
        obtain ⟨rfl, -⟩ := Scene.of_look_eq_ok hl.symm
        dsimp only
        rw [hres, hs', show s'.registry.forest = Function.update r.forest y _ from hf]
        refine ⟨by simp, hfits, fun z d => ?_⟩
        by_cases hz : z = y
        · subst hz
          rw [Function.update_self, Option.some.injEq, eq_comm, hd]
          exact ⟨fun he => .inr ⟨rfl, ⟨_, hl.symm⟩, he⟩, fun he => (he.resolve_left (by simp)).2.2⟩
        · rw [Function.update_of_ne hz]
          exact (or_iff_left fun he => hz he.1).symm

/-- A registry in which some paths were tried: what they lead to is registered if it can be listed,
from its listing. -/
structure Stocked (h : host.Displays sc holds) (hw : ∀ p s, holds s → (host.watch p s).1 = .ok ())
    (tried : List Path) (r : Registry σ) : Prop where
  fits : (h.spareLaws hw).Fits r
  within : ∀ p ∈ r.paths, p ∈ tried
  forest_eq_some : ∀ y d, r.forest y = some d ↔
    sc.root.below y ∈ tried ∧ sc.Listed y ∧ d = .ofListing (sc.listing y)

namespace Stocked

variable (h hw) in
/-- Nothing was tried in an empty registry. -/
theorem empty {machine : σ} (hm : holds machine) :
    Stocked h hw [] { root := sc.root, filter := sc.filter, machine } where
  fits := ⟨rfl, rfl, hm, nofun⟩
  within := nofun
  forest_eq_some y d := by
    refine iff_of_false ?_ (by simp)
    rintro ⟨⟩

/-- Trying one more directory. -/
theorem register (hr : r.Stocked h hw tried) (y : List Name) :
    (∀ e, (r.register host (sc.root.below y)).1 = .error e → e.isFatal = false) ∧
      (r.register host (sc.root.below y)).2.Stocked h hw (tried ++ [sc.root.below y]) := by
  obtain ⟨hfatal, hfits, hforest⟩ :=
    forest_register hr.fits fun d hd => ((hr.forest_eq_some y d).1 hd).2
  refine ⟨hfatal, hfits, fun q hq => ?_, fun z d => ?_⟩
  · exact List.mem_append.2
      ((mem_paths_register host hq).symm.imp (hr.within q) List.mem_singleton.2)
  · have hz : sc.root.below z ∈ [sc.root.below y] ↔ z = y := by
      rw [List.mem_singleton]
      exact ⟨fun he => (Path.at_below sc.root z).unique (he ▸ Path.at_below sc.root y),
        congrArg sc.root.below⟩
    rw [hforest, hr.forest_eq_some, List.mem_append, hz, or_and_right]
    refine or_congr_right (and_congr_right ?_)
    rintro rfl
    rfl

/-- The walk may move the machine. -/
theorem walked (hr : r.Stocked h hw tried) {machine : σ} (hm : holds machine) :
    Stocked h hw tried { r with machine } :=
  ⟨⟨hr.fits.root_eq, hr.fits.filter_eq, hm, hr.fits.inside⟩, hr.within, hr.forest_eq_some⟩

variable (h hw) in
/-- Some of the visits of a walk were tried, and the others are still to come. -/
def Going (vs visits : List Visit) (t : Traversal σ) (r : Registry σ) : Prop :=
  r.Stocked h hw (visits.map (·.path)) ∧ ∃ rest, t.Lists holds rest ∧ visits ++ rest = vs

theorem Going.step {vs visits : List Visit} (hvs : ∀ v ∈ vs, ∃ y, v.path = sc.root.below y)
    {v : Visit} {machine : σ} {resume : σ → Traversal σ}
    (hg : Going h hw vs visits (.yielded v machine resume) r) :
    let attempt := { r with machine }.register host v.path
    (∀ e, attempt.1 = .error e → e.isFatal = false) ∧
      Going h hw vs (visits ++ [v]) (resume attempt.2.machine) attempt.2 := by
  obtain ⟨hr, rest, ht, hrest⟩ := hg
  cases ht with
  | @yielded _ later _ _ kept hlater =>
      obtain ⟨y, hy⟩ := hvs v (hrest ▸ by simp)
      obtain ⟨hfatal, hnext⟩ := (hr.walked kept).register y
      rw [hy]
      refine ⟨hfatal, ?_, later, hlater _ hnext.fits.machine, by simpa using hrest⟩
      rwa [List.map_append, List.map_singleton, hy]

theorem Going.finish {vs visits : List Visit} {machine : σ}
    (hg : Going h hw vs visits (.finished machine) r) :
    Stocked h hw (vs.map (·.path)) { r with machine } := by
  obtain ⟨hr, rest, ht, rfl⟩ := hg
  cases ht with
  | finished kept =>
      rw [List.append_nil]
      exact hr.walked kept

/-- Trying what a walk yields, the root among it. -/
theorem registerTree {t : Traversal σ} {vs : List Visit} (ht : t.Lists holds vs)
    (hvs : ∀ v ∈ vs, ∃ y, v.path = sc.root.below y) (hr : r.Stocked h hw [])
    (hroot : sc.root ∈ vs.map (·.path)) (hlisted : sc.Listed []) :
    (r.registerTree host t).1 = .ok () ∧
      (r.registerTree host t).2.Stocked h hw (vs.map (·.path)) := by
  have hstart : Going h hw vs [] t r := ⟨hr, vs, ht, rfl⟩
  have hopened : Opened host (Going h hw vs) (r.registerTree host t) :=
    opened_registerTree (fun _ _ _ _ _ hg => (hg.step hvs).2) hstart
  generalize r.registerTree host t = opened at hopened
  cases hopened with
  | opened known rooted => exact ⟨rfl, known.finish⟩
  | @rootless _ machine r known bare =>
      have hr := known.finish
      have htop : r.forest [] = some (.ofListing (sc.listing [])) :=
        (hr.forest_eq_some [] _).2 ⟨hroot, hlisted, rfl⟩
      have hcontains : r.contains r.root = true :=
        (contains_iff_forest (Path.at_below r.root [])).2 (by simp [htop])
      rw [hcontains] at bare
      cases bare
  | broken known failed fatal =>
      have hfatal := (known.step hvs).1
      rw [failed] at hfatal
      rw [hfatal _ rfl] at fatal
      cases fatal

end Stocked

end Displayed

/-- Opening a tree registers what a walk from the root comes to and can be listed. -/
theorem explored_openTree (h : host.Displays sc holds)
    (hw : ∀ p s, holds s → (host.watch p s).1 = .ok ()) (hlisted : sc.Listed []) {machine : σ}
    (hm : holds machine) :
    let opened := openTree host sc.root sc.filter machine
    opened.1 = .ok () ∧ (h.spareLaws hw).Fits opened.2 ∧
      (∀ p ∈ opened.2.paths, ∃ y, p = sc.root.below y) ∧
      ∀ y d, opened.2.forest y = some d ↔
        sc.Walked [] y ∧ sc.Listed y ∧ d = .ofListing (sc.listing y) := by
  intro opened
  obtain ⟨l, hl⟩ := hlisted
  obtain ⟨-, m, hmeta, hd⟩ := Scene.of_look_eq_ok hl
  obtain ⟨vs, hlists, hmem⟩ := Walk.mem_traverse (w := ⟨sc.root, sc.filter, true, true⟩) h rfl rfl
    rfl rfl hmeta hd
  have hplaces : ∀ v ∈ vs, ∃ y, v.path = sc.root.below y := fun v hv =>
    ((hmem v.path).1 (List.mem_map_of_mem hv)).imp fun _ hx => hx.2
  obtain ⟨hok, hstocked⟩ := (Stocked.empty h hw hm).registerTree (hlists machine hm) hplaces
    ((hmem _).2 ⟨[], .refl, rfl⟩) ⟨l, hl⟩
  refine ⟨hok, hstocked.fits, fun p hp => ?_, fun y d => ?_⟩
  · exact ((hmem p).1 (hstocked.within p hp)).imp fun _ hx => hx.2
  · refine (hstocked.forest_eq_some y d).trans ?_
    refine and_congr_left fun _ => (hmem _).trans ⟨?_, fun hy => ⟨y, hy, rfl⟩⟩
    rintro ⟨x, hx, he⟩
    rwa [(Path.at_below sc.root y).unique (he ▸ Path.at_below sc.root x)]

end Registry

end DirWatch
