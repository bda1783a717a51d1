import DirWatch.Proofs.Registry.Explored

/-! # What a walk enumerates

On a machine that answers from a scene whose directories are open, a walk visits every entry that is
observable once, and nothing after what is below it. -/

namespace DirWatch

variable {σ : Type} {host : Host σ} {sc : Scene} {holds : σ → Prop}

namespace Scene

/-- Every observable directory can be listed, and tells metadata of all its entries, in which those
are directories that it shows as such. The path of an entry leads to the same, unless it cannot be
looked up. -/
structure Open (sc : Scene) : Prop extends sc.Listable where
  told : ∀ y es e, sc.Directory y → sc.readDirectory (sc.root.below y) = .ok es → e ∈ es →
    ∃ m, e.metadata = .ok m ∧ m.isDirectory = e.isDirectory ∧
      sc.metadata (sc.root.below (y ++ [e.name])) =
        (sc.root.below (y ++ [e.name])).refusal?.elim (.ok m) .error

/-- An observable directory shows an entry at a place. -/
def ShowsAt (sc : Scene) (z : List Name) (m : Metadata) : Prop :=
  ∃ y n, z = y ++ [n] ∧ sc.Directory y ∧ sc.Shows y n m

theorem showsAt_concat {y : List Name} {n : Name} {m : Metadata} :
    sc.ShowsAt (y ++ [n]) m ↔ sc.Directory y ∧ sc.Shows y n m := by
  constructor
  · rintro ⟨x, k, hx, hd, hs⟩
    obtain ⟨rfl, rfl⟩ := List.append_singleton_inj.1 hx
    exact ⟨hd, hs⟩
  · exact fun ⟨hd, hs⟩ => ⟨y, n, rfl, hd, hs⟩

theorem Listable.shows_unique (h : sc.Listable) {y : List Name} (hy : sc.Directory y) {n : Name}
    {m m' : Metadata} (hm : sc.Shows y n m) (hm' : sc.Shows y n m') : m = m' := by
  obtain ⟨es, hes, hnodup⟩ := h.shown y hy
  obtain ⟨-, es₁, e₁, hes₁, he₁, hn₁, hm₁⟩ := hm
  obtain ⟨-, es₂, e₂, hes₂, he₂, hn₂, hm₂⟩ := hm'
  obtain rfl := Except.ok.inj (hes.symm.trans hes₁)
  obtain rfl := Except.ok.inj (hes.symm.trans hes₂)
  obtain rfl := List.inj_on_of_nodup_map hnodup he₁ he₂ (hn₁.trans hn₂.symm)
  exact Except.ok.inj (hm₁.symm.trans hm₂)

/-- What is shown at or below an entry of a directory is shown there, or the entry is an observable
directory. -/
theorem ShowsAt.cases {y z : List Name} {n : Name} {m : Metadata} (h : sc.ShowsAt z m)
    (hz : y ++ [n] <+: z) :
    sc.Directory y ∧ ((z = y ++ [n] ∧ sc.Shows y n m) ∨
      z ≠ y ++ [n] ∧ sc.Directory (y ++ [n]) ∧ ∃ m', sc.Shows y n m' ∧ m'.isDirectory = true) := by
  obtain ⟨x, k, rfl, hx, hs⟩ := h
  rcases List.prefix_concat_iff.1 hz with heq | hbelow
  · obtain ⟨rfl, rfl⟩ := List.append_singleton_inj.1 heq
    exact ⟨hx, .inl ⟨rfl, hs⟩⟩
  · have hdir := hx.of_isPart hbelow
    obtain ⟨hy, m', hm', hd⟩ := directory_concat hdir
    refine ⟨hy, .inr ⟨?_, hdir, m', hm', hd⟩⟩
    intro heq
    have hlength := hbelow.length_le
    rw [← heq, List.length_append, List.length_singleton] at hlength
    omega

section Listable

variable (h : sc.Listable) {y z : List Name} {n : Name} {m k : Metadata} (hm : sc.Shows y n m)
include h hm

/-- What is shown at or below an entry is the entry, or it is shown below it. -/
theorem Listable.showsAt_iff (hy : sc.Directory y) :
    y ++ [n] <+: z ∧ sc.ShowsAt z k ↔
      (z = y ++ [n] ∧ k = m) ∨ (y ++ [n] <+: z ∧ z ≠ y ++ [n] ∧ sc.ShowsAt z k) := by
  by_cases hz : z = y ++ [n]
  · subst hz
    rw [showsAt_concat]
    constructor
    · rintro ⟨-, -, hk⟩
      exact .inl ⟨rfl, h.shows_unique hy hk hm⟩
    · rintro (⟨-, rfl⟩ | ⟨-, hne, -⟩)
      · exact ⟨List.prefix_rfl, hy, hm⟩
      · exact absurd rfl hne
  · simp [hz]

/-- Nothing is shown below what is not a directory. -/
theorem Listable.not_showsAt_below (hd : m.isDirectory = false) :
    ¬ (y ++ [n] <+: z ∧ z ≠ y ++ [n] ∧ sc.ShowsAt z k) := by
  rintro ⟨hz, hne, hk⟩
  obtain ⟨hy, ⟨heq, -⟩ | ⟨-, -, m', hm', hd'⟩⟩ := hk.cases hz
  · exact hne heq
  · rw [h.shows_unique hy hm' hm, hd] at hd'
    cases hd'

end Listable

/-- The visit of an entry at a place. Its time is missing if its path cannot be looked up. -/
def visitAt (sc : Scene) (z : List Name) (m : Metadata) : Visit where
  path := sc.root.below z
  relative := .ofNames z
  isDirectory := m.isDirectory
  modified := if (sc.root.below z).refusal? = none then m.modified else none

theorem modified_visitAt_of_refused {z : List Name} {m : Metadata}
    (h : (sc.root.below z).refusal? ≠ none) : (sc.visitAt z m).modified = none := if_neg h

/-- Visits of the entries that `P` names, each of them once, and none after one below it. -/
def Enumerates (sc : Scene) (P : List Name → Metadata → Prop) (vs : List Visit) : Prop :=
  ∃ zs : List (List Name × Metadata), vs = zs.map (fun z => sc.visitAt z.1 z.2) ∧
    (∀ z m, (z, m) ∈ zs ↔ P z m) ∧ zs.Pairwise fun a b => ¬ b.1 <+: a.1

namespace Enumerates

variable {P Q : List Name → Metadata → Prop} {us vs : List Visit}

theorem congr (h : sc.Enumerates P vs) (hPQ : ∀ z m, P z m ↔ Q z m) : sc.Enumerates Q vs := by
  obtain ⟨zs, hvs, hmem, horder⟩ := h
  exact ⟨zs, hvs, fun z m => (hmem z m).trans (hPQ z m), horder⟩

theorem nil (h : ∀ z m, ¬ P z m) : sc.Enumerates P [] :=
  ⟨[], rfl, fun z m => iff_of_false List.not_mem_nil (h z m), .nil⟩

theorem cons (h : sc.Enumerates P vs) {z₀ : List Name} (m₀ : Metadata)
    (hbelow : ∀ z m, P z m → z₀ <+: z ∧ z ≠ z₀) :
    sc.Enumerates (fun z m => (z = z₀ ∧ m = m₀) ∨ P z m) (sc.visitAt z₀ m₀ :: vs) := by
  obtain ⟨zs, rfl, hmem, horder⟩ := h
  refine ⟨(z₀, m₀) :: zs, rfl, fun z m => ?_, horder.cons ?_⟩
  · rw [List.mem_cons, Prod.mk.injEq, hmem]
  · rintro ⟨z, m⟩ hz hback
    obtain ⟨hforth, hne⟩ := hbelow z m ((hmem z m).1 hz)
    exact hne (hback.eq_of_length_le hforth.length_le)

theorem append (hP : sc.Enumerates P us) (hQ : sc.Enumerates Q vs)
    (hapart : ∀ z m z' m', P z m → Q z' m' → ¬ z' <+: z) :
    sc.Enumerates (fun z m => P z m ∨ Q z m) (us ++ vs) := by
  obtain ⟨xs, rfl, hxs, hxorder⟩ := hP
  obtain ⟨zs, rfl, hzs, hzorder⟩ := hQ
  refine ⟨xs ++ zs, List.map_append.symm, fun z m => ?_, ?_⟩
  · rw [List.mem_append, hxs, hzs]
  · refine List.pairwise_append.2 ⟨hxorder, hzorder, ?_⟩
    rintro ⟨x, m⟩ hx ⟨z, k⟩ hz
    exact hapart x m z k ((hxs x m).1 hx) ((hzs z k).1 hz)

theorem mem_iff (h : sc.Enumerates P vs) {v : Visit} :
    v ∈ vs ↔ ∃ z m, P z m ∧ v = sc.visitAt z m := by
  obtain ⟨zs, rfl, hmem, -⟩ := h
  rw [List.mem_map]
  constructor
  · rintro ⟨⟨z, m⟩, hz, rfl⟩
    exact ⟨z, m, (hmem z m).1 hz, rfl⟩
  · rintro ⟨z, m, hz, rfl⟩
    exact ⟨(z, m), (hmem z m).2 hz, rfl⟩

/-- No visit is followed by one of what it is below. -/
theorem pairwise (h : sc.Enumerates P vs) :
    vs.Pairwise fun u v => ¬ u.relative.startsWith v.relative := by
  obtain ⟨zs, rfl, -, horder⟩ := h
  exact List.pairwise_map.2 (horder.imp fun hab hstarts => hab (Path.startsWith_ofNames.1 hstarts))

theorem nodup (h : sc.Enumerates P vs) : (vs.map (·.relative)).Nodup := by
  refine List.pairwise_map.2 (h.pairwise.imp fun {u v} happart heq => happart ?_)
  rw [heq]
  exact v.relative.startsWith_self

end Enumerates

end Scene

namespace Walk

variable {D D' : List Name → Prop} {search : Walk → Path → σ → Traversal σ}

/-- A search in observable directories of `D` enumerates what is shown below them, whatever the
options of the walk. -/
def Surveys (sc : Scene) (holds : σ → Prop) (D : List Name → Prop)
    (search : Walk → Path → σ → Traversal σ) : Prop :=
  ∀ y, sc.Directory y → D y → ∃ vs,
    sc.Enumerates (fun z m => y <+: z ∧ z ≠ y ∧ sc.ShowsAt z m) vs ∧
      ∀ w : Walk, w.root = sc.root → w.filter = sc.filter → ∀ s, holds s →
        (search w (sc.root.below y) s).Lists holds (w.kept vs)

/-- The visit of an entry, with the time that its path leads to. -/
theorem visit_eq_visitAt {w : Walk} (hroot : w.root = sc.root) {y : List Name} {m : Metadata}
    (hm : sc.metadata (sc.root.below y) = (sc.root.below y).refusal?.elim (.ok m) .error) :
    w.visit (sc.root.below y) m.isDirectory (sc.metadata (sc.root.below y)) = sc.visitAt y m := by
  rw [visit, hroot, relativeTo_below, Scene.visitAt, hm, Visit.mk.injEq]
  cases (sc.root.below y).refusal? <;> simp [Except.toOption]

section Open

variable (h : host.Displays sc holds) (hopen : sc.Open) (hsearch : Surveys sc holds D search)
include h hopen hsearch

/-- An entry is enumerated with what is shown below it. -/
theorem surveys_enter {y : List Name} (hy : sc.Directory y) {es : List DirectoryEntry}
    (hes : sc.readDirectory (sc.root.below y) = .ok es) {e : DirectoryEntry} (he : e ∈ es)
    (hallows : sc.filter.allows (.ofNames (y ++ [e.name])) = true) (hD : D (y ++ [e.name])) :
    ∃ vs, sc.Enumerates (fun z m => y ++ [e.name] <+: z ∧ sc.ShowsAt z m) vs ∧
      ∀ w : Walk, w.root = sc.root → w.filter = sc.filter → ∀ s, holds s →
        (w.enter host (search w) (sc.root.below y) e s).Lists holds (w.kept vs) := by
  obtain ⟨m, hm, hd, hlook⟩ := hopen.told y es e hy hes he
  have hshows : sc.Shows y e.name m := ⟨hallows, es, e, hes, he, rfl, hm⟩
  have hoffer : ∀ w : Walk, w.root = sc.root → ∀ s, holds s →
      (w.offer host (sc.root.below (y ++ [e.name])) e.isDirectory s).Lists holds
        (w.kept [sc.visitAt (y ++ [e.name]) m]) := by
    intro w hroot s hs
    have hlists := lists_offer h w (sc.root.below (y ++ [e.name])) e.isDirectory hs
    rwa [← hd, visit_eq_visitAt hroot hlook, hd] at hlists
  unfold enter
  rw [← Path.below_concat]
  cases he' : e.isDirectory with
  | true =>
      rw [he'] at hoffer
      have hdir : sc.Directory (y ++ [e.name]) := .child hy hshows (hd.trans he')
      obtain ⟨vs, hvs, hlists⟩ := hsearch (y ++ [e.name]) hdir hD
      refine ⟨[sc.visitAt (y ++ [e.name]) m] ++ vs, ?_, fun w hroot hfilter s hs => ?_⟩
      · exact (hvs.cons m fun z k hz => ⟨hz.1, hz.2.1⟩).congr fun z k =>
          (hopen.showsAt_iff hshows hy).symm
      · rw [kept_append]
        exact (hoffer w hroot s hs).andThen (hlists w hroot hfilter)
  | false =>
      rw [he'] at hoffer
      have hnone : ∀ z k, ¬ (y ++ [e.name] <+: z ∧ z ≠ y ++ [e.name] ∧ sc.ShowsAt z k) :=
        fun z k => hopen.not_showsAt_below hshows (hd.trans he')
      refine ⟨[sc.visitAt (y ++ [e.name]) m], ?_, fun w hroot _ s hs => ?_⟩
      · refine ((Scene.Enumerates.nil hnone).cons m fun z k hz => absurd hz (hnone z k)).congr ?_
        exact fun z k => (hopen.showsAt_iff hshows hy).symm
      · rw [← List.append_nil (w.kept _)]
        exact (hoffer w hroot s hs).andThen fun _ hs => .finished hs

/-- Entries of a directory are enumerated one after the other. -/
theorem surveys_gather {y : List Name} (hy : sc.Directory y) {es : List DirectoryEntry}
    (hes : sc.readDirectory (sc.root.below y) = .ok es) (hD : ∀ n, D (y ++ [n]))
    {shown : List DirectoryEntry} (hshown : ∀ e ∈ shown, e ∈ es ∧
      sc.filter.allows (.ofNames (y ++ [e.name])) = true) (hnodup : (shown.map (·.name)).Nodup) :
    ∃ vs, sc.Enumerates (fun z m => (∃ e ∈ shown, y ++ [e.name] <+: z) ∧ sc.ShowsAt z m) vs ∧
      ∀ w : Walk, w.root = sc.root → w.filter = sc.filter → ∀ s, holds s →
        (Traversal.gather (w.enter host (search w) (sc.root.below y)) shown s).Lists holds
          (w.kept vs) := by
  induction shown with
  | nil =>
      refine ⟨[], .nil (by simp), fun w _ _ s hs => ?_⟩
      rw [kept_nil]
      exact .finished hs
  | cons e rest ih =>
      obtain ⟨⟨he, hallows⟩, hrest⟩ := List.forall_mem_cons.1 hshown
      obtain ⟨hnotin, hnodup⟩ := List.nodup_cons.1 hnodup
      obtain ⟨us, hus, hfirst⟩ := surveys_enter h hopen hsearch hy hes he hallows (hD _)
      obtain ⟨vs, hvs, hothers⟩ := ih hrest hnodup
      refine ⟨us ++ vs, (hus.append hvs ?_).congr fun z m => ?_, fun w hroot hfilter s hs => ?_⟩
      · -- what is below two entries of one directory lies apart
        rintro z m z' m' ⟨hz, -⟩ ⟨⟨e', he', hz'⟩, -⟩ hback
        have hsame : y ++ [e'.name] = y ++ [e.name] :=
          (List.prefix_of_prefix_length_le (hz'.trans hback) hz (by simp)).eq_of_length (by simp)
        have hname := (List.append_singleton_inj.1 hsame).2
        exact hnotin (List.mem_map.2 ⟨e', he', hname⟩)
      · rw [List.exists_mem_cons_iff, or_and_right]
      · rw [kept_append]
        exact (hfirst w hroot hfilter s hs).andThen (hothers w hroot hfilter)

theorem surveys_level (hD : ∀ y n, sc.Directory y → D' y → D (y ++ [n])) :
    Surveys sc holds D' fun w => w.level host (search w) := by
  intro y hy hDy
  obtain ⟨es, hes, hnodup⟩ := hopen.shown y hy
  have hshort := Path.length_lt_of_refusal?_eq_none (hopen.looked y hy)
  let shown := es.filter fun e => sc.filter.allows (.ofNames (y ++ [e.name]))
  have hshown : ∀ e ∈ shown, e ∈ es ∧ sc.filter.allows (.ofNames (y ++ [e.name])) = true :=
    fun e he => List.mem_filter.1 he
  obtain ⟨vs, hvs, hlists⟩ := surveys_gather h hopen hsearch hy hes (fun n => hD y n hy hDy) hshown
    (hnodup.sublist (List.filter_sublist.map _))
  refine ⟨vs, hvs.congr fun z m => ?_, fun w hroot hfilter s hs => ?_⟩
  · constructor
    · rintro ⟨⟨e, -, hz⟩, hm⟩
      refine ⟨(List.prefix_append _ _).trans hz, ?_, hm⟩
      rintro rfl
      have hlength := hz.length_le
      simp at hlength
    · rintro ⟨⟨rest, rfl⟩, hne, hm⟩
      cases rest with
      | nil => exact absurd (List.append_nil y) hne
      | cons n rest =>
          have hz : y ++ [n] <+: y ++ n :: rest := ⟨rest, by simp⟩
          obtain ⟨k, hallows, es, e, hes', he, rfl, -⟩ : ∃ k, sc.Shows y n k := by
            rcases (hm.cases hz).2 with ⟨-, hs⟩ | ⟨-, -, k, hk, -⟩
            · exact ⟨m, hs⟩
            · exact ⟨k, hk⟩
          obtain rfl := Except.ok.inj (hes.symm.trans hes')
          exact ⟨⟨e, List.mem_filter.2 ⟨he, hallows⟩, hz⟩, hm⟩
  · refine lists_level h hshort hes ?_ hs
    have hobs : (es.filter fun e =>
        w.filter.allows (relativeTo w.root ((sc.root.below y).child e.name))) = shown := by
      refine List.filter_congr fun e _ => ?_
      rw [hroot, ← Path.below_concat, relativeTo_below, hfilter]
    rw [hobs]
    exact hlists w hroot hfilter

end Open

variable (h : host.Displays sc holds) (hopen : sc.Open)
include h hopen

/-- The room is never used up in an observable directory, as its path can be looked up. -/
theorem surveys_below (room : Nat) :
    Surveys sc holds (fun y => Path.limit ≤ room + (sc.root.below y).text.length)
      fun w => w.below host room := by
  induction room with
  | zero =>
      intro y hy hfull
      have hshort := Path.length_lt_of_refusal?_eq_none (hopen.looked y hy)
      omega
  | succ room ih =>
      refine surveys_level h hopen ih ?_
      intro y n hy hroom
      have hgrows := Path.length_lt_child (sc.root.below y) n
      rw [Path.below_concat]
      omega

/-- A walk enumerates everything that is shown below its root. It yields of this what its options
say, with or without the root before it. -/
theorem exists_enumeration : ∃ (first : Visit) (vs : List Visit),
    first.path = sc.root ∧ first.relative = ⟨[]⟩ ∧ first.isDirectory = true ∧
      sc.Enumerates sc.ShowsAt vs ∧
        ∀ (only rooted : Bool) s, holds s →
          ((⟨sc.root, sc.filter, only, rooted⟩ : Walk).run host s).1 =
            let all := if rooted then first :: vs else vs
            if only then all.filter (·.isDirectory) else all := by
  obtain ⟨m, hm, hd⟩ := hopen.found [] .root
  obtain ⟨vs, hvs, hlists⟩ := surveys_below h hopen (Path.limit - sc.root.text.length) [] .root
    (Nat.le_add_of_sub_le le_rfl)
  let first : Visit := ⟨sc.root, ⟨[]⟩, true, m.modified⟩
  refine ⟨first, vs, rfl, rfl, rfl, hvs.congr fun z k => ?_, fun only rooted s hs => ?_⟩
  · refine ⟨fun hz => hz.2.2, fun hz => ⟨List.nil_prefix, ?_, hz⟩⟩
    rintro rfl
    obtain ⟨y, n, hz, -⟩ := hz
    simp at hz
  let w : Walk := ⟨sc.root, sc.filter, only, rooted⟩
  have hfirst : w.visit sc.root true (sc.metadata sc.root) = first := by
    rw [visit, show sc.metadata sc.root = .ok m from hm,
      show relativeTo w.root sc.root = ⟨[]⟩ from relativeTo_below sc.root []]
    rfl
  have hms := (h.metadata sc.root s hs).2
  rw [run, traverse, entrance_of_directory h rfl hm hd hs]
  cases rooted with
  | false => exact (hlists w rfl rfl _ hms).collect_eq
  | true =>
      have hoffer := lists_offer h w sc.root true hms
      rw [hfirst] at hoffer
      have hall := hoffer.andThen (hlists w rfl rfl)
      rw [← kept_append] at hall
      exact hall.collect_eq

/-- A walk visits everything that is shown below its root. -/
theorem enumerates_run {s : σ} (hs : holds s) :
    sc.Enumerates sc.ShowsAt ((⟨sc.root, sc.filter, false, false⟩ : Walk).run host s).1 := by
  obtain ⟨_, vs, -, -, -, hvs, hrun⟩ := exists_enumeration h hopen
  rw [hrun false false s hs]
  exact hvs

end Walk

end DirWatch
