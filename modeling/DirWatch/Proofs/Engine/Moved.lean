import DirWatch.Proofs.Engine.Alive
import DirWatch.Proofs.Engine.Invariant

/-! # Directories that were moved

A directory that was moved keeps its identity. While it is registered under its old place and under
its new one, the two share a watch, and dropping the old place ends it. So the order of a batch
matters: the old place has to be given up before a pass comes to the new one. -/

namespace DirWatch

variable {σ : Type} {host : Host σ} {sc : Scene} {holds : σ → Prop}
  {watched : σ → Set (List Component)} {alive : σ → List Component → Option Identity}
  {lost : Identity → Prop}

namespace Engine

/-- Passes over a set of places come to a place: they may register it or place its watch anew. -/
def ComesTo (sc : Scene) (s : Engine σ) (D : Set (List Name)) (y : List Name) : Prop :=
  y ∈ D ∧ s.forest y ≠ none ∨ Reaches sc s D y

/-- The directory that is registered at `x` stands at `y`. -/
structure Moved (sc : Scene) (s : Engine σ) (x y : List Name) : Prop where
  apart : x ≠ y
  listed : sc.Listed y
  identity : s.recorded x = sc.identity y

/-- A batch gives up `x` before it comes to `y`. -/
def GivenUpFirst (sc : Scene) (s : Engine σ) (batch : List Path) (x y : List Name) : Prop :=
  ∃ pre p post, batch = pre ++ p :: post ∧ sc.GivesUp (places sc.root (pre ++ [p])) x ∧
    ¬ ComesTo sc s (places sc.root pre) y ∧ ¬ Path.At sc.root p y

variable {h : host.Steady sc holds watched} {s t : Engine σ} {batch : List Path} {p : Path}
  {x y : List Name} {D D' : Set (List Name)}

theorem ComesTo.mono (hy : ComesTo sc s D y) (hD : D ⊆ D') : ComesTo sc s D' y := by
  rcases hy with ⟨hy, hreg⟩ | hy
  · exact .inl ⟨hD hy, hreg⟩
  · exact .inr (hy.mono hD)

theorem Reaches.unregistered (hy : Reaches sc s D y) (hs : Valid h.laws s) : s.forest y = none := by
  obtain ⟨-, z, -, -, n, hn, hnone⟩ := hy
  exact not_not.1 fun hreg => registered_of_isPart hs hn hreg hnone

theorem places_append (root : Path) (batch more : List Path) :
    places root (batch ++ more) = places root batch ∪ places root more := by
  ext y
  simp only [places, List.mem_append, or_and_right, exists_or]
  rfl

theorem places_singleton (root p : Path) : places root [p] = {y | Path.At root p y} := by
  ext y
  simp [places]

theorem places_subset_append (root : Path) (batch more : List Path) :
    places root batch ⊆ places root (batch ++ more) :=
  places_append root batch more ▸ Set.subset_union_left

theorem places_subset_cons (root : Path) (batch : List Path) (p : Path) (more : List Path) :
    places root (batch ++ [p]) ⊆ places root (batch ++ p :: more) := by
  rw [List.append_cons batch p more]
  exact places_subset_append _ _ _

/-- Whatever pass of the batch is next: either `x` was given up, or it will be before the watch of
`y` is placed, or the batch does not come to `y` yet. -/
theorem GivenUpFirst.cases {rest : List Path} (hg : GivenUpFirst sc s (batch ++ p :: rest) x y)
    (hy : ComesTo sc s (places sc.root (batch ++ [p])) y) :
    sc.GivesUp (places sc.root batch) x ∨
      sc.GivesUp (places sc.root (batch ++ [p])) x ∧ ¬ Path.At sc.root p y := by
  obtain ⟨pre, q, post, he, hx, hcomes, hq⟩ := hg
  rcases List.append_eq_append_iff.1 he with ⟨more, rfl, hmore⟩ | ⟨more, rfl, hmore⟩
  · cases more with
    | nil =>
        obtain ⟨rfl, -⟩ := List.cons.inj hmore
        rw [List.append_nil] at hx
        exact .inr ⟨hx, hq⟩
    | cons r more =>
        obtain ⟨rfl, -⟩ := List.cons.inj hmore
        exact absurd (hy.mono (places_subset_cons _ _ _ _)) hcomes
  · cases more with
    | nil =>
        obtain ⟨rfl, -⟩ := List.cons.inj hmore
        rw [List.append_nil]
        exact .inr ⟨hx, hq⟩
    | cons r more =>
        obtain ⟨rfl, -⟩ := List.cons.inj hmore
        exact .inl (hx.mono (places_subset_cons _ _ _ _))

/-! ## Halfway through a batch -/

/-- What passes over a batch have done so far. -/
structure Upto (h : host.Steady sc holds watched) (s : Engine σ) (batch : List Path)
    (t : Engine σ) : Prop where
  settles : Settles h (places sc.root batch) s t
  recognized : t.Recognized
  traced : ∃ new, Traced sc (ComesTo sc s (places sc.root batch)) s t new
  genuine : ∀ x, sc.GivesUp (places sc.root batch) x → Genuine sc t x

/-- What is registered as it stands stays so. -/
theorem Traced.genuine {In : List Name → Prop} {new : List Action} (ht : Traced sc In s t new)
    (hx : Genuine sc s x) : Genuine sc t x := by
  intro i hi
  by_cases hold : s.recorded x = some i
  · exact hx i hold
  · obtain ⟨hl, hid, -⟩ := ht.came x i hi hold
    exact ⟨hl, hid⟩

/-- What is registered with the identity of another place was moved there before. -/
theorem Traced.moved {In : List Name → Prop} {new : List Action} (hid : sc.Identified)
    (ht : Traced sc In s t new) (hl : sc.Listed y) (hx : t.recorded x = sc.identity y)
    (hxy : x ≠ y) : Moved sc s x y ∧ ¬ Genuine sc t x := by
  obtain ⟨i, hi⟩ := Option.ne_none_iff_exists'.1 (hid.known y hl)
  have helsewhere : ¬ (sc.Listed x ∧ sc.identity x = some i) :=
    fun ⟨hlx, hix⟩ => hxy (hid.apart x y hlx hl (hix.trans hi.symm))
  refine ⟨⟨hxy, hl, ?_⟩, fun hg => helsewhere (hg i (hx.trans hi))⟩
  by_contra hne
  obtain ⟨hlx, hix, -⟩ := ht.came x i (hx.trans hi) (hi ▸ hne)
  exact helsewhere ⟨hlx, hix⟩

namespace Upto

theorem start (hs : Valid h.laws s) (hi : s.Recognized) : Upto h s [] s where
  settles := by
    have hnone : places sc.root [] = ∅ := by simp [places]
    exact hnone ▸ .refl hs
  recognized := hi
  traced := ⟨[], .refl _ _ _⟩
  genuine x hx := by simp [Scene.GivesUp, Scene.Loses, places] at hx

section Next

variable (hn : host.SharesWatches sc alive) (hid : sc.Identified)
  (hp : Path.Plain sc.root p) (hu : Upto h s batch t)
include hn hid hp hu

/-- The next pass goes in two halves: after the first one everything is given up that the pass gives
up, and only the second one registers directories. -/
theorem halves :
    ∃ t₁, Steps h (fun y => Path.At sc.root p y ∧
        ComesTo sc s (places sc.root (batch ++ [p])) y) t t₁ ∧
      (∀ x, sc.GivesUp (places sc.root (batch ++ [p])) x → Genuine sc t₁ x) ∧
      Steps h (ComesTo sc s (places sc.root (batch ++ [p]))) t₁ (t.diff host p).2 := by
  obtain ⟨t₁, hfirst, hgenuine, hsecond⟩ := steps_step hu.settles.valid hp
  obtain ⟨-, -, new, htraced⟩ := hfirst.traced hn hid hu.settles.valid.fits hu.recognized
  rw [places_append, places_singleton]
  refine ⟨t₁, hfirst.mono ?_, fun x hx => ?_, hsecond.mono ?_⟩
  · rintro y ⟨hy, hreg⟩
    refine ⟨hy, ?_⟩
    rcases hu.settles.of_registered hreg with hreg | hreach
    · exact .inl ⟨.inr hy, hreg⟩
    · exact .inr (hreach.mono Set.subset_union_left)
  · rcases Scene.givesUp_union.1 hx with hx | hx
    · exact htraced.genuine (hu.genuine x hx)
    · exact hgenuine x hx
  · intro y hy
    by_cases hbefore : Reaches sc s (places sc.root batch) y
    · exact .inr (hbefore.mono Set.subset_union_left)
    · exact .inr ((reaches_union hu.settles hbefore).2 hy)

theorem concat : Upto h s (batch ++ [p]) (t.diff host p).2 := by
  obtain ⟨t₁, hfirst, hgenuine, hsecond⟩ := hu.halves hn hid hp
  obtain ⟨hf₁, hi₁, new, htraced⟩ := hfirst.traced hn hid hu.settles.valid.fits hu.recognized
  obtain ⟨hf₂, hi₂, more, htraced'⟩ := hsecond.traced hn hid hf₁ hi₁
  obtain ⟨-, -, hset, -⟩ := settles_step hu.settles.valid hp
  obtain ⟨old, hold⟩ := hu.traced
  refine ⟨?_, hi₂, ⟨old ++ (new ++ more), ?_⟩, fun x hx => htraced'.genuine (hgenuine x hx)⟩
  · rw [places_append, places_singleton]
    exact hu.settles.trans hset
  · refine (hold.mono fun x hx => hx.mono (places_subset_append _ _ _)).trans ?_
    exact (htraced.mono fun x hx => hx.2).trans htraced'

/-- The next pass tends the watches, if it comes to no new place of a directory before the old one
is given up. -/
theorem tended (ht : Tended alive lost t)
    (hg : ∀ x y, Moved sc s x y → ComesTo sc s (places sc.root (batch ++ [p])) y →
      sc.GivesUp (places sc.root batch) x ∨
        sc.GivesUp (places sc.root (batch ++ [p])) x ∧ ¬ Path.At sc.root p y) :
    Tended alive lost (t.diff host p).2 := by
  obtain ⟨t₁, hfirst, hgenuine, hsecond⟩ := hu.halves hn hid hp
  obtain ⟨hf₁, -, new, hnew⟩ := hfirst.traced hn hid hu.settles.valid.fits hu.recognized
  obtain ⟨old, hold⟩ := hu.traced
  have hold' : Traced sc (fun _ => True) s t₁ (old ++ new) :=
    (hold.mono fun _ _ => trivial).trans (hnew.mono fun _ _ => trivial)
  have ht₁ : Tended alive lost t₁ := by
    refine hfirst.tended hn hid hu.settles.valid.fits ht fun x y hy hl hx => ?_
    by_contra hxy
    obtain ⟨hm, hfalse⟩ := hold.moved hid hl hx hxy
    rcases hg x y hm hy.2 with hx | ⟨-, hq⟩
    · exact hfalse (hu.genuine x hx)
    · exact hq hy.1
  refine hsecond.tended hn hid hf₁ ht₁ fun x y hy hl hx => ?_
  by_contra hxy
  obtain ⟨hm, hfalse⟩ := hold'.moved hid hl hx hxy
  refine hfalse (hgenuine x ?_)
  rcases hg x y hm hy with hx | ⟨hx, -⟩
  · exact hx.mono (places_subset_append _ _ _)
  · exact hx

end Next

end Upto

/-! ## Batches -/

/-- What a batch comes to is registered as it stands. -/
theorem recorded_of_comesTo (hs : Valid h.laws s)
    (hp : ∀ p ∈ batch, Path.Plain sc.root p) (hy : sc.Stands y)
    (hc : ComesTo sc s (places sc.root batch) y) :
    (inTurn (diff host) batch s).2.recorded y = sc.identity y := by
  obtain ⟨es, -, hset, -⟩ := settles_inTurn hs hp
  have hcell := hset.cells y
  have hdirectory : ((inTurn (diff host) batch s).2.cell watched y).UpToDate (sc.listing y) := by
    generalize (inTurn (diff host) batch s).2.cell watched y = c at hcell
    cases hcell with
    | emptied registered lost => exact absurd hy (lost.not_stands h.readable)
    | renewed registered there visited listed hren => exact hren.toUpToDate
    | filled unregistered reached hfill => exact hfill.toUpToDate
    | same registered unregistered =>
        rcases hc with ⟨hmem, hreg⟩ | hreach
        · exact absurd ⟨hmem, hy.listed h.readable⟩ (registered hreg).2
        · exact absurd hreach (unregistered (hreach.unregistered hs))
  obtain ⟨d, hd, hholds⟩ := hdirectory.directory
  rw [recorded, show Engine.forest _ y = some d from hd]
  exact hholds.identity

section Batch

variable (hn : host.SharesWatches sc alive) (hid : sc.Identified)
include hn hid

theorem upto_inTurn (hs : Valid h.laws s) (hi : s.Recognized)
    (hp : ∀ p ∈ batch, Path.Plain sc.root p) :
    (inTurn (diff host) batch s).1 = .ok () ∧ Upto h s batch (inTurn (diff host) batch s).2 := by
  induction batch using List.reverseRecOn with
  | nil => exact ⟨rfl, .start hs hi⟩
  | append_singleton batch p ih =>
      obtain ⟨hok, hu⟩ := ih fun q hq => hp q (List.mem_append_left _ hq)
      have hp := hp p (List.mem_append_right _ (List.mem_singleton_self p))
      obtain ⟨-, hok', -⟩ := settles_step hu.settles.valid hp
      rw [inTurn_append hok, inTurn_singleton]
      exact ⟨hok', hu.concat hn hid hp⟩

/-- Where the batch gives up `x` first, the watch of `x` is taken away before any watch of `y` is
placed. -/
theorem unwatched_of_givenUpFirst (hs : Valid h.laws s) (hi : s.Recognized)
    (hp : ∀ p ∈ batch, Path.Plain sc.root p) (hm : Moved sc s x y)
    (hnew : s.recorded y ≠ sc.identity y)
    (hy : (inTurn (diff host) batch s).2.recorded y = sc.identity y)
    (hg : GivenUpFirst sc s batch x y) :
    ∃ before after, (inTurn (diff host) batch s).2.registry.journal =
        s.registry.journal ++ (before ++ after) ∧
      Unwatches sc.root x before ∧ ¬ Watches sc.root y before ∧ Watches sc.root y after := by
  obtain ⟨pre, p, post, rfl, hx, hcomes, hq⟩ := hg
  obtain ⟨hpre, hpost⟩ := List.forall_mem_append.1 hp
  obtain ⟨hpp, hpost⟩ := List.forall_mem_cons.1 hpost
  obtain ⟨hok, hu⟩ := upto_inTurn hn hid hs hi hpre
  obtain ⟨t₁, hfirst, hgenuine, hsecond⟩ := hu.halves hn hid hpp
  have hu' := hu.concat hn hid hpp
  obtain ⟨-, hrest⟩ := upto_inTurn hn hid hu'.settles.valid hu'.recognized hpost
  have hend : (inTurn (diff host) (pre ++ p :: post) s).2 =
      (inTurn (diff host) post ((inTurn (diff host) pre s).2.diff host p).2).2 := by
    have hstart := List.forall_mem_append.2 ⟨hpre, List.forall_mem_singleton.2 hpp⟩
    obtain ⟨hok', -⟩ := upto_inTurn hn hid hs hi hstart
    rw [List.append_cons, inTurn_append hok', inTurn_append hok, inTurn_singleton]
  rw [hend] at hy ⊢
  -- the journal up to the end of the first half of the pass, and the rest
  obtain ⟨hf₁, hi₁, new, hnew₁⟩ := hfirst.traced hn hid hu.settles.valid.fits hu.recognized
  obtain ⟨-, -, more, hmore⟩ := hsecond.traced hn hid hf₁ hi₁
  obtain ⟨old, hold⟩ := hu.traced
  obtain ⟨last, hlast⟩ := hrest.traced
  have hbefore : Traced sc (fun _ => True) s t₁ (old ++ new) :=
    (hold.mono fun _ _ => trivial).trans (hnew₁.mono fun _ _ => trivial)
  have hafter : Traced sc (fun _ => True) t₁ _ (more ++ last) :=
    (hmore.mono fun _ _ => trivial).trans (hlast.mono fun _ _ => trivial)
  have hall := hbefore.trans hafter
  obtain ⟨i, hi⟩ := Option.ne_none_iff_exists'.1 (hid.known y hm.listed)
  have hunwatched : ¬ Watches sc.root y (old ++ new) := by
    rw [watches_append]
    rintro (hw | hw)
    · exact hcomes (hold.watches y hw)
    · exact hq (hnew₁.watches y hw).1
  refine ⟨old ++ new, more ++ last, hall.journal, ?_, hunwatched, ?_⟩
  · refine hbefore.left x i (hm.identity.trans hi) fun hxi => ?_
    obtain ⟨hlx, hix⟩ := hgenuine x hx i hxi
    exact hm.apart (hid.apart x y hlx hm.listed (hix.trans hi.symm))
  · obtain ⟨-, -, hw⟩ := hall.came y i (hy.trans hi) (hi ▸ hnew)
    exact (watches_append.1 hw).resolve_left hunwatched

/-- What every pass of a batch keeps, the batch keeps. -/
theorem inTurn_keeps {P : Engine σ → Prop} (hs : Valid h.laws s) (hi : s.Recognized)
    (hp : ∀ p ∈ batch, Path.Plain sc.root p) (hstart : P s)
    (hnext : ∀ pre p rest t, batch = pre ++ p :: rest → Upto h s pre t → P t →
      P (t.diff host p).2) :
    P (inTurn (diff host) batch s).2 := by
  suffices hpre : ∀ pre rest, batch = pre ++ rest → P (inTurn (diff host) pre s).2 from
    hpre batch [] (List.append_nil batch).symm
  intro pre
  induction pre using List.reverseRecOn with
  | nil => exact fun _ _ => hstart
  | append_singleton pre p ih =>
      intro rest he
      rw [← List.append_cons] at he
      obtain ⟨hok, hu⟩ := upto_inTurn hn hid hs hi
        fun q hq => hp q (he ▸ List.mem_append_left _ hq)
      rw [inTurn_append hok, inTurn_singleton]
      exact hnext pre p rest _ he hu (ih (p :: rest) he)

/-- A batch that leaves `y` alone and gives up `x` takes the watch from both. -/
theorem lost_of_givesUp {i : Identity} (hs : Valid h.laws s) (hi : s.Recognized)
    (hp : ∀ p ∈ batch, Path.Plain sc.root p)
    (hx : SharedOrLost alive x y i s) (hy : ¬ ComesTo sc s (places sc.root batch) y)
    (hg : sc.GivesUp (places sc.root batch) x) (hne : ¬ (sc.Listed x ∧ sc.identity x = some i)) :
    (inTurn (diff host) batch s).2.guarding alive y = none := by
  have hend : SharedOrLost alive x y i (inTurn (diff host) batch s).2 := by
    refine inTurn_keeps hn hid hs hi hp hx ?_
    rintro pre p rest t rfl hu ht
    have hy' : ¬ ComesTo sc s (places sc.root (pre ++ [p])) y :=
      fun hc => hy (hc.mono (places_subset_cons _ _ _ _))
    have hpp := hp p (List.mem_append_right _ List.mem_cons_self)
    obtain ⟨t₁, hfirst, -, hsecond⟩ := hu.halves hn hid hpp
    have hf := hu.settles.valid.fits
    obtain ⟨hf₁, hi₁, -⟩ := hfirst.traced hn hid hf hu.recognized
    have ht₁ := hfirst.sharedOrLost hn hid hf hu.recognized ht fun hc => hy' hc.2
    exact hsecond.sharedOrLost hn hid hf₁ hi₁ ht₁ hy'
  obtain ⟨-, hu⟩ := upto_inTurn hn hid hs hi hp
  exact hend.resolve_right fun hshared => hne (hu.genuine x hg i hshared.1)

/-- A batch that gives up every moved directory before it comes to its new place tends the
watches. -/
theorem tended_of_givenUpFirst (hs : Valid h.laws s) (ht : Tended alive lost s)
    (hp : ∀ p ∈ batch, Path.Plain sc.root p)
    (hg : ∀ x y, Moved sc s x y → ComesTo sc s (places sc.root batch) y →
      GivenUpFirst sc s batch x y) :
    Tended alive lost (inTurn (diff host) batch s).2 := by
  refine inTurn_keeps hn hid hs ht.recognized hp ht ?_
  rintro pre p rest t rfl hu ht'
  have hpp := hp p (List.mem_append_right _ List.mem_cons_self)
  refine hu.tended hn hid hpp ht' fun x y hm hy => ?_
  exact (hg x y hm (hy.mono (places_subset_cons _ _ _ _))).cases hy

end Batch

/-! ## Renaming -/

/-- Passes come to a new child of a registered directory in a pass over that directory. -/
theorem place_of_comesTo {z : List Name} {m : Name} (hs : Valid h.laws s) (hz : s.forest z ≠ none)
    (hnew : s.forest (z ++ [m]) = none) (hy : ComesTo sc s D (z ++ [m])) :
    z ∈ D ∧ sc.Stands (z ++ [m]) := by
  rcases hy with ⟨-, hreg⟩ | ⟨hstands, w, hw, -, k, hk, hnone⟩
  · exact absurd hnew hreg
  · rcases List.prefix_concat_iff.1 hk with he | hk
    · exact ⟨(List.append_singleton_inj.1 he).1 ▸ hw, hstands⟩
    · exact absurd hnone (registered_of_isPart hs hk hz)

/-- A directory that was renamed within a registered directory is given up first, whatever the order
of the batch. -/
theorem givenUpFirst_of_rename {z : List Name} {n m : Name} (hs : Valid h.laws s)
    (hp : ∀ p ∈ batch, Path.Plain sc.root p)
    (hz : s.forest z ≠ none) (hgone : ¬ sc.Stands (z ++ [n])) (hnew : s.forest (z ++ [m]) = none)
    (hy : ComesTo sc s (places sc.root batch) (z ++ [m])) :
    GivenUpFirst sc s batch (z ++ [n]) (z ++ [m]) := by
  obtain ⟨⟨p, hmem, hat⟩, hstands⟩ := place_of_comesTo hs hz hnew hy
  obtain ⟨pre, post, rfl, hfirst⟩ := List.eq_append_cons_of_mem hmem
  have hl : sc.Listed z := hstands.parent.listed h.readable
  have hvisited : z ∈ places sc.root (pre ++ [p]) :=
    ⟨p, List.mem_append_right _ (List.mem_singleton_self p), hat⟩
  refine ⟨pre, p, post, rfl, .inl ⟨z, hvisited, .inr ⟨hl, n, List.prefix_rfl, hgone⟩⟩,
    fun hc => ?_, fun hq => ?_⟩
  · obtain ⟨⟨q, hq, hqz⟩, -⟩ := place_of_comesTo hs hz hnew hc
    obtain rfl : q = p := (hp q (List.mem_append_left _ hq) z hqz).trans (hp p hmem z hat).symm
    exact hfirst hq
  · simpa using hat.unique hq

/-! ## Moved directories keep their watches -/

/-- A directory that was registered at one place before a batch and is registered at another one
afterwards loses its old watch before it gets the new one, if the batch gives the old place up
first. If it does so with every directory that was moved, then every registered directory has its
watch afterwards, on the directory that it is registered as, unless it had lost it before. -/
theorem moved_keeps_watch (h : host.Steady sc holds watched) (hn : host.SharesWatches sc alive)
    (hid : sc.Identified) {batch : List Path} {s : Engine σ}
    (hplain : ∀ p ∈ batch, Path.Plain sc.root p)
    (ha : s.registry.Anchored) (hr : s.registry.root = sc.root) (hf : s.registry.filter = sc.filter)
    (hm : holds s.registry.machine)
    (hmarks : ∀ q, s.stale.contains q = true → s.registry.contains q = true)
    (ht : Tended alive lost s) :
    let r := inTurn (diff host) batch s
    r.1 = .ok () ∧
      (∀ x y i, x ≠ y → s.recorded x = some i → r.2.recorded y = some i →
        GivenUpFirst sc s batch x y →
          ∃ before after, r.2.registry.journal = s.registry.journal ++ (before ++ after) ∧
            Unwatches sc.root x before ∧ ¬ Watches sc.root y before ∧ Watches sc.root y after) ∧
      ((∀ x y, Moved sc s x y → ComesTo sc s (places sc.root batch) y →
          GivenUpFirst sc s batch x y) → Tended alive lost r.2) := by
  intro r
  have hs : Valid h.laws s := valid_of_anchored ha hr hf hm fun _ => hmarks
  obtain ⟨hok, hu⟩ := upto_inTurn hn hid hs ht.recognized hplain
  refine ⟨hok, fun x y i hxy hx hy hg => ?_, tended_of_givenUpFirst hn hid hs ht hplain⟩
  obtain ⟨new, htraced⟩ := hu.traced
  have hold : s.recorded y ≠ some i := fun hold => hxy (ht.apart x y i hx hold)
  obtain ⟨hl, hi, -⟩ := htraced.came y i hy hold
  exact unwatched_of_givenUpFirst hn hid hs ht.recognized hplain ⟨hxy, hl, hx.trans hi.symm⟩
    (hi ▸ hold) (hy.trans hi.symm) hg

/-! ## A directory that was moved up -/

/-- The watches of a machine: the paths that have one, and the directory that it is on while it is
alive. -/
structure Sentries where
  paths : OrderedMap Path Unit := ∅
  alive : List Component → Option Identity := fun _ => none

/-- A machine that shows a scene, with one watch for each directory. -/
def sharing (sc : Scene) : Host Sentries where
  metadata p m := (sc.metadata p, m)
  target p m := (sc.metadata p, m)
  canonical p m := (.ok p, m)
  readDirectory p m := (sc.readDirectory p, m)
  watch p m :=
    (.ok (),
      { paths := m.paths.insert p ()
        alive := Function.update m.alive p.components
          ((sc.metadata p).toOption.bind (·.identity)) })
  unwatch p m :=
    (.ok (),
      { paths := m.paths.erase p
        alive := fun c => if m.alive c = m.alive p.components then none else m.alive c })

theorem steady_sharing (hr : sc.Readable) :
    (sharing sc).Steady sc (fun _ => True) (fun m => m.paths.places) where
  presents :=
    { metadata := fun _ _ _ => ⟨rfl, trivial⟩
      readDirectory := fun _ _ _ => ⟨rfl, trivial⟩
      watch := fun _ _ _ => trivial
      unwatch := fun _ _ _ => trivial
      watched := fun _ _ _ _ => rfl
      notFatal := fun _ _ _ _ he => by cases he }
  keeps :=
    { metadata := fun _ _ => rfl
      target := fun _ _ => rfl
      readDirectory := fun _ _ => rfl
      placed := fun p m _ => m.paths.places_insert p ()
      refused := fun _ _ _ he => by cases he
      removed := fun p m => m.paths.places_erase p }
  readable := hr
  spare _ _ _ := rfl

theorem shares_sharing (sc : Scene) : (sharing sc).SharesWatches sc Sentries.alive where
  metadata _ _ := rfl
  readDirectory _ _ := rfl
  placed p m a ha _ := by
    change Function.update m.alive _ _ = _
    rw [ha]
    rfl
  removed _ _ _ := rfl

/-- A directory with an identity. -/
def yardDirectory (inode : Nat) : Metadata := { isDirectory := true, identity := some ⟨0, inode⟩ }

/-- The root `/r` with a directory `b`, and with a directory that stands at `b/x` until it is moved
to `a`. -/
def yardMetadata (moved : Bool) (p : Path) : Except IoFailure Metadata :=
  if p = .ofString "/r" then .ok (yardDirectory 0)
  else if p = .ofString "/r/b" then .ok (yardDirectory 1)
  else if p = .ofString (if moved then "/r/a" else "/r/b/x") then .ok (yardDirectory 2)
  else .error .notFound

def yardEntries (moved : Bool) (p : Path) : Except IoFailure (List DirectoryEntry) :=
  if p = .ofString "/r" then
    .ok ((if moved then [⟨nameA, true, .ok (yardDirectory 2)⟩] else []) ++
      [⟨nameB, true, .ok (yardDirectory 1)⟩])
  else if p = .ofString "/r/b" then
    .ok (if moved then [] else [⟨nameX, true, .ok (yardDirectory 2)⟩])
  else if p = .ofString (if moved then "/r/a" else "/r/b/x") then .ok []
  else .error .notFound

/-- What is shown before and after the move. -/
def yard (moved : Bool) : Scene where
  root := .ofString "/r"
  filter := {}
  metadata := yardMetadata moved
  readDirectory := yardEntries moved

/-- The root was registered while it was empty. -/
def fallow : Engine Sentries where
  registry :=
    { root := .ofString "/r"
      directories := (∅ : OrderedMap Path (TrackedDirectory Name)).insert (.ofString "/r")
        (.ofListing { identity := some ⟨0, 0⟩ })
      machine := ((sharing (yard false)).watch (.ofString "/r") {}).2 }

/-- A pass has registered `b` and `b/x`. -/
def tilled : Engine Sentries := (fallow.diff (sharing (yard false)) (.ofString "/r")).2

theorem below_yard : (yard true).root.below [] = .ofString "/r" ∧
    (yard true).root.below [nameA] = .ofString "/r/a" ∧
    (yard true).root.below [nameB] = .ofString "/r/b" ∧
    (yard true).root.below [nameB, nameX] = .ofString "/r/b/x" := by
  refine ⟨rfl, rfl, rfl, rfl⟩

/-- Three directories stand after the move. -/
theorem metadata_yard :
    (yard true).metadata ((yard true).root.below []) = .ok (yardDirectory 0) ∧
      (yard true).metadata ((yard true).root.below [nameA]) = .ok (yardDirectory 2) ∧
      (yard true).metadata ((yard true).root.below [nameB]) = .ok (yardDirectory 1) := by
  obtain ⟨hroot, ha, hb, -⟩ := below_yard
  rw [hroot, ha, hb]
  exact ⟨rfl, rfl, rfl⟩

theorem readDirectory_yard :
    (yard true).readDirectory ((yard true).root.below []) =
        .ok [⟨nameA, true, .ok (yardDirectory 2)⟩, ⟨nameB, true, .ok (yardDirectory 1)⟩] ∧
      (yard true).readDirectory ((yard true).root.below [nameA]) = .ok [] ∧
      (yard true).readDirectory ((yard true).root.below [nameB]) = .ok [] := by
  obtain ⟨hroot, ha, hb, -⟩ := below_yard
  rw [hroot, ha, hb]
  exact ⟨rfl, rfl, rfl⟩

/-- Nothing else is shown. -/
theorem place_of_metadata_yard {y : List Name} {m : Metadata}
    (hm : (yard true).metadata ((yard true).root.below y) = .ok m) :
    y = [] ∨ y = [nameA] ∨ y = [nameB] := by
  obtain ⟨hroot, ha, hb, -⟩ := below_yard
  have hplace : ∀ z, (yard true).root.below y = (yard true).root.below z → y = z :=
    fun z he => components_below_inj (congrArg Path.components he)
  change yardMetadata true _ = _ at hm
  unfold yardMetadata at hm
  rw [if_pos rfl, ← hroot, ← ha, ← hb] at hm
  split at hm
  · next he => exact .inl (hplace _ he)
  split at hm
  · next he => exact .inr (.inr (hplace _ he))
  split at hm
  · next he => exact .inr (.inl (hplace _ he))
  · cases hm

theorem child_of_metadata_yard {y : List Name} {n : Name} {m : Metadata}
    (hm : (yard true).metadata ((yard true).root.below (y ++ [n])) = .ok m) :
    y = [] ∧ (n = nameA ∨ n = nameB) := by
  rcases place_of_metadata_yard hm with h | h | h
  · simp at h
  · have h : y ++ [n] = [] ++ [nameA] := h
    obtain ⟨rfl, rfl⟩ := List.append_singleton_inj.1 h
    exact ⟨rfl, .inl rfl⟩
  · have h : y ++ [n] = [] ++ [nameB] := h
    obtain ⟨rfl, rfl⟩ := List.append_singleton_inj.1 h
    exact ⟨rfl, .inr rfl⟩

theorem directory_yard {y : List Name} (hy : (yard true).Directory y) :
    y = [] ∨ y = [nameA] ∨ y = [nameB] := by
  obtain ⟨hroot, ha, hb⟩ := readDirectory_yard
  induction hy with
  | root => exact .inl rfl
  | @child y n m parent shown isDirectory ih =>
      obtain ⟨-, es, e, hes, he, rfl, -⟩ := shown
      rcases ih with rfl | rfl | rfl
      · obtain rfl := Except.ok.inj (hroot.symm.trans hes)
        simp only [List.mem_cons, List.not_mem_nil, or_false] at he
        rcases he with rfl | rfl
        · exact .inr (.inl rfl)
        · exact .inr (.inr rfl)
      · obtain rfl := Except.ok.inj (ha.symm.trans hes)
        cases he
      · obtain rfl := Except.ok.inj (hb.symm.trans hes)
        cases he

theorem readable_yard : (yard true).Readable where
  linkless :=
    { parent := by
        intro y n m hm _
        obtain ⟨rfl, -⟩ := child_of_metadata_yard hm
        exact ⟨_, metadata_yard.1, rfl⟩
      entry := by
        intro y n m es hm _ hes
        obtain ⟨rfl, hn⟩ := child_of_metadata_yard hm
        obtain rfl := Except.ok.inj (readDirectory_yard.1.symm.trans hes)
        rcases hn with rfl | rfl
        · exact ⟨_, List.mem_cons_self, rfl, _, rfl, rfl⟩
        · exact ⟨_, List.mem_cons_of_mem _ (List.mem_singleton_self _), rfl, _, rfl, rfl⟩ }
  listable _ :=
    { looked := fun y hy => by
        rcases directory_yard hy with rfl | rfl | rfl <;> rfl
      found := fun y hy => by
        obtain ⟨hroot, ha, hb⟩ := metadata_yard
        rcases directory_yard hy with rfl | rfl | rfl
        · exact ⟨_, hroot, rfl⟩
        · exact ⟨_, ha, rfl⟩
        · exact ⟨_, hb, rfl⟩
      shown := fun y hy => by
        obtain ⟨hroot, ha, hb⟩ := readDirectory_yard
        rcases directory_yard hy with rfl | rfl | rfl
        · exact ⟨_, hroot, by decide⟩
        · exact ⟨_, ha, List.nodup_nil⟩
        · exact ⟨_, hb, List.nodup_nil⟩ }

theorem steady_yard : (sharing (yard true)).Steady (yard true) (fun _ => True)
    (fun m => m.paths.places) := steady_sharing readable_yard

theorem place_of_listed_yard {y : List Name} (hl : (yard true).Listed y) :
    y = [] ∨ y = [nameA] ∨ y = [nameB] := by
  obtain ⟨l, hlook⟩ := hl
  obtain ⟨-, m, hm, -⟩ := Scene.of_look_eq_ok hlook
  exact place_of_metadata_yard hm

theorem identity_yard : (yard true).identity [] = some ⟨0, 0⟩ ∧
    (yard true).identity [nameA] = some ⟨0, 2⟩ ∧ (yard true).identity [nameB] = some ⟨0, 1⟩ := by
  obtain ⟨hroot, ha, hb⟩ := metadata_yard
  exact ⟨Scene.identity_listing hroot, Scene.identity_listing ha, Scene.identity_listing hb⟩

theorem identified_yard : (yard true).Identified where
  known y hl := by
    obtain ⟨hroot, ha, hb⟩ := identity_yard
    rcases place_of_listed_yard hl with rfl | rfl | rfl
    · simp [hroot]
    · simp [ha]
    · simp [hb]
  apart y z hy hz he := by
    obtain ⟨hroot, ha, hb⟩ := identity_yard
    rcases place_of_listed_yard hy with rfl | rfl | rfl <;>
      rcases place_of_listed_yard hz with rfl | rfl | rfl <;>
        first | rfl | simp [hroot, ha, hb] at he

/-- The pass has registered three directories, each with its watch. -/
theorem state_tilled :
    (tilled.registry.root = .ofString "/r" ∧
      tilled.registry.paths = [.ofString "/r", .ofString "/r/b", .ofString "/r/b/x"]) ∧
    (tilled.recorded [] = some ⟨0, 0⟩ ∧ tilled.recorded [nameB] = some ⟨0, 1⟩ ∧
      tilled.recorded [nameB, nameX] = some ⟨0, 2⟩) ∧
    (tilled.guarding Sentries.alive [] = some ⟨0, 0⟩ ∧
      tilled.guarding Sentries.alive [nameB] = some ⟨0, 1⟩ ∧
      tilled.guarding Sentries.alive [nameB, nameX] = some ⟨0, 2⟩) := by
  decide +kernel

theorem paths_tilled : tilled.registry.paths =
    [.ofString "/r", .ofString "/r/b", .ofString "/r/b/x"] := state_tilled.1.2

/-- Nothing else is registered before the move. -/
theorem recorded_tilled {x : List Name} (hx : tilled.forest x ≠ none) :
    x = [] ∧ tilled.recorded x = some ⟨0, 0⟩ ∨ x = [nameB] ∧ tilled.recorded x = some ⟨0, 1⟩ ∨
      x = [nameB, nameX] ∧ tilled.recorded x = some ⟨0, 2⟩ := by
  obtain ⟨hroot, -, hb, hx'⟩ := below_yard
  obtain ⟨⟨hr, -⟩, ⟨hrootId, hbId, hxId⟩, -⟩ := state_tilled
  have hat : Path.At tilled.registry.root (tilled.registry.root.below x) x := Path.at_below _ _
  obtain ⟨q, hq, he⟩ := OrderedMap.contains_iff.1 ((Registry.contains_iff_forest hat).2 hx)
  have hqx := hat.of_compare_eq (Std.OrientedCmp.eq_symm he)
  change q ∈ tilled.registry.paths at hq
  rw [paths_tilled, ← hroot, ← hb, ← hx'] at hq
  rw [show tilled.registry.root = (yard true).root from hr] at hqx
  simp only [List.mem_cons, List.not_mem_nil, or_false] at hq
  rcases hq with rfl | rfl | rfl
  · obtain rfl := hqx.unique (Path.at_below _ _)
    exact .inl ⟨rfl, hrootId⟩
  · obtain rfl := hqx.unique (Path.at_below _ _)
    exact .inr (.inl ⟨rfl, hbId⟩)
  · obtain rfl := hqx.unique (Path.at_below _ _)
    exact .inr (.inr ⟨rfl, hxId⟩)

theorem tended_tilled : Tended Sentries.alive (fun _ => False) tilled where
  recognized x hx := by
    rcases recorded_tilled hx with ⟨-, h⟩ | ⟨-, h⟩ | ⟨-, h⟩ <;> simp [h]
  apart x y i hx hy := by
    rcases recorded_tilled (forest_of_recorded hx) with ⟨rfl, h⟩ | ⟨rfl, h⟩ | ⟨rfl, h⟩ <;>
      rcases recorded_tilled (forest_of_recorded hy) with ⟨rfl, h'⟩ | ⟨rfl, h'⟩ | ⟨rfl, h'⟩ <;>
        first | rfl | (cases h.symm.trans hx; cases h'.symm.trans hy)
  guarded x i hx := by
    obtain ⟨-, -, hroot, hb, hx'⟩ := state_tilled
    rw [← hx]
    left
    rcases recorded_tilled (forest_of_recorded hx) with ⟨rfl, h⟩ | ⟨rfl, h⟩ | ⟨rfl, h⟩
    · rw [h, hroot]
    · rw [h, hb]
    · rw [h, hx']

theorem valid_tilled : Valid steady_yard.laws tilled := by
  have hstart : Valid (HostLaws.any (sharing (yard false)) (.ofString "/r") {} True) fallow :=
    valid_of_anchored (anchored_start rfl) rfl rfl trivial (by simp [fallow])
  have hpass := valid_diff hstart (.ofString "/r")
  unfold tilled
  generalize (fallow.diff (sharing (yard false)) (.ofString "/r")).2 = s at hpass
  exact valid_of_anchored hpass.anchored hpass.fits.root_eq hpass.fits.filter_eq trivial
    fun _ => hpass.marked trivial

/-- Only the directory at `b/x` was moved. -/
theorem moved_tilled (hm : Moved (yard true) tilled x y) : x = [nameB, nameX] ∧ y = [nameA] := by
  obtain ⟨hroot, ha, hb⟩ := identity_yard
  obtain ⟨hxy, hl, hi⟩ := hm
  rcases place_of_listed_yard hl with rfl | rfl | rfl
  · rw [hroot] at hi
    rcases recorded_tilled (forest_of_recorded hi) with ⟨rfl, h⟩ | ⟨rfl, h⟩ | ⟨rfl, h⟩
    · exact absurd rfl hxy
    · cases h.symm.trans hi
    · cases h.symm.trans hi
  · rw [ha] at hi
    rcases recorded_tilled (forest_of_recorded hi) with ⟨rfl, h⟩ | ⟨rfl, h⟩ | ⟨rfl, h⟩
    · cases h.symm.trans hi
    · cases h.symm.trans hi
    · exact ⟨rfl, rfl⟩
  · rw [hb] at hi
    rcases recorded_tilled (forest_of_recorded hi) with ⟨rfl, h⟩ | ⟨rfl, h⟩ | ⟨rfl, h⟩
    · cases h.symm.trans hi
    · exact absurd rfl hxy
    · cases h.symm.trans hi

theorem stands_yard : (yard true).Stands [nameA] ∧ (yard true).Stands [nameB] ∧
    ¬ (yard true).Stands [nameB, nameX] := by
  have hrooted : (yard true).Rooted := ⟨_, metadata_yard.1, rfl⟩
  refine ⟨⟨hrooted, ?_⟩, ⟨hrooted, ?_⟩, fun hx => ?_⟩
  · have hshown : (yard true).Shows [] nameA (yardDirectory 2) :=
      ⟨rfl, _, _, readDirectory_yard.1, List.mem_cons_self, rfl, rfl⟩
    exact .child .root hshown rfl
  · have hshown : (yard true).Shows [] nameB (yardDirectory 1) :=
      ⟨rfl, _, _, readDirectory_yard.1,
        List.mem_cons_of_mem _ (List.mem_singleton_self _), rfl, rfl⟩
    exact .child .root hshown rfl
  · simpa [nameA, nameB] using directory_yard hx.2

/-- A batch with a pass over `b` gives up `b/x`. -/
theorem givesUp_yard (hb : .ofString "/r/b" ∈ batch) :
    (yard true).GivesUp (places (yard true).root batch) [nameB, nameX] := by
  obtain ⟨-, hstands, hgone⟩ := stands_yard
  have hl := hstands.listed readable_yard
  refine .inl ⟨[nameB], ⟨_, hb, ?_⟩, .inr ⟨hl, nameX, List.prefix_rfl, hgone⟩⟩
  rw [← below_yard.2.2.1]
  exact Path.at_below _ _

/-- A batch with a pass over the root comes to `a`. -/
theorem comesTo_yard (hr : .ofString "/r" ∈ batch) :
    ComesTo (yard true) tilled (places (yard true).root batch) [nameA] := by
  refine .inr ⟨stands_yard.1, [], ⟨_, hr, Path.at_root_iff.2 rfl⟩, ?_, nameA, List.prefix_rfl, ?_⟩
  · exact forest_of_recorded state_tilled.2.1.1
  · by_contra ha
    rcases recorded_tilled ha with ⟨h, -⟩ | ⟨h, -⟩ | ⟨h, -⟩ <;> simp [nameA, nameB] at h

theorem plain_yard (batch : List Path) (hbatch : batch ⊆ tilled.registry.paths) :
    ∀ p ∈ batch, Path.Plain (yard true).root p := by
  obtain ⟨hroot, -, hb, hx⟩ := below_yard
  intro p hp
  have hmem := hbatch hp
  rw [paths_tilled, ← hroot, ← hb, ← hx] at hmem
  simp only [List.mem_cons, List.not_mem_nil, or_false] at hmem
  rcases hmem with rfl | rfl | rfl <;> exact Path.plain_below _ _

/-- A pass over `b` gives up `b/x` before a pass over the root comes to `a`. -/
theorem moved_keeps_watch_yard :
    let r := inTurn (diff (sharing (yard true))) [.ofString "/r/b", .ofString "/r"] tilled
    r.1 = .ok () ∧ tilled.recorded [nameB, nameX] = some ⟨0, 2⟩ ∧
      r.2.recorded [nameA] = some ⟨0, 2⟩ ∧
      (∃ before after, r.2.registry.journal = tilled.registry.journal ++ (before ++ after) ∧
        Unwatches (yard true).root [nameB, nameX] before ∧
        ¬ Watches (yard true).root [nameA] before ∧ Watches (yard true).root [nameA] after) ∧
      Tended Sentries.alive (fun _ => False) r.2 := by
  have hplain : ∀ p ∈ [Path.ofString "/r/b", .ofString "/r"], Path.Plain (yard true).root p :=
    plain_yard _ (by rw [paths_tilled]; simp)
  have hfirst : GivenUpFirst (yard true) tilled [.ofString "/r/b", .ofString "/r"]
      [nameB, nameX] [nameA] := by
    refine ⟨[], _, _, rfl, givesUp_yard (by simp), ?_, fun hat => ?_⟩
    · simp [ComesTo, Reaches, places]
    · rw [← below_yard.2.2.1] at hat
      simpa [nameA, nameB] using hat.unique (Path.at_below _ _)
  obtain ⟨-, ⟨-, -, hbefore⟩, -⟩ := state_tilled
  have hafter := recorded_of_comesTo valid_tilled hplain stands_yard.1 (comesTo_yard (by simp))
  have hkeeps := moved_keeps_watch steady_yard (shares_sharing _) identified_yard
    hplain valid_tilled.anchored valid_tilled.fits.root_eq valid_tilled.fits.filter_eq trivial
    (valid_tilled.marked trivial) tended_tilled
  rw [identity_yard.2.1] at hafter
  -- what the run is plays no part in the rest
  generalize inTurn (diff (sharing (yard true))) [.ofString "/r/b", .ofString "/r"] tilled = r
    at hafter hkeeps ⊢
  obtain ⟨hok, hmoved, htended⟩ := hkeeps
  refine ⟨hok, hbefore, hafter, hmoved _ _ _ (by simp) hbefore hafter hfirst, htended ?_⟩
  intro x y hm _
  obtain ⟨rfl, rfl⟩ := moved_tilled hm
  exact hfirst

/-- A pass over the root has registered `a` on top of that. -/
def sprouted : Engine Sentries := (tilled.diff (sharing (yard true)) (.ofString "/r")).2

/-- The directory is registered at both places then, which share its watch, and no watch was taken
away yet. -/
theorem state_sprouted :
    (sprouted.recorded [nameA] = some ⟨0, 2⟩ ∧
      sprouted.recorded [nameB, nameX] = some ⟨0, 2⟩) ∧
    (sprouted.guarding Sentries.alive [nameB, nameX] = some ⟨0, 2⟩ ∧
      sprouted.guarding Sentries.alive [nameA] = some ⟨0, 2⟩) ∧
    sprouted.registry.journal.all (fun | .unwatched .. => false | _ => true) = true := by
  decide +kernel

theorem not_mem_journal_sprouted (p : Path) (result : Except Error Unit) :
    .unwatched p result ∉ sprouted.registry.journal := by
  intro hmem
  cases List.all_eq_true.1 state_sprouted.2.2 _ hmem

theorem upto_sprouted : Upto steady_yard tilled [.ofString "/r"] sprouted := by
  have hplain := plain_yard [.ofString "/r"] (by rw [paths_tilled]; simp)
  have hu := Upto.start valid_tilled tended_tilled.recognized
  exact hu.concat (shares_sharing _) identified_yard (hplain _ (List.mem_singleton_self _))

/-- Passes over the rest take the watch from both places. -/
theorem lost_sprouted :
    let r := inTurn (diff (sharing (yard true))) [.ofString "/r/b", .ofString "/r/b/x"] sprouted
    r.1 = .ok () ∧ r.2.guarding Sentries.alive [nameA] = none ∧
      ∃ more, r.2.registry.journal = sprouted.registry.journal ++ more ∧
        Unwatches (yard true).root [nameB, nameX] more := by
  have hs := upto_sprouted.settles.valid
  have hi := upto_sprouted.recognized
  have hplain : ∀ p ∈ [Path.ofString "/r/b", .ofString "/r/b/x"], ∀ y,
      Path.At (yard true).root p y → p = (yard true).root.below y :=
    plain_yard _ (by rw [paths_tilled]; simp)
  have hgives : (yard true).GivesUp
      (places (yard true).root [.ofString "/r/b", .ofString "/r/b/x"]) [nameB, nameX] :=
    givesUp_yard (by simp)
  have hgone : ¬ (yard true).Listed [nameB, nameX] := by
    intro hl
    simpa [nameA, nameB] using place_of_listed_yard hl
  obtain ⟨⟨hatA, hatX⟩, hshared, -⟩ := state_sprouted
  have halone : ¬ ComesTo (yard true) sprouted
      (places (yard true).root [.ofString "/r/b", .ofString "/r/b/x"]) [nameA] := by
    obtain ⟨-, -, hb, hx⟩ := below_yard
    rintro (⟨⟨p, hp, hat⟩, -⟩ | hreach)
    · rw [← hb, ← hx] at hp
      simp only [List.mem_cons, List.not_mem_nil, or_false] at hp
      rcases hp with rfl | rfl <;>
        simpa [nameA, nameB] using hat.unique (Path.at_below _ _)
    · exact forest_of_recorded hatA (hreach.unregistered hs)
  have hlost := lost_of_givesUp (shares_sharing _) identified_yard hs hi hplain
    (.inr ⟨hatX, hshared⟩) halone hgives fun h => hgone h.1
  obtain ⟨hok, hu⟩ := upto_inTurn (shares_sharing _) identified_yard hs hi hplain
  obtain ⟨more, htraced⟩ := hu.traced
  have hdropped := htraced.left [nameB, nameX] ⟨0, 2⟩ hatX
    fun hx => hgone (hu.genuine _ hgives _ hx).1
  exact ⟨hok, hlost, more, htraced.journal, hdropped⟩

theorem rescan_tilled : inTurn (diff (sharing (yard true))) tilled.registry.paths tilled =
    inTurn (diff (sharing (yard true))) [.ofString "/r/b", .ofString "/r/b/x"] sprouted := by
  have hplain := plain_yard [.ofString "/r"] (by rw [paths_tilled]; simp)
  obtain ⟨hok, -⟩ := upto_inTurn (shares_sharing _) identified_yard valid_tilled
    tended_tilled.recognized hplain
  rw [paths_tilled]
  refine (inTurn_append hok [.ofString "/r/b", .ofString "/r/b/x"]).trans ?_
  rw [inTurn_singleton]
  rfl

/-- A rescan comes to `a` before it gives up `b/x`, which takes the watch from both. -/
theorem lost_watch_of_rescan :
    let r := inTurn (diff (sharing (yard true))) tilled.registry.paths tilled
    (sharing (yard true)).Steady (yard true) (fun _ => True) (fun m => m.paths.places) ∧
      (sharing (yard true)).SharesWatches (yard true) Sentries.alive ∧ (yard true).Identified ∧
      tilled.registry.Anchored ∧ Tended Sentries.alive (fun _ => False) tilled ∧ r.1 = .ok () ∧
      tilled.recorded [nameB, nameX] = some ⟨0, 2⟩ ∧ r.2.recorded [nameA] = some ⟨0, 2⟩ ∧
      (∃ before after, r.2.registry.journal = tilled.registry.journal ++ (before ++ after) ∧
        Watches (yard true).root [nameA] before ∧
        ¬ Unwatches (yard true).root [nameB, nameX] before ∧
        Unwatches (yard true).root [nameB, nameX] after) ∧
      r.2.guarding Sentries.alive [nameA] = none ∧
      ¬ Tended Sentries.alive (fun _ => False) r.2 := by
  have hplain := plain_yard _ (List.Subset.refl tilled.registry.paths)
  obtain ⟨-, ⟨-, -, hbefore⟩, -⟩ := state_tilled
  have hafter := recorded_of_comesTo valid_tilled hplain stands_yard.1
    (comesTo_yard (by rw [paths_tilled]; simp))
  have hlost := lost_sprouted
  rw [identity_yard.2.1] at hafter
  rw [← rescan_tilled] at hlost
  generalize inTurn (diff (sharing (yard true))) tilled.registry.paths tilled = r at hafter hlost ⊢
  obtain ⟨hok, hnone, after, hjournal, hdropped⟩ := hlost
  obtain ⟨before, htraced⟩ := upto_sprouted.traced
  refine ⟨steady_yard, shares_sharing _, identified_yard, valid_tilled.anchored, tended_tilled,
    hok, hbefore, hafter, ⟨before, after, ?_, ?_, ?_, hdropped⟩, hnone, fun ht => ?_⟩
  · rw [hjournal, htraced.journal, List.append_assoc]
  · have hnew : tilled.recorded [nameA] ≠ some ⟨0, 2⟩ := fun ha => by
      simpa [nameA, nameB] using tended_tilled.apart _ _ _ ha hbefore
    obtain ⟨-, -, hwatched⟩ := htraced.came _ _ state_sprouted.1.1 hnew
    exact hwatched
  · rintro ⟨p, result, hmem, -⟩
    refine not_mem_journal_sprouted p result ?_
    rw [htraced.journal]
    exact List.mem_append_right _ hmem
  · have hguarded := ht.guarded [nameA] ⟨0, 2⟩ hafter
    simp [hnone] at hguarded

end Engine

end DirWatch
