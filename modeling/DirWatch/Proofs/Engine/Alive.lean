import DirWatch.Proofs.Engine.Effects

/-! # Watches that are kept alive

Steps of passes take the watch of a place away when they drop what is registered there, and place
one when they register something. As long as no directory is registered at two places, the watch of
every registered directory stays alive. -/

namespace DirWatch

variable {σ : Type} {host : Host σ} {sc : Scene} {holds : σ → Prop}
  {watched : σ → Set (List Component)} {alive : σ → List Component → Option Identity}

theorem update_eq_some_iff {α β : Type} [DecidableEq α] {f : α → Option β} {a x : α} {o : Option β}
    {b : β} : Function.update f a o x = some b ↔ x = a ∧ o = some b ∨ x ≠ a ∧ f x = some b := by
  rw [Function.update_apply]
  split <;> simp [*]

namespace Engine

variable {h : host.Steady sc holds watched} {In : List Name → Prop} {s s' s'' : Engine σ}
  {y : List Name} {lost : Identity → Prop}

/-! ## What steps do to watches -/

/-- Steps wrote some actions down. A place that is no longer registered as it was lost its watch,
and one that is registered as it was not got one, on the directory that stands there. -/
structure Traced (sc : Scene) (In : List Name → Prop) (s s' : Engine σ) (new : List Action) :
    Prop where
  journal : s'.registry.journal = s.registry.journal ++ new
  left : ∀ x i, s.recorded x = some i → s'.recorded x ≠ some i → Unwatches sc.root x new
  came : ∀ x i, s'.recorded x = some i → s.recorded x ≠ some i →
    sc.Listed x ∧ sc.identity x = some i ∧ Watches sc.root x new
  watches : ∀ x, Watches sc.root x new → In x

namespace Traced

variable {In' : List Name → Prop} {new more : List Action}

theorem refl (sc : Scene) (In : List Name → Prop) (s : Engine σ) : Traced sc In s s [] where
  journal := (List.append_nil _).symm
  left _ _ hi hne := absurd hi hne
  came _ _ hi hne := absurd hi hne
  watches x := by simp [Watches]

theorem mono (ht : Traced sc In s s' new) (hin : ∀ x, In x → In' x) : Traced sc In' s s' new where
  journal := ht.journal
  left := ht.left
  came := ht.came
  watches x hx := hin x (ht.watches x hx)

theorem trans (ht : Traced sc In s s' new) (ht' : Traced sc In s' s'' more) :
    Traced sc In s s'' (new ++ more) where
  journal := by rw [ht'.journal, ht.journal, List.append_assoc]
  left x i hi hne := by
    rw [unwatches_append]
    by_cases hx : s'.recorded x = some i
    · exact .inr (ht'.left x i hx hne)
    · exact .inl (ht.left x i hi hx)
  came x i hi hne := by
    rw [watches_append]
    by_cases hx : s'.recorded x = some i
    · obtain ⟨hl, hid, hw⟩ := ht.came x i hx hne
      exact ⟨hl, hid, .inl hw⟩
    · obtain ⟨hl, hid, hw⟩ := ht'.came x i hi hx
      exact ⟨hl, hid, .inr hw⟩
  watches x hx := (watches_append.1 hx).elim (ht.watches x) (ht'.watches x)

theorem of_idled (hi : Idled alive s s' new) : Traced sc In s s' new where
  journal := hi.journal
  left _ _ hx hne := absurd (hi.recorded ▸ hx) hne
  came _ _ hx hne := absurd (hi.recorded ▸ hx) hne
  watches x hx := absurd hx (hi.quiet _ x)

theorem of_dropped (hd : Dropped sc.root alive y s s' new) : Traced sc In s s' new where
  journal := hd.journal
  left x i hx hne := by
    rw [hd.recorded, ne_eq, update_eq_some_iff] at hne
    obtain rfl : x = y := not_not.1 fun hxy => hne (.inr ⟨hxy, hx⟩)
    exact hd.unwatches
  came x i hx hne := by
    rw [hd.recorded, update_eq_some_iff] at hx
    rcases hx with ⟨-, hx⟩ | ⟨-, hx⟩
    · cases hx
    · exact absurd hx hne
  watches x hx := absurd hx (hd.quiet _ x)

theorem of_placed (hp : Placed sc alive y s s' new) (hin : In y) (hl : sc.Listed y) :
    Traced sc In s s' new where
  journal := hp.journal
  left x i hx hne := by
    rw [hp.recorded, ne_eq, update_eq_some_iff] at hne
    obtain rfl : x = y := not_not.1 fun hxy => hne (.inr ⟨hxy, hx⟩)
    cases hp.unregistered.symm.trans hx
  came x i hx hne := by
    rw [hp.recorded, update_eq_some_iff] at hx
    rcases hx with ⟨rfl, hx⟩ | ⟨-, hx⟩
    · exact ⟨hl, hx, (hp.watches x).2 rfl⟩
    · exact absurd hx hne
  watches x hx := (hp.watches x).1 hx ▸ hin

end Traced

namespace Recognized

variable {new : List Action}

theorem idled (hs : s.Recognized) (hi : Idled alive s s' new) : s'.Recognized := by
  intro x hx
  rw [hi.recorded]
  exact hs x fun hn => hx ((hi.registered x).2 hn)

theorem dropped {root : Path} (hs : s.Recognized) (hd : Dropped root alive y s s' new) :
    s'.Recognized := by
  intro x hx
  obtain ⟨hxy, hreg⟩ := hd.registered x hx
  rw [hd.recorded, Function.update_of_ne hxy]
  exact hs x hreg

theorem placed (hs : s.Recognized) (hp : Placed sc alive y s s' new) (hid : sc.identity y ≠ none) :
    s'.Recognized := by
  intro x hx
  rw [hp.recorded]
  by_cases hxy : x = y
  · rw [hxy, Function.update_self]
    exact hid
  · rw [Function.update_of_ne hxy]
    exact hs x fun hn => hx ((hp.registered x hxy).2 hn)

end Recognized

theorem Effect.recognized (hid : sc.Identified) (he : Effect sc alive In s s')
    (hs : s.Recognized) : s'.Recognized := by
  cases he with
  | idled h => exact hs.idled h
  | dropped h => exact hs.dropped h
  | placed within listed h => exact hs.placed h (hid.known _ listed)
  | replaced within listed h h' => exact (hs.dropped h).placed h' (hid.known _ listed)

theorem Effect.traced (he : Effect sc alive In s s') : ∃ new, Traced sc In s s' new := by
  cases he with
  | idled h => exact ⟨_, .of_idled h⟩
  | dropped h => exact ⟨_, .of_dropped h⟩
  | placed within listed h => exact ⟨_, .of_placed h within listed⟩
  | replaced within listed h h' =>
      exact ⟨_, (Traced.of_dropped h).trans (.of_placed h' within listed)⟩

/-- Every registered directory has an identity that no other one is registered with, and its watch
is alive on that directory, unless it is one of those that have lost theirs. -/
structure Tended (alive : σ → List Component → Option Identity) (lost : Identity → Prop)
    (s : Engine σ) : Prop where
  recognized : s.Recognized
  apart : ∀ x y i, s.recorded x = some i → s.recorded y = some i → x = y
  guarded : ∀ x i, s.recorded x = some i →
    s.guarding alive x = some i ∨ lost i ∧ s.guarding alive x = none

namespace Tended

variable {new : List Action}

theorem idled (ht : Tended alive lost s) (hi : Idled alive s s' new) : Tended alive lost s' where
  recognized := ht.recognized.idled hi
  apart x y i hx hy := by
    rw [hi.recorded] at hx hy
    exact ht.apart x y i hx hy
  guarded x i hx := by
    rw [hi.recorded] at hx
    rw [hi.guarding]
    exact ht.guarded x i hx

/-- Dropping a directory ends no other watch. -/
theorem dropped {root : Path} (ht : Tended alive lost s) (hd : Dropped root alive y s s' new) :
    Tended alive lost s' where
  recognized := ht.recognized.dropped hd
  apart x z i hx hz := by
    rw [hd.recorded, update_eq_some_iff] at hx hz
    simp only [reduceCtorEq, and_false, false_or] at hx hz
    exact ht.apart x z i hx.2 hz.2
  guarded x i hx := by
    rw [hd.recorded, update_eq_some_iff] at hx
    simp only [reduceCtorEq, and_false, false_or] at hx
    obtain ⟨hxy, hx⟩ := hx
    rw [hd.guarding]
    rcases ht.guarded x i hx with hg | ⟨hl, hg⟩
    · left
      rw [hg, if_neg]
      intro he
      obtain ⟨j, hj⟩ := Option.ne_none_iff_exists'.1 (ht.recognized y hd.there)
      rcases ht.guarded y j hj with hy | ⟨-, hy⟩ <;> rw [hy] at he
      · exact hxy (ht.apart x y i hx (hj.trans he.symm))
      · cases he
    · right
      rw [hg, ite_self]
      exact ⟨hl, rfl⟩

/-- Registering a directory under one more place breaks this, and registering another does not. -/
theorem placed (ht : Tended alive lost s) (hp : Placed sc alive y s s' new)
    (hid : sc.identity y ≠ none) (hnew : ∀ x, s.recorded x = sc.identity y → x = y) :
    Tended alive lost s' where
  recognized := ht.recognized.placed hp hid
  apart x z i hx hz := by
    rw [hp.recorded, update_eq_some_iff] at hx hz
    rcases hx with ⟨rfl, hx⟩ | ⟨hxy, hx⟩ <;> rcases hz with ⟨rfl, hz⟩ | ⟨hzy, hz⟩
    · rfl
    · exact (hnew z (hz.trans hx.symm)).symm
    · exact hnew x (hx.trans hz.symm)
    · exact ht.apart x z i hx hz
  guarded x i hx := by
    rw [hp.recorded, update_eq_some_iff] at hx
    rw [hp.guarding]
    rcases hx with ⟨rfl, hx⟩ | ⟨hxy, hx⟩
    · exact .inl ((Function.update_self ..).trans hx)
    · rw [Function.update_of_ne hxy]
      exact ht.guarded x i hx

theorem effect (ht : Tended alive lost s) (hid : sc.Identified) (he : Effect sc alive In s s')
    (hnew : ∀ x y, In y → sc.Listed y → s.recorded x = sc.identity y → x = y) :
    Tended alive lost s' := by
  cases he with
  | idled h => exact ht.idled h
  | dropped h => exact ht.dropped h
  | placed within listed h =>
      exact ht.placed h (hid.known _ listed) fun x hx => hnew x _ within listed hx
  | @replaced y t new more within listed h h' =>
      refine (ht.dropped h).placed h' (hid.known _ listed) fun x hx => ?_
      obtain ⟨i, hi⟩ := Option.ne_none_iff_exists'.1 (hid.known _ listed)
      rw [hi, h.recorded, update_eq_some_iff] at hx
      rcases hx with ⟨hxy, -⟩ | ⟨-, hx⟩
      · exact hxy
      · exact hnew x y within listed (hx.trans hi.symm)

end Tended

/-- Two places share the watch of one directory, or the second one has lost it. -/
def SharedOrLost (alive : σ → List Component → Option Identity) (x y : List Name) (i : Identity)
    (s : Engine σ) : Prop :=
  s.guarding alive y = none ∨
    s.recorded x = some i ∧ s.guarding alive x = some i ∧ s.guarding alive y = some i

namespace SharedOrLost

variable {new : List Action} {x z : List Name} {i : Identity}

theorem idled (hx : SharedOrLost alive x y i s) (hi : Idled alive s s' new) :
    SharedOrLost alive x y i s' := by
  rw [SharedOrLost, hi.guarding, hi.recorded]
  exact hx

/-- Whatever is dropped, both places lose the watch or neither does. -/
theorem dropped {root : Path} (hx : SharedOrLost alive x y i s)
    (hd : Dropped root alive z s s' new) : SharedOrLost alive x y i s' := by
  rw [SharedOrLost, hd.guarding, hd.guarding, hd.recorded]
  rcases hx with hx | ⟨hrec, hgx, hgy⟩
  · left
    rw [hx, ite_self]
  · by_cases hz : s.guarding alive z = some i
    · left
      rw [hgy, hz, if_pos rfl]
    · right
      have hxz : x ≠ z := fun he => hz (he ▸ hgx)
      rw [hgx, hgy, if_neg fun he => hz he.symm]
      exact ⟨(Function.update_of_ne hxz ..).trans hrec, rfl, rfl⟩

theorem placed (hx : SharedOrLost alive x y i s) (hp : Placed sc alive z s s' new) (hy : y ≠ z) :
    SharedOrLost alive x y i s' := by
  rw [SharedOrLost, hp.guarding, hp.recorded, Function.update_of_ne hy]
  rcases hx with hx | ⟨hrec, hgx, hgy⟩
  · exact .inl hx
  · right
    have hxz : x ≠ z := by
      rintro rfl
      cases hp.unregistered.symm.trans hrec
    rw [Function.update_of_ne hxz, Function.update_of_ne hxz]
    exact ⟨hrec, hgx, hgy⟩

theorem effect (hx : SharedOrLost alive x y i s) (he : Effect sc alive In s s') (hy : ¬ In y) :
    SharedOrLost alive x y i s' := by
  have hne : ∀ z, In z → y ≠ z := fun z hz he => hy (he ▸ hz)
  cases he with
  | idled h => exact hx.idled h
  | dropped h => exact hx.dropped h
  | placed within listed h => exact hx.placed h (hne _ within)
  | replaced within listed h h' => exact (hx.dropped h).placed h' (hne _ within)

end SharedOrLost

/-! ## Runs -/

section Runs

variable (hn : host.SharesWatches sc alive) (hid : sc.Identified)
include hn hid

theorem Steps.traced (hsteps : Steps h In s s') (hs : h.laws.Fits s.registry) (hi : s.Recognized) :
    h.laws.Fits s'.registry ∧ s'.Recognized ∧ ∃ new, Traced sc In s s' new := by
  induction hsteps with
  | refl => exact ⟨hs, hi, [], .refl sc In s⟩
  | tail _ hstep ih =>
      obtain ⟨hs', hi', new, ht⟩ := ih
      have he := hstep.effect hn hs' hi'
      obtain ⟨more, ht'⟩ := he.traced
      exact ⟨hstep.fits hs', he.recognized hid hi', new ++ more, ht.trans ht'⟩

/-- Steps that register no directory under one more place end no watch of a registered
directory. -/
theorem Steps.tended (hsteps : Steps h In s s') (hs : h.laws.Fits s.registry)
    (ht : Tended alive lost s)
    (hnew : ∀ x y, In y → sc.Listed y → s.recorded x = sc.identity y → x = y) :
    Tended alive lost s' := by
  induction hsteps with
  | refl => exact ht
  | @tail t t' hrun hstep ih =>
      obtain ⟨hs', hi', new, htraced⟩ := Steps.traced hn hid hrun hs ht.recognized
      refine ih.effect hid (hstep.effect hn hs' hi') fun x y hy hl hx => ?_
      obtain ⟨i, hi⟩ := Option.ne_none_iff_exists'.1 (hid.known y hl)
      by_cases hold : s.recorded x = some i
      · exact hnew x y hy hl (hold.trans hi.symm)
      · obtain ⟨hlx, hix, -⟩ := htraced.came x i (hx.trans hi) hold
        exact hid.apart x y hlx hl (hix.trans hi.symm)

/-- While the second of two places that share a watch is left alone, it loses the watch when the
first one is dropped. -/
theorem Steps.sharedOrLost {x : List Name} {i : Identity} (hsteps : Steps h In s s')
    (hs : h.laws.Fits s.registry) (hi : s.Recognized) (hx : SharedOrLost alive x y i s)
    (hy : ¬ In y) : SharedOrLost alive x y i s' := by
  induction hsteps with
  | refl => exact hx
  | @tail t t' hrun hstep ih =>
      obtain ⟨hs', hi', -⟩ := Steps.traced hn hid hrun hs hi
      exact ih.effect (hstep.effect hn hs' hi') hy

end Runs

end Engine

end DirWatch
