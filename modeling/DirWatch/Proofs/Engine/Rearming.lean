import DirWatch.Proofs.Engine.Marks

/-! # Watches that are placed anew

A pass that obtains a listing places the watch of its directory anew if a mark is outstanding or
another directory stands in its place. It does so once, before the listing is taken over, and
touches no watch of the directory otherwise. -/

namespace DirWatch.Engine

variable {σ : Type} {host : Host σ} {s t : Engine σ} {p : Path} {prev : TrackedDirectory Name}
  {l : Listing Name} {first : List Action}

/-! ## What comes of a listing -/

/-- After its first actions a pass takes the listing of its directory over. What it does from then
on concerns paths below the directory. -/
structure TakesOver (host : Host σ) (p : Path) (prev : TrackedDirectory Name) (l : Listing Name)
    (s : Engine σ) (first : List Action) (r : Except Error Unit × Engine σ) : Prop where
  absorbed : ∃ t : Engine σ, t.registry.journal = s.registry.journal ++ first ∧
    t.registry.get? p = some prev ∧ r = t.absorb host p l
  tracked : r.2.registry.get? p = some (prev.reconcile l).2
  rest : ∃ rest, r.2.registry.journal = s.registry.journal ++ first ++ rest ∧
    ∀ a ∈ rest, a.Stays s.registry.root p.beneath p.beneath

/-- After its first actions a pass gives its directory up. What it does from then on concerns paths
below the directory, but for taking the watch away. -/
structure Abandons (p : Path) (s : Engine σ) (first : List Action)
    (r : Except Error Unit × Engine σ) : Prop where
  ok : r.1 = .ok ()
  unregistered : r.2.registry.contains p = false
  unmarked : r.2.stale.contains p = false
  rest : ∃ result rest,
    r.2.registry.journal = s.registry.journal ++ first ++ .unwatched p result :: rest ∧
      ∀ a ∈ rest, a.Stays s.registry.root p.beneath p.beneath

theorem self_not_mem_beneath (p : Path) : p.components ∉ p.beneath := fun hp => hp.2 rfl

theorem takesOver_absorb (host : Host σ) (hp : t.registry.get? p = some prev) (l : Listing Name)
    (hroot : t.registry.root = s.registry.root)
    (hjournal : t.registry.journal = s.registry.journal ++ first) :
    TakesOver host p prev l s first (t.absorb host p l) where
  absorbed := ⟨t, hjournal, hp, rfl⟩
  tracked := by
    have hout := (absorb_beneath host hp l).registry.outside p (self_not_mem_beneath p)
    refine hout.trans ((OrderedMap.get?_insert _ _ _ _).trans ?_)
    rw [if_pos Std.ReflCmp.compare_self]
  rest := by
    obtain ⟨rest, hrest, hstays⟩ := (absorb_beneath host hp l).registry.journal
    exact ⟨rest, hrest.trans (congrArg (· ++ rest) hjournal), fun a ha => hroot ▸ hstays a ha⟩

theorem abandons_retire (host : Host σ) (hp : t.registry.get? p = some prev)
    (hroot : t.registry.root = s.registry.root)
    (hjournal : t.registry.journal = s.registry.journal ++ first) :
    Abandons p s first (.ok (), t.retire host p) where
  ok := rfl
  unregistered := by
    have hout := (retire_beneath host hp).registry.outside p (self_not_mem_beneath p)
    rw [registry_cancel hp] at hout
    have hnone : (t.registry.directories.erase p).get? p = none := by simp
    exact Option.isSome_eq_false_iff.2 (Option.isNone_iff_eq_none.2 (hout.trans hnone))
  unmarked := by
    have hmarks := (retire_beneath host hp).marks p (self_not_mem_beneath p)
    have hnone : (t.stale.erase p).contains p = false := by simp
    exact hmarks.trans hnone
  rest := by
    obtain ⟨rest, hrest, hstays⟩ := (retire_beneath host hp).registry.journal
    rw [registry_cancel hp, Registry.journal_unwatch, List.append_assoc] at hrest
    rw [registry_cancel hp] at hstays
    exact ⟨_, rest, hrest.trans (congrArg (· ++ _) hjournal), fun a ha => hroot ▸ hstays a ha⟩

/-- A pass that obtains a listing takes it over at once, or it places the watch of its directory
anew first. If that fails the directory is given up, unless the failure is fatal and ends the pass.
-/
theorem diff_listed (host : Host σ) (hp : s.registry.get? p = some prev)
    (hl : (s.registry.list host p).1 = .ok l) :
    let r := s.diff host p
    let first := [Action.began p, .listed p (.ok l)]
    (s.wasReplaced p prev l = false → TakesOver host p prev l s first r) ∧
      (s.wasReplaced p prev l = true → ∃ old new,
        let first := first ++ [.unwatched p old, .watched p new]
        s.registry.journal ++ first <+: r.2.registry.journal ∧
          (new = .ok () → TakesOver host p prev l s first r) ∧
          ∀ e, new = .error e → if e.isFatal then r.1 = .error e else Abandons p s first r) := by
  intro r first
  have hl' : ((s.registry.record (.began p)).list host p).1 = .ok l := hl
  let t : Engine σ :=
    { unmark { s with registry := ((s.registry.record (.began p)).list host p).2 } p with
      counters := { s.counters with diffed := s.counters.diffed + 1 } }
  have hr : r = t.renew host p l (s.wasReplaced p prev l) := by
    change s.diff host p = _
    rw [diff_eq hp, hl']
    rfl
  have ht : t.registry.journal = s.registry.journal ++ first := by
    refine (Registry.journal_list host _ p).trans ?_
    rw [hl', Registry.record, List.append_assoc]
    rfl
  rw [hr]
  constructor
  · intro hreplaced
    rw [hreplaced]
    exact takesOver_absorb (t := t) host hp l rfl ht
  · intro hreplaced
    rw [hreplaced]
    let u : Engine σ := { t with registry := (t.registry.rearm host p).2 }
    refine ⟨(t.registry.unwatch host p).1, (t.registry.rearm host p).1, ?_⟩
    intro first'
    have hu : u.registry.journal = s.registry.journal ++ first' := by
      refine (Registry.journal_watch host _ p).trans ?_
      rw [Registry.journal_unwatch, ht, List.append_assoc, List.append_assoc]
      rfl
    simp only [renew, if_true]
    cases (t.registry.rearm host p).1 with
    | ok =>
        have habsorb := takesOver_absorb (s := s) (t := u) host hp l rfl hu
        obtain ⟨rest, hrest, -⟩ := habsorb.rest
        refine ⟨⟨rest, hrest.symm⟩, fun _ => habsorb, ?_⟩
        rintro _ ⟨⟩
    | error e =>
        have hretire := abandons_retire (s := s) (t := u) host hp rfl hu
        dsimp only
        split
        · next hfatal =>
            refine ⟨⟨[], (List.append_nil _).trans hu.symm⟩, by simp, ?_⟩
            rintro _ ⟨⟩
            rw [if_pos hfatal]
        · next hfatal =>
            obtain ⟨result, rest, hrest, -⟩ := hretire.rest
            refine ⟨⟨_, hrest.symm⟩, by simp, ?_⟩
            rintro _ ⟨⟩
            rw [if_neg hfatal]
            exact hretire

/-! ## Runs -/

/-- The states after passes over a directory that obtained no listing of it, although it may be
there. -/
inductive Unread (p : Path) (s : Engine σ) : Engine σ → Prop
  | start : Unread p s s
  | pass {t : Engine σ} (h : Unread p s t) (host : Host σ) {e : Error}
      (failed : (t.registry.list host p).1 = .error e) (there : ∀ q, e ≠ .pathVanished q) :
      Unread p s (t.diff host p).2
  | change {t : Engine σ} (h : Unread p s t) (machine : σ) :
      Unread p s { t with registry := { t.registry with machine } }

/-- Such passes keep every snapshot and every mark. -/
theorem Unread.keeps (h : Unread p s t) :
    t.registry.directories = s.registry.directories ∧ t.stale = s.stale := by
  induction h with
  | start => exact ⟨rfl, rfl⟩
  | pass h host failed there ih =>
      obtain ⟨r, new, hdiff, hdirectories, -⟩ := diff_unlisted host p _ (.inr ⟨_, failed, there⟩)
      rw [hdiff]
      exact ⟨hdirectories.trans ih.1, ih.2⟩
  | change h machine ih => exact ih

/-- The next pass that obtains a listing replaces the watch of a directory if a mark is outstanding,
or if the directory had an identity and has another one now. -/
theorem Run.wasReplaced_iff {s₀ : Engine σ} {ds : List Deed} (h : Run s₀ ds s) (hs : s₀.stale = ∅)
    (hp : s.registry.get? p = some prev) : s.wasReplaced p prev l = true ↔
      Outstanding p ds ∨ prev.identity ≠ none ∧ l.identity ≠ prev.identity := by
  have hc : s.registry.contains p = true := Option.isSome_of_eq_some hp
  have hmark := h.marked_iff hs p
  rw [hc, eq_self, true_and] at hmark
  simp [wasReplaced, hmark, Option.isSome_iff_ne_none]

/-- In every run, whatever machines it finds, a pass that obtains a listing replaces the watch of
its directory exactly once if that is due, before the listing is taken over; if the new watch cannot
be placed, the directory is given up. If it is not due no watch of the directory is touched. It is
due if the directory was marked since it was listed last, or if another one stands in its place. A
mark stays as long as listings fail, has no effect on a directory that is not registered, and is
gone when the directory is registered again. -/
theorem rearmed_if_due {s₀ : Engine σ} {ds : List Deed} (hs : s₀.stale = ∅) (h : Run s₀ ds s)
    (p : Path) :
    (∀ host prev l, s.registry.get? p = some prev → (s.registry.list host p).1 = .ok l →
      let r := s.diff host p
      let first := [Action.began p, .listed p (.ok l)]
      let due := Outstanding p ds ∨ prev.identity ≠ none ∧ l.identity ≠ prev.identity
      (¬ due → TakesOver host p prev l s first r) ∧
        (due → ∃ old new,
          let first := first ++ [.unwatched p old, .watched p new]
          s.registry.journal ++ first <+: r.2.registry.journal ∧
            (new = .ok () → TakesOver host p prev l s first r) ∧
            ∀ e, new = .error e → if e.isFatal then r.1 = .error e else Abandons p s first r)) ∧
      (s.stale.contains p = true ↔ s.registry.contains p = true ∧ Outstanding p ds) ∧
      (∀ t, Unread p s t →
        t.registry.directories = s.registry.directories ∧ t.stale = s.stale) ∧
      (s.registry.contains p = false → s.markStale p = s ∧
        ∀ host q, (s.diff host q).2.stale.contains p = false) := by
  refine ⟨?_, h.marked_iff hs p, fun _ ht => ht.keeps, ?_⟩
  · intro host prev l hp hl r first due
    obtain ⟨htaken, hrenewed⟩ := diff_listed host hp hl
    have hdue : s.wasReplaced p prev l = true ↔ due := h.wasReplaced_iff hs hp
    constructor
    · intro hnot
      exact htaken ((Bool.not_eq_true _).mp (mt hdue.1 hnot))
    · intro hd
      exact hrenewed (hdue.2 hd)
  · intro hp
    exact ⟨by simp [markStale, hp], fun host q => h.not_marked_of_new hs host hp⟩

/-- After a pass has registered a directory, its watch is reported to be gone: it is replaced. -/
theorem rearmed_if_due_haunted :
    let a := Path.ofString "/r/a"
    let l : Listing Name := { entries := .ofList [(nameX, ⟨false, none⟩)] }
    ∃ ds old new, Run vacant ds haunted ∧ haunted.stale.contains a = true ∧
      haunted.registry.journal ++
          [.began a, .listed a (.ok l), .unwatched a old, .watched a new] <+:
        (haunted.diff passing a).2.registry.journal := by
  intro a l
  obtain ⟨hlist, hmark⟩ : (haunted.registry.list passing a).1 = .ok l ∧
      haunted.stale.contains a = true := by decide +kernel
  obtain ⟨new, hpass⟩ := keeps_diff passing (.ofString "/r") (s := vacant) fun q hq => nomatch hq
  have hrun : Run vacant (new.map .did ++ [.marked a]) haunted :=
    (Run.start.diff passing (.ofString "/r") hpass.journal).mark a
  obtain ⟨hdue, hmarked, -⟩ := rearmed_if_due rfl hrun a
  have hreg : (haunted.registry.get? a).isSome = true := (hmarked.1 hmark).1
  obtain ⟨prev, hp⟩ := Option.isSome_iff_exists.1 hreg
  obtain ⟨old, new', hprefix, -⟩ := (hdue passing prev l hp hlist).2 (.inl (hmarked.1 hmark).2)
  exact ⟨_, old, new', hrun, hmark, hprefix⟩

end DirWatch.Engine
