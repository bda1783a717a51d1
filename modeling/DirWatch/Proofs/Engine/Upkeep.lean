import DirWatch.Proofs.Engine.Pass

/-! # What the steps of a pass keep

A pass is made of a few steps on single paths. What each of them keeps is kept by retiring, by
adopting and by whole passes, whatever the machine answers and wherever a failure ends them. -/

namespace DirWatch

/-- What every step keeps is kept by steps in turn, also when one of them fails. -/
theorem inTurn_keeps {α σ ε : Type} {step : α → σ → Except ε Unit × σ} {I : σ → Prop} {l : List α}
    (h : ∀ a ∈ l, ∀ s, I s → I (step a s).2) {s : σ} (hs : I s) : I (inTurn step l s).2 := by
  induction l generalizing s with
  | nil => exact hs
  | cons a l ih =>
      have ha := h a List.mem_cons_self s hs
      rw [inTurn]
      rcases hr : step a s with ⟨_ | _, s'⟩
      · rw [hr] at ha
        exact ha
      · rw [hr] at ha
        exact ih (fun b hb => h b (List.mem_cons_of_mem a hb)) ha

/-- Steps go on where those before them end. -/
theorem inTurn_append {α σ ε : Type} {step : α → σ → Except ε Unit × σ} {l : List α} {s : σ}
    (h : (inTurn step l s).1 = .ok ()) (m : List α) :
    inTurn step (l ++ m) s = inTurn step m (inTurn step l s).2 := by
  induction l generalizing s with
  | nil => rfl
  | cons a l ih =>
      rw [List.cons_append, inTurn, inTurn] at *
      rcases hr : step a s with ⟨_ | _, s'⟩ <;> rw [hr] at h
      · cases h
      · exact ih h

theorem inTurn_singleton {α σ ε : Type} (step : α → σ → Except ε Unit × σ) (a : α) (s : σ) :
    inTurn step [a] s = step a s := by
  rw [inTurn]
  rcases step a s with ⟨_ | _, s'⟩ <;> rfl

/-- A failure of steps in turn is that of one of them. -/
theorem inTurn_error {α σ ε : Type} {step : α → σ → Except ε Unit × σ} {l : List α} {s : σ} {e : ε}
    (h : (inTurn step l s).1 = .error e) : ∃ a ∈ l, ∃ s', (step a s').1 = .error e := by
  induction l generalizing s with
  | nil => cases h
  | cons a l ih =>
      rw [inTurn] at h
      rcases hr : step a s with ⟨e' | _, s'⟩
      · rw [hr] at h
        exact ⟨a, List.mem_cons_self, s, by rw [hr]; exact h⟩
      · rw [hr] at h
        obtain ⟨b, hb, hs⟩ := ih h
        exact ⟨b, List.mem_cons_of_mem a hb, hs⟩

theorem foldl_keeps {α σ : Type} {f : σ → α → σ} {I : σ → Prop} {l : List α}
    (h : ∀ a ∈ l, ∀ s, I s → I (f s a)) {s : σ} (hs : I s) : I (l.foldl f s) := by
  induction l generalizing s with
  | nil => exact hs
  | cons a l ih =>
      exact ih (fun b hb => h b (List.mem_cons_of_mem a hb)) (h a List.mem_cons_self s hs)

namespace TrackedDirectory

/-- What is reported as deleted was tracked or is listed. -/
theorem known_of_mem_deleted {d : TrackedDirectory Name} {l : Listing Name} {a : NamedEntry Name}
    (h : a ∈ (d.reconcile l).1.deleted) :
    (∃ e, l.entries.get? a.name = some e) ∨
      ∃ i, d.items.get? a.name = some i ∧ i.isDirectory = a.isDirectory := by
  rcases List.mem_append.1 h with h | h
  · obtain ⟨⟨n, e⟩, he, rfl⟩ := List.mem_map.1 h
    exact .inl ⟨e, OrderedMap.mem_entries_iff.1 (List.mem_filter.1 he).1⟩
  · obtain ⟨⟨n, i⟩, hi, rfl⟩ := List.mem_map.1 h
    have hi := OrderedMap.mem_entries_iff.1 (List.mem_filter.1 hi).1
    rw [get?_stamp] at hi
    cases hl : l.entries.get? n with
    | some e => exact .inl ⟨e, rfl⟩
    | none =>
        rw [hl, Option.map_none, Option.none_or] at hi
        exact .inr ⟨i, hi, rfl⟩

/-- What is tracked after a listing is listed or was tracked before. -/
theorem known_of_mem_reconcile {d : TrackedDirectory Name} {l : Listing Name} {n : Name} {i : Item}
    (h : (d.reconcile l).2.items.get? n = some i) :
    (∃ e, l.entries.get? n = some e) ∨ d.items.get? n = some i := by
  simp only [reconcile, OrderedMap.get?_filter, Option.filter_eq_some_iff, get?_stamp] at h
  cases hl : l.entries.get? n with
  | some e => exact .inl ⟨e, rfl⟩
  | none =>
      rw [hl, Option.map_none, Option.none_or] at h
      exact .inr h.1

end TrackedDirectory

namespace Engine

variable {σ : Type} {host : Host σ}

/-! ## Only fatal failures are returned -/

section Failures

variable {p : Path} {s : Engine σ} {e : Error}

theorem fatal_of_adoptWithin {room : Nat} (h : (adoptWithin host room p s).1 = .error e) :
    e.isFatal = true := by
  induction room generalizing p s with
  | zero =>
      rw [adoptWithin] at h
      rcases hr : s.register host p with ⟨e' | _ | _, s'⟩ <;> rw [hr] at h
      · dsimp only at h
        split at h
        · next hf =>
            obtain rfl := Except.error.inj h
            exact hf
        · cases h
      · cases h
      · cases h
  | succ room ih =>
      rw [adoptWithin] at h
      rcases hr : s.register host p with ⟨e' | _ | _, s'⟩ <;> rw [hr] at h
      · dsimp only at h
        split at h
        · next hf =>
            obtain rfl := Except.error.inj h
            exact hf
        · cases h
      · cases h
      · obtain ⟨q, -, t, hq⟩ := inTurn_error h
        exact ih hq

theorem fatal_of_reportCreated {entries : List (NamedEntry Name)}
    (h : (reportCreated host p entries s).1 = .error e) : e.isFatal = true := by
  obtain ⟨a, -, s', ha⟩ := inTurn_error h
  dsimp only at ha
  split at ha
  · exact fatal_of_adoptWithin ha
  · cases ha

theorem fatal_of_absorb {l : Listing Name} (h : (s.absorb host p l).1 = .error e) :
    e.isFatal = true := by
  unfold absorb at h
  split at h
  · cases h
  dsimp only at h
  split at h
  · next hr =>
      obtain rfl := Except.error.inj h
      exact fatal_of_reportCreated (congrArg Prod.fst hr)
  · obtain ⟨q, -, s', hq⟩ := inTurn_error h
    exact fatal_of_adoptWithin hq

/-- A pass returns no other failures. -/
theorem fatal_of_diff (h : (s.diff host p).1 = .error e) : e.isFatal = true := by
  cases hd : s.registry.get? p with
  | none =>
      rw [diff_none hd] at h
      cases h
  | some d =>
      rw [diff_eq hd] at h
      unfold resume at h
      split at h
      · cases h
      · cases h
      unfold renew at h
      split at h
      · dsimp only at h
        split at h
        · split at h
          · next hf =>
              obtain rfl := Except.error.inj h
              exact hf
          · cases h
        · exact fatal_of_absorb h
      · exact fatal_of_absorb h

end Failures

/-! ## What single steps keep -/

/-- The single steps of a pass keep `I`: reports that are `Shown`, dropping directories that are
`Leaving`, and registering directories that are `Entering`. The entries of these directories are
shown, and their subdirectories leave and enter with them. -/
structure Upkeep (host : Host σ) (I : Engine σ → Prop) (Entering Leaving : Path → Prop)
    (Shown : ChangeKind → Path → Bool → Prop) : Prop where
  emit : ∀ s kind p f, I s → Shown kind p f → I (s.emit kind p f)
  unmark : ∀ s p, I s → Leaving p → s.registry.get? p = none → I (s.unmark p)
  cancel : ∀ s p d, I s → Leaving p → s.registry.get? p = some d → I (s.cancel host p)
  left : ∀ s p d n i, I s → Leaving p → s.registry.get? p = some d → d.items.get? n = some i →
    Shown .deleted (p.child n) i.isDirectory ∧ (i.isDirectory = true → Leaving (p.child n))
  register : ∀ s p, I s → Entering p → I (s.register host p).2
  entered : ∀ s p s' d n i, I s → Entering p → s.register host p = (.ok true, s') →
    s'.registry.get? p = some d → d.items.get? n = some i →
      Shown .created (p.child n) i.isDirectory ∧ (i.isDirectory = true → Entering (p.child n))

namespace Upkeep

variable {I : Engine σ → Prop} {Entering Leaving : Path → Prop}
  {Shown : ChangeKind → Path → Bool → Prop}

/-- What holds of the items holds of the entries and the subdirectories. -/
theorem entries_of_items {kind : ChangeKind} {p : Path} {d : TrackedDirectory Name}
    (hleft : ∀ n i, d.items.get? n = some i →
      Shown kind (p.child n) i.isDirectory ∧ (i.isDirectory = true → Leaving (p.child n))) :
    (∀ e ∈ d.items.entries, Shown kind (p.child e.1) e.2.isDirectory) ∧
      ∀ q ∈ (d.subdirectories.map p.child).reverse, Leaving q := by
  refine ⟨fun e he => (hleft e.1 e.2 (OrderedMap.mem_entries_iff.1 he)).1, ?_⟩
  intro q hq
  obtain ⟨n, hn, rfl⟩ := List.mem_map.1 (List.mem_reverse.1 hq)
  obtain ⟨i, hi, hf⟩ := TrackedDirectory.mem_subdirectories.1 hn
  exact (hleft n i hi).2 hf

section

variable (h : Upkeep host I Entering Leaving Shown)
include h

theorem emitItems {kind : ChangeKind} {p : Path} {items : List (Name × Item)}
    (hp : ∀ e ∈ items, Shown kind (p.child e.1) e.2.isDirectory) {s : Engine σ} (hs : I s) :
    I (s.emitItems kind p items) :=
  foldl_keeps (fun e he s hs => h.emit s kind _ _ hs (hp e he)) hs

theorem retireAll {stack : List Path} (hp : ∀ p ∈ stack, Leaving p) {s : Engine σ} (hs : I s) :
    I (retireAll host stack s) := by
  induction stack, s using retireAll.induct host with
  | case1 s =>
      rw [retireAll_nil]
      exact hs
  | case2 dir rest s hd ih =>
      obtain ⟨hdir, hrest⟩ := List.forall_mem_cons.1 hp
      rw [retireAll_skip hd]
      exact ih hrest (h.unmark s dir hs hdir hd)
  | case3 dir rest s d hd ih =>
      obtain ⟨hdir, hrest⟩ := List.forall_mem_cons.1 hp
      obtain ⟨hitems, hsub⟩ := entries_of_items fun n i hi => h.left s dir d n i hs hdir hd hi
      rw [retireAll_cons hd]
      exact ih (List.forall_mem_append.2 ⟨hsub, hrest⟩)
        (h.emitItems hitems (h.cancel s dir d hs hdir hd))

theorem retire {p : Path} (hp : Leaving p) {s : Engine σ} (hs : I s) : I (s.retire host p) :=
  h.retireAll (List.forall_mem_singleton.2 hp) hs

/-- A directory may be retired in a state that only dropping it puts in order. -/
theorem retire_of_cancel {p : Path} {s : Engine σ} {d : TrackedDirectory Name}
    (hd : s.registry.get? p = some d) (hs : I (s.cancel host p))
    (hleft : ∀ n i, d.items.get? n = some i →
      Shown .deleted (p.child n) i.isDirectory ∧ (i.isDirectory = true → Leaving (p.child n))) :
    I (s.retire host p) := by
  obtain ⟨hitems, hsub⟩ := entries_of_items hleft
  rw [Engine.retire, retireAll_cons hd, List.append_nil]
  exact h.retireAll hsub (h.emitItems hitems hs)

/-- The entries of a directory that has entered are shown, and its subdirectories enter with it. -/
theorem entered_entries {p : Path} (hp : Entering p) {s s' : Engine σ} (hs : I s)
    (hr : s.register host p = (.ok true, s')) :
    (∀ e ∈ ((s'.registry.get? p).getD {}).items.entries,
        Shown .created (p.child e.1) e.2.isDirectory) ∧
      ∀ q ∈ (((s'.registry.get? p).getD {}).subdirectories.map p.child).reverse, Entering q := by
  refine entries_of_items ?_
  intro n i hi
  cases hd : s'.registry.get? p with
  | none => simp [hd] at hi
  | some d =>
      rw [hd] at hi
      exact h.entered s p s' d n i hs hp hr hd hi

theorem adoptWithin {room : Nat} {p : Path} (hp : Entering p) {s : Engine σ} (hs : I s) :
    I (adoptWithin host room p s).2 := by
  induction room generalizing p s with
  | zero =>
      have hr := h.register s p hs hp
      rw [Engine.adoptWithin]
      rcases hreg : s.register host p with ⟨e | _ | _, s'⟩ <;> rw [hreg] at hr
      · dsimp only
        split <;> exact hr
      · exact hr
      · exact h.emitItems (h.entered_entries hp hs hreg).1 hr
  | succ room ih =>
      have hr := h.register s p hs hp
      rw [Engine.adoptWithin]
      rcases hreg : s.register host p with ⟨e | _ | _, s'⟩ <;> rw [hreg] at hr
      · dsimp only
        split <;> exact hr
      · exact hr
      · obtain ⟨hitems, hsub⟩ := h.entered_entries hp hs hreg
        exact inTurn_keeps (fun q hq _ hs => ih (hsub q hq) hs) (h.emitItems hitems hr)

theorem adopt {p : Path} (hp : Entering p) {s : Engine σ} (hs : I s) : I (adopt host p s).2 :=
  h.adoptWithin hp hs

theorem reportDeleted {p : Path} {entries : List (NamedEntry Name)}
    (hp : ∀ e ∈ entries, Shown .deleted (p.child e.name) e.isDirectory ∧
      (e.isDirectory = true → Leaving (p.child e.name)))
    {s : Engine σ} (hs : I s) : I (reportDeleted host p entries s) := by
  refine foldl_keeps ?_ hs
  intro e he s hs
  have hs' := h.emit s .deleted _ e.isDirectory hs (hp e he).1
  dsimp only
  split
  · next hf => exact h.retire ((hp e he).2 hf) hs'
  · exact hs'

theorem reportCreated {p : Path} {entries : List (NamedEntry Name)}
    (hp : ∀ e ∈ entries, Shown .created (p.child e.name) e.isDirectory ∧
      (e.isDirectory = true → Entering (p.child e.name)))
    {s : Engine σ} (hs : I s) : I (reportCreated host p entries s).2 := by
  refine inTurn_keeps ?_ hs
  intro e he s hs
  have hs' := h.emit s .created _ e.isDirectory hs (hp e he).1
  dsimp only
  split
  · next hf => exact h.adopt ((hp e he).2 hf) hs'
  · exact hs'

theorem reportUpdated {p : Path} {entries : List (NamedEntry Name)}
    (hp : ∀ e ∈ entries, Shown .updated (p.child e.name) e.isDirectory) {s : Engine σ} (hs : I s) :
    I (reportUpdated p entries s) :=
  foldl_keeps (fun e he s hs => h.emit s .updated _ e.isDirectory hs (hp e he)) hs

theorem retryUnregistered {p : Path} {s : Engine σ} (hp : ∀ q ∈ s.unregistered p, Entering q)
    (hs : I s) : I (retryUnregistered host p s).2 :=
  inTurn_keeps (fun q hq _ hs => h.adopt (hp q hq) hs) hs

/-- Taking a listing over, once it stands in the place of the last one. -/
theorem absorb {p : Path} {s : Engine σ} {d : TrackedDirectory Name} {l : Listing Name}
    (hd : s.registry.get? p = some d) (hs : I (s.put p (d.reconcile l).2))
    (hdeleted : ∀ e ∈ (d.reconcile l).1.deleted, Shown .deleted (p.child e.name) e.isDirectory ∧
      (e.isDirectory = true → Leaving (p.child e.name)))
    (hcreated : ∀ e ∈ (d.reconcile l).1.created, Shown .created (p.child e.name) e.isDirectory ∧
      (e.isDirectory = true → Entering (p.child e.name)))
    (hupdated : ∀ e ∈ (d.reconcile l).1.updated, Shown .updated (p.child e.name) e.isDirectory)
    (hretried : ∀ s', I s' → ∀ q ∈ s'.unregistered p, Entering q) :
    I (s.absorb host p l).2 := by
  have hs' := h.reportCreated hcreated (h.reportDeleted hdeleted hs)
  rw [Engine.absorb, hd]
  dsimp only
  split
  · next e t hr =>
      have hr : Engine.reportCreated host p (d.reconcile l).1.created (Engine.reportDeleted host p
        (d.reconcile l).1.deleted (s.put p (d.reconcile l).2)) = (.error e, t) := hr
      rw [hr] at hs'
      exact hs'
  · next t hr =>
      have hr : Engine.reportCreated host p (d.reconcile l).1.created (Engine.reportDeleted host p
        (d.reconcile l).1.deleted (s.put p (d.reconcile l).2)) = (.ok (), t) := hr
      rw [hr] at hs'
      have ht := h.reportUpdated hupdated hs'
      exact h.retryUnregistered (hretried _ ht) ht

end

end Upkeep

/-- The steps of a pass over paths that are `Good` keep `I` once it has begun. A watch that cannot be
placed anew may break it, so that `F` is left if the failure is fatal; else retiring the directory
repairs it. -/
structure BegunUpkeep (host : Host σ) (I F : Engine σ → Prop) (Good : Path → Prop) : Prop
    extends Upkeep host I Good Good (fun _ p _ => Good p) where
  weaken : ∀ s, I s → F s
  listed : ∀ s p, I s → Good p → I { s with registry := (s.registry.list host p).2 }
  counted : ∀ s p n, I s → Good p →
    I { s.unmark p with counters := { s.counters with diffed := n } }
  observed : ∀ s p l n e, I s → Good p → (s.registry.list host p).1 = .ok l →
    l.entries.get? n = some e → Good (p.child n)
  put : ∀ s p d l, I s → Good p → s.registry.get? p = some d →
    (∀ n e, l.entries.get? n = some e → Good (p.child n)) → I (s.put p (d.reconcile l).2)
  rearmed : ∀ s p d, I s → Good p → s.registry.get? p = some d →
    let r := s.registry.rearm host p
    (r.1 = .ok () → I { s with registry := r.2 }) ∧
      ∀ e, r.1 = .error e → F { s with registry := r.2 } ∧
        (e.isFatal = false → I ({ s with registry := r.2 }.retire host p))

/-- The steps of passes over paths that are `Good` keep `I`, their beginnings too. -/
structure PassUpkeep (host : Host σ) (I F : Engine σ → Prop) (Good : Path → Prop) : Prop
    extends BegunUpkeep host I F Good where
  began : ∀ s p, I s → I { s with registry := s.registry.record (.began p) }

namespace BegunUpkeep

variable {I F : Engine σ → Prop} {Good : Path → Prop} (h : BegunUpkeep host I F Good)
include h

theorem absorb {p : Path} (hp : Good p) {s : Engine σ} (hs : I s) {l : Listing Name}
    (hl : ∀ n e, l.entries.get? n = some e → Good (p.child n)) : I (s.absorb host p l).2 := by
  cases hd : s.registry.get? p with
  | none =>
      rw [Engine.absorb, hd]
      exact hs
  | some d =>
      have hlisted : ∀ n, (l.entries.get? n).isSome → Good (p.child n) := by
        intro n hn
        obtain ⟨e, he⟩ := Option.isSome_iff_exists.1 hn
        exact hl n e he
      refine h.toUpkeep.absorb hd (h.put s p d l hs hp hd hl) ?_ ?_ ?_ ?_
      · intro e he
        have hg : Good (p.child e.name) := by
          rcases TrackedDirectory.known_of_mem_deleted he with ⟨e', he'⟩ | ⟨i, hi, -⟩
          · exact hl _ e' he'
          · exact (h.left s p d _ i hs hp hd hi).1
        exact ⟨hg, fun _ => hg⟩
      · intro e he
        have hg : Good (p.child e.name) := by
          refine hlisted _ ?_
          have hm := (TrackedDirectory.mem_created.1 he).1
          rw [← Option.isSome_map, hm]
          rfl
        exact ⟨hg, fun _ => hg⟩
      · intro e he
        obtain ⟨-, i, e', -, he', -⟩ := TrackedDirectory.mem_updated.1 he
        exact hl _ e' he'
      · intro s' hs' q hq
        unfold unregistered at hq
        split at hq
        · cases hq
        · next d' hd' =>
            obtain ⟨n, hn, rfl⟩ := List.mem_map.1 (List.mem_filter.1 hq).1
            obtain ⟨i, hi, -⟩ := TrackedDirectory.mem_subdirectories.1 hn
            exact (h.left s' p d' n i hs' hp hd' hi).1

/-- The second half of a pass. -/
theorem renew {p : Path} (hp : Good p) {s : Engine σ} (hs : I s) {d : TrackedDirectory Name}
    (hd : s.registry.get? p = some d) {l : Listing Name}
    (hl : ∀ n e, l.entries.get? n = some e → Good (p.child n)) (replaced : Bool) :
    ((s.renew host p l replaced).1 = .ok () → I (s.renew host p l replaced).2) ∧
      F (s.renew host p l replaced).2 := by
  cases replaced with
  | false => exact ⟨fun _ => h.absorb hp hs hl, h.weaken _ (h.absorb hp hs hl)⟩
  | true =>
      obtain ⟨hok, herr⟩ := h.rearmed s p d hs hp hd
      simp only [Engine.renew, if_true]
      rcases hr : s.registry.rearm host p with ⟨e | _, r⟩ <;> rw [hr] at hok herr
      · obtain ⟨hF, hI⟩ := herr e rfl
        dsimp only
        split
        · exact ⟨by simp, hF⟩
        · next he =>
            have hI := hI ((Bool.not_eq_true _).mp he)
            exact ⟨fun _ => hI, h.weaken _ hI⟩
      · have hI := h.absorb hp (hok rfl) hl
        exact ⟨fun _ => hI, h.weaken _ hI⟩

/-- A pass, once it has begun. -/
theorem diff_of_began {p : Path} {s : Engine σ} (hp : s.registry.contains p = true → Good p)
    (hb : I { s with registry := s.registry.record (.began p) }) :
    ((s.diff host p).1 = .ok () → I (s.diff host p).2) ∧ F (s.diff host p).2 := by
  cases hd : s.registry.get? p with
  | none =>
      rw [diff_none hd]
      exact ⟨fun _ => hb, h.weaken _ hb⟩
  | some d =>
      have hp := hp (Option.isSome_of_eq_some hd)
      have hl := h.listed _ p hb hp
      have hobs := fun l n e => h.observed _ p l n e hb hp
      rw [diff_eq hd]
      unfold resume
      split
      · have hI := h.retire hp hl
        exact ⟨fun _ => hI, h.weaken _ hI⟩
      · exact ⟨fun _ => hl, h.weaken _ hl⟩
      · next l hr =>
          exact h.renew hp (h.counted _ p _ hl hp) (d := d) hd (fun n e => hobs l n e hr) _

end BegunUpkeep

namespace PassUpkeep

variable {I F : Engine σ → Prop} {Good : Path → Prop} (h : PassUpkeep host I F Good)
include h

/-- A pass over any path. -/
theorem diff {p : Path} {s : Engine σ} (hp : s.registry.contains p = true → Good p) (hs : I s) :
    ((s.diff host p).1 = .ok () → I (s.diff host p).2) ∧ F (s.diff host p).2 :=
  h.diff_of_began hp (h.began s p hs)

/-- Passes in turn. -/
theorem inTurn {batch : List Path} (hp : ∀ p ∈ batch, ∀ s, I s → s.registry.contains p = true → Good p)
    {s : Engine σ} (hs : I s) :
    ((inTurn (Engine.diff host) batch s).1 = .ok () → I (inTurn (Engine.diff host) batch s).2) ∧
      F (inTurn (Engine.diff host) batch s).2 := by
  induction batch generalizing s with
  | nil => exact ⟨fun _ => hs, h.weaken s hs⟩
  | cons p batch ih =>
      obtain ⟨hok, hF⟩ := h.diff (hp p List.mem_cons_self s hs) hs
      rw [DirWatch.inTurn]
      rcases hr : s.diff host p with ⟨_ | _, s'⟩
      · rw [hr] at hF
        exact ⟨by simp, hF⟩
      · rw [hr] at hok
        exact ih (fun q hq => hp q (List.mem_cons_of_mem p hq)) (hok rfl)

end PassUpkeep

end Engine

end DirWatch
