import DirWatch.Proofs.Replica
import Mathlib.Data.Set.Card

/-! # The difference of two views

Events that lead from one view to another, each toward the last one, are the difference of the two,
each change once. -/

namespace DirWatch

/-- The entry that an event is about. -/
def Event.entry : Event → List Name × Name
  | created y n _ => (y, n)
  | updated y n _ => (y, n)
  | deleted y n _ => (y, n)

namespace Mirror

/-- An event says of its entry what a view says in the end. -/
def Toward (W : Mirror) : Event → Prop
  | .created y n k => W y n = some k
  | .updated y n t => W y n = some (.file t)
  | .deleted y n f => (W y n).map (·.isDirectory) ≠ some f

/-- The events that make the difference of two views. -/
def Differs (M W : Mirror) : Event → Prop
  | .created y n k => W y n = some k ∧ (M y n).map (·.isDirectory) ≠ some k.isDirectory
  | .updated y n t => W y n = some (.file t) ∧ ∃ t', M y n = some (.file t') ∧ t' ≠ t
  | .deleted y n f => (M y n).map (·.isDirectory) = some f ∧ (W y n).map (·.isDirectory) ≠ some f

theorem Differs.toward {M W : Mirror} {e : Event} (h : Differs M W e) : W.Toward e := by
  cases e with
  | created y n k => exact h.1
  | updated y n t => exact h.1
  | deleted y n f => exact h.2

theorem differs_congr {M N W : Mirror} {e : Event}
    (h : M e.entry.1 e.entry.2 = N e.entry.1 e.entry.2) : Differs M W e ↔ Differs N W e := by
  cases e <;> simp only [Event.entry] at h <;> simp only [Differs, h]

/-- Nothing makes the difference of a view to itself. -/
theorem not_differs_self {W : Mirror} {e : Event} : ¬ Differs W W e := by
  cases e with
  | created y n k =>
      rintro ⟨hk, hne⟩
      rw [hk] at hne
      exact hne rfl
  | updated y n t =>
      rintro ⟨ht, t', ht', hne⟩
      rw [ht'] at ht
      exact hne (Known.file.inj (Option.some.inj ht))
  | deleted y n f =>
      rintro ⟨hf, hne⟩
      exact hne hf

/-- News of one entry leave the others alone. -/
theorem set_apart {M : Mirror} {y : List Name} {n : Name} {o : Option Known} {a : List Name × Name}
    (h : a ≠ (y, n)) : M.set y n o a.1 a.2 = M a.1 a.2 := by
  by_cases hy : a.1 = y
  · rw [hy, set_entry]
    intro hn
    exact h (Prod.ext hy hn)
  · rw [set_other _ _ _ hy]

/-- News of one entry change the difference at this entry alone. -/
theorem differs_set {M W : Mirror} {y : List Name} {n : Name} {o : Option Known} {e : Event}
    (h : e.entry ≠ (y, n)) : Differs (M.set y n o) W e ↔ Differs M W e :=
  differs_congr (set_apart h)

/-- After a step, its event says what is known. -/
theorem Step.said {M N : Mirror} {e : Event} (h : Step M e N) : N.Toward e := by
  cases h with
  | created => exact set_self _ _ _ _
  | updated => exact set_self _ _ _ _
  | deleted => simp [Toward]

/-- When an entry has come to what it is in the end, nothing more makes a difference there. -/
theorem not_differs_of_eq {N W : Mirror} {y : List Name} {n : Name} (h : N y n = W y n) {e : Event}
    (he : e.entry = (y, n)) : ¬ Differs N W e := by
  rw [differs_congr (N := W)]
  · exact not_differs_self
  · rw [he]
    exact h

/-- A step toward a view takes one event out of the difference to it. -/
theorem Step.differs {M N W : Mirror} {e : Event} (h : Step M e N) (ht : W.Toward e) :
    ¬ Differs N W e ∧ ∀ e', Differs M W e' ↔ e' = e ∨ Differs N W e' := by
  -- elsewhere the step changes nothing, so the entry of the step is what matters
  suffices hentry : ¬ Differs N W e ∧ ∀ e', e'.entry = e.entry →
      (Differs M W e' ↔ e' = e ∨ Differs N W e') by
    refine ⟨hentry.1, fun e' => ?_⟩
    by_cases he : e'.entry = e.entry
    · exact hentry.2 e' he
    · have hset : Differs N W e' ↔ Differs M W e' := by
        cases h with
        | created => exact differs_set he
        | updated => exact differs_set he
        | deleted => exact differs_set he
      rw [hset]
      constructor
      · exact .inr
      · rintro (rfl | hd)
        · exact absurd rfl he
        · exact hd
  cases h with
  | @created y n k unknown parent =>
      have hdone : M.set y n (some k) y n = W y n := by rw [set_self, ht]
      refine ⟨not_differs_of_eq hdone rfl, ?_⟩
      intro e' he
      rw [or_iff_left (not_differs_of_eq hdone he)]
      simp only [Toward] at ht
      cases e' with
      | created z m k' =>
          obtain ⟨rfl, rfl⟩ := Prod.mk.inj he
          simp [Differs, unknown, ht, eq_comm]
      | updated z m t =>
          obtain ⟨rfl, rfl⟩ := Prod.mk.inj he
          simp [Differs, unknown]
      | deleted z m f =>
          obtain ⟨rfl, rfl⟩ := Prod.mk.inj he
          simp [Differs, unknown]
  | @updated y n t t' known changed =>
      have hdone : M.set y n (some (.file t')) y n = W y n := by rw [set_self, ht]
      refine ⟨not_differs_of_eq hdone rfl, ?_⟩
      intro e' he
      rw [or_iff_left (not_differs_of_eq hdone he)]
      simp only [Toward] at ht
      cases e' with
      | created z m k =>
          obtain ⟨rfl, rfl⟩ := Prod.mk.inj he
          simp only [reduceCtorEq, iff_false, Differs, known, ht]
          rintro ⟨hk, hne⟩
          obtain rfl := Option.some.inj hk
          exact hne rfl
      | updated z m t'' =>
          obtain ⟨rfl, rfl⟩ := Prod.mk.inj he
          simp only [Differs, known, ht, Option.some.injEq, Known.file.injEq, Event.updated.injEq,
            true_and]
          constructor
          · rintro ⟨rfl, -⟩
            rfl
          · rintro rfl
            exact ⟨rfl, t, rfl, changed⟩
      | deleted z m f =>
          obtain ⟨rfl, rfl⟩ := Prod.mk.inj he
          simp only [reduceCtorEq, iff_false, Differs, known, ht]
          rintro ⟨hf, hne⟩
          exact hne hf
  | @deleted y n k known =>
      have hgone : M.set y n none y n = none := set_self _ _ _ _
      simp only [Toward] at ht
      refine ⟨by simp [Differs], ?_⟩
      intro e' he
      cases e' with
      | created z m k' =>
          -- the entry may come back with the other kind
          obtain ⟨rfl, rfl⟩ := Prod.mk.inj he
          simp only [Differs, hgone, known, reduceCtorEq, false_or, Option.map_none,
            Option.map_some, ne_eq, not_false_eq_true, and_true]
          refine and_iff_left_of_imp fun hk hf => ht ?_
          rw [hk, Option.map_some, hf]
      | updated z m t =>
          obtain ⟨rfl, rfl⟩ := Prod.mk.inj he
          simp only [Differs, hgone, known, reduceCtorEq, false_or, false_and, exists_false,
            and_false, iff_false]
          rintro ⟨hk, t', ht', -⟩
          obtain rfl := Option.some.inj ht'
          exact ht (by rw [hk]; rfl)
      | deleted z m f =>
          obtain ⟨rfl, rfl⟩ := Prod.mk.inj he
          simp only [Differs, hgone, known, Option.map_some, Option.map_none, reduceCtorEq,
            false_and, or_false, Option.some.injEq, Event.deleted.injEq, true_and]
          constructor
          · exact fun hf => hf.1.symm
          · rintro rfl
            exact ⟨rfl, ht⟩

/-- Events toward the view they lead to are the difference, each change once. -/
theorem Plays.differs {M W : Mirror} {es : List Event} (h : Plays M es W)
    (ht : ∀ e ∈ es, W.Toward e) : es.Nodup ∧ ∀ e, e ∈ es ↔ Differs M W e := by
  induction h with
  | nil M =>
      refine ⟨List.nodup_nil, fun e => ?_⟩
      simp only [List.not_mem_nil, false_iff]
      exact not_differs_self
  | @cons M M' W e es head tail ih =>
      obtain ⟨hte, htes⟩ := List.forall_mem_cons.1 ht
      obtain ⟨hnodup, hmem⟩ := ih htes
      obtain ⟨hdone, hstep⟩ := head.differs hte
      refine ⟨List.nodup_cons.2 ⟨fun he => hdone ((hmem e).1 he), hnodup⟩, fun e' => ?_⟩
      rw [List.mem_cons, hmem, hstep]

/-- What an event says depends on its entry alone. -/
theorem toward_congr {M N : Mirror} {e : Event}
    (h : M e.entry.1 e.entry.2 = N e.entry.1 e.entry.2) : M.Toward e ↔ N.Toward e := by
  cases e <;> simp only [Event.entry] at h <;> simp only [Toward, h]

/-- A step toward a view leaves what events toward that view say of the entries. -/
theorem Step.toward {M N V : Mirror} {e e' : Event} (h : Step M e N) (hV : V.Toward e)
    (hV' : V.Toward e') (hM : M.Toward e') : N.Toward e' := by
  by_cases he : e'.entry = e.entry
  · cases h with
    | @created y n k unknown parent =>
        refine (toward_congr ?_).2 hV'
        rw [he]
        exact (set_self M y n (some k)).trans hV.symm
    | @updated y n t t' known changed =>
        refine (toward_congr ?_).2 hV'
        rw [he]
        exact (set_self M y n _).trans hV.symm
    | @deleted y n k known =>
        -- what was created or updated is there with its kind, so no such step deletes it
        cases e' with
        | created z m k' =>
            obtain ⟨rfl, rfl⟩ := Prod.mk.inj he
            obtain rfl := Option.some.inj (known.symm.trans hM)
            exact absurd (congrArg (Option.map Known.isDirectory) hV') hV
        | updated z m t =>
            obtain ⟨rfl, rfl⟩ := Prod.mk.inj he
            obtain rfl := Option.some.inj (known.symm.trans hM)
            exact absurd (congrArg (Option.map Known.isDirectory) hV') hV
        | deleted z m f =>
            obtain ⟨rfl, rfl⟩ := Prod.mk.inj he
            simp [Toward]
  · refine (toward_congr ?_).2 hM
    cases h with
    | created => exact set_apart he
    | updated => exact set_apart he
    | deleted => exact set_apart he

/-- Events toward one view lead to a view that they are toward as well. -/
theorem Plays.toward {M W V : Mirror} {es : List Event} (h : Plays M es W)
    (hV : ∀ e ∈ es, V.Toward e) : ∀ e ∈ es, W.Toward e := by
  suffices hall : ∀ e, V.Toward e → (e ∈ es ∨ M.Toward e) → W.Toward e by
    exact fun e he => hall e (hV e he) (.inl he)
  induction h with
  | nil M => exact fun e _ he => he.resolve_left List.not_mem_nil
  | @cons M N W e es head tail ih =>
      obtain ⟨hVe, hVes⟩ := List.forall_mem_cons.1 hV
      intro e' hV' he'
      refine ih hVes e' hV' ?_
      rcases he' with he' | hM
      · rcases List.mem_cons.1 he' with rfl | he'
        · exact .inr head.said
        · exact .inl he'
      · exact .inr (head.toward hVe hV' hM)

/-- Events toward one view that say the same are the same. -/
theorem Toward.eq_of_view_eq {W : Mirror} {e e' : Event} (h : W.Toward e) (h' : W.Toward e')
    (hv : e.view = e'.view) : e = e' := by
  cases e <;> cases e' <;>
    simp only [Event.view, Prod.mk.injEq, reduceCtorEq, false_and, true_and] at hv
  case created.created y n k z m k' =>
      obtain ⟨rfl, rfl⟩ := Path.map_name_concat_inj.1 hv.1
      obtain rfl := Option.some.inj (h.symm.trans h')
      rfl
  case updated.updated y n t z m t' =>
      obtain ⟨rfl, rfl⟩ := Path.map_name_concat_inj.1 hv.1
      obtain rfl := Known.file.inj (Option.some.inj (h.symm.trans h'))
      rfl
  case deleted.deleted y n f z m f' =>
      obtain ⟨rfl, rfl⟩ := Path.map_name_concat_inj.1 hv.1
      rw [hv.2]

theorem Plays.nodup_view {M W : Mirror} {es : List Event} (h : Plays M es W)
    (ht : ∀ e ∈ es, W.Toward e) : (es.map Event.view).Nodup :=
  (h.differs ht).1.map_on fun e he e' he' hv => (ht e he).eq_of_view_eq (ht e' he') hv

end Mirror

/-! ## The difference of two sets of entries -/

/-- Entries, their times left out. -/
def untimed (T : Set EntryView) : Replica := {e | ∃ t, (e.1, e.2, t) ∈ T}

/-- The changes that make the difference of two sets of entries. An entry that has become of the
other kind has been deleted and created. -/
inductive Difference (T F : Set EntryView) : ChangeView → Prop
  | created {p : List Component} {f : Bool} (now : (p, f) ∈ untimed F)
      (before : (p, f) ∉ untimed T) : Difference T F (.created, p, f)
  | updated {p : List Component} {t t' : Option Timestamp} (before : (p, false, t) ∈ T)
      (now : (p, false, t') ∈ F) (changed : t ≠ t') : Difference T F (.updated, p, false)
  | deleted {p : List Component} {f : Bool} (before : (p, f) ∈ untimed T)
      (now : (p, f) ∉ untimed F) : Difference T F (.deleted, p, f)

namespace Mirror

/-- A view holds the entries of a set. -/
structure Shows (M : Mirror) (T : Set EntryView) : Prop where
  placed : ∀ v ∈ T, ∃ y n, v.1 = (y ++ [n]).map .name
  kind : ∀ y n f, ((y ++ [n]).map .name, f) ∈ untimed T ↔ (M y n).map (·.isDirectory) = some f
  time : ∀ y n t, ((y ++ [n]).map .name, false, t) ∈ T ↔ M y n = some (.file t)

variable {M W : Mirror} {T F : Set EntryView}

theorem difference_of_differs (hM : M.Shows T) (hW : W.Shows F) {e : Event}
    (h : Differs M W e) : Difference T F e.view := by
  cases e with
  | created y n k =>
      obtain ⟨hk, hne⟩ := h
      refine .created ((hW.kind y n _).2 ?_) fun hT => hne ((hM.kind y n _).1 hT)
      rw [hk]
      rfl
  | updated y n t =>
      obtain ⟨ht, t', ht', hne⟩ := h
      exact .updated ((hM.time y n t').2 ht') ((hW.time y n t).2 ht) hne
  | deleted y n f =>
      obtain ⟨hf, hne⟩ := h
      exact .deleted ((hM.kind y n f).2 hf) fun hF => hne ((hW.kind y n f).1 hF)

theorem differs_of_difference (hM : M.Shows T) (hW : W.Shows F) {v : ChangeView}
    (h : Difference T F v) : ∃ e, Differs M W e ∧ e.view = v := by
  cases h with
  | @created p f now before =>
      have ⟨t, ht⟩ := now
      obtain ⟨y, n, rfl⟩ := hW.placed (p, f, t) ht
      obtain ⟨k, hk, rfl⟩ := Option.map_eq_some_iff.1 ((hW.kind y n _).1 now)
      exact ⟨.created y n k, ⟨hk, fun hM' => before ((hM.kind y n _).2 hM')⟩, rfl⟩
  | @updated p t t' before now changed =>
      obtain ⟨y, n, rfl⟩ := hM.placed _ before
      exact ⟨.updated y n t', ⟨(hW.time y n t').1 now, t, (hM.time y n t).1 before, changed⟩, rfl⟩
  | @deleted p f before now =>
      have ⟨t, ht⟩ := before
      obtain ⟨y, n, rfl⟩ := hM.placed (p, f, t) ht
      refine ⟨.deleted y n f, ⟨(hM.kind y n f).1 before, ?_⟩, rfl⟩
      exact fun hW' => now ((hW.kind y n f).2 hW')

/-- Changes toward the view they lead to are the difference of what the views hold, each change
once. -/
theorem Plays.difference {es : List Event} (h : Plays M es W) (ht : ∀ e ∈ es, W.Toward e)
    (hM : M.Shows T) (hW : W.Shows F) :
    (es.map Event.view).Nodup ∧ ∀ v, v ∈ es.map Event.view ↔ Difference T F v := by
  refine ⟨h.nodup_view ht, fun v => ?_⟩
  rw [List.mem_map]
  constructor
  · rintro ⟨e, he, rfl⟩
    exact difference_of_differs hM hW (((h.differs ht).2 e).1 he)
  · intro hv
    obtain ⟨e, he, rfl⟩ := differs_of_difference hM hW hv
    exact ⟨e, ((h.differs ht).2 e).2 he, rfl⟩

end Mirror

namespace Difference

variable {T F : Set EntryView} {l : List ChangeView}

theorem created_iff {e : List Component × Bool} :
    Difference T F (.created, e) ↔ e ∈ untimed F \ untimed T := by
  constructor
  · rintro (⟨now, before⟩ | _ | _)
    exact ⟨now, before⟩
  · rintro ⟨now, before⟩
    exact .created now before

theorem deleted_iff {e : List Component × Bool} :
    Difference T F (.deleted, e) ↔ e ∈ untimed T \ untimed F := by
  constructor
  · rintro (_ | _ | ⟨before, now⟩)
    exact ⟨before, now⟩
  · rintro ⟨before, now⟩
    exact .deleted before now

/-- Different changes of one kind are as many as the entries they are about. -/
theorem countP_kind (hl : l.Nodup) {kind : ChangeKind} {S : Replica}
    (h : ∀ e, (kind, e) ∈ l ↔ e ∈ S) : l.countP (fun v => v.1 = kind) = S.ncard := by
  classical
  have hnodup : ((l.filter fun v => v.1 = kind).map (·.2)).Nodup := by
    refine (hl.filter _).map_on ?_
    intro v hv w hw he
    have hv := of_decide_eq_true (List.mem_filter.1 hv).2
    have hw := of_decide_eq_true (List.mem_filter.1 hw).2
    exact Prod.ext (hv.trans hw.symm) he
  have hS : S = ((l.filter fun v => v.1 = kind).map (·.2)).toFinset := by
    ext e
    rw [← h]
    simp [and_comm]
  rw [hS, Set.ncard_coe_finset, List.toFinset_card_of_nodup hnodup, List.length_map,
    List.countP_eq_length_filter]

end Difference

/-- Changes that are the difference of two sets of entries, each change once. As many entries are
created as there are new ones, and as many deleted as there are no more. -/
structure IsDifference (T F : Set EntryView) (cs : List Change) : Prop where
  once : (cs.map Change.view).Nodup
  mem_iff : ∀ v, v ∈ cs.map Change.view ↔ Difference T F v
  created : cs.countP (·.kind = .created) = (untimed F \ untimed T).ncard
  deleted : cs.countP (·.kind = .deleted) = (untimed T \ untimed F).ncard

theorem IsDifference.of_views {T F : Set EntryView} {cs : List Change}
    (once : (cs.map Change.view).Nodup)
    (mem_iff : ∀ v, v ∈ cs.map Change.view ↔ Difference T F v) : IsDifference T F cs := by
  have count : ∀ {kind : ChangeKind} {S : Replica},
      (∀ e, (kind, e) ∈ cs.map Change.view ↔ e ∈ S) → cs.countP (·.kind = kind) = S.ncard := by
    intro kind S hS
    rw [← Difference.countP_kind once hS, List.countP_map]
    rfl
  refine ⟨once, mem_iff, count fun e => ?_, count fun e => ?_⟩
  · exact (mem_iff _).trans Difference.created_iff
  · exact (mem_iff _).trans Difference.deleted_iff

end DirWatch
