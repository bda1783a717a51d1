import DirWatch.Proofs.Engine.Upkeep

/-! # What is written down

The journal only grows, and every change in it was counted under its kind, whatever the machine
answers and wherever a failure ends a pass. -/

namespace DirWatch

variable {σ : Type} {host : Host σ}

/-- A registry has written down requests, and told nothing. -/
def Registry.Silent (r r' : Registry σ) : Prop :=
  ∃ new, r'.journal = r.journal ++ new ∧ new.filterMap Action.notification? = []

namespace Registry.Silent

variable {r r' : Registry σ}

theorem refl (r : Registry σ) : r.Silent r := ⟨[], (List.append_nil _).symm, rfl⟩

theorem record (h : r.Silent r') {a : Action} (ha : a.notification? = none) (machine : σ) :
    r.Silent ({ r' with machine }.record a) := by
  obtain ⟨new, hnew, hquiet⟩ := h
  refine ⟨new ++ [a], ?_, ?_⟩
  · rw [← List.append_assoc, ← hnew]
    rfl
  · simp [hquiet, ha]

theorem register (h : r.Silent r') (p : Path) : r.Silent (r'.register host p).2 := by
  refine register_keeps ?_ ?_ ?_ ?_ h
  · exact fun _ h => h.record rfl _
  · exact fun _ h => h.record rfl _
  · exact fun _ h => h.record rfl _
  · exact fun _ _ _ _ h _ => h

end Registry.Silent

namespace Engine

/-- Since a journal and totals, more was written down, and every change in it was counted. -/
def Writes (written : List Action) (t : Totals) (s : Engine σ) : Prop :=
  ∃ new, s.registry.journal = written ++ new ∧
    s.counters.totals = (new.filterMap Action.notification?).foldl Totals.note t

namespace Writes

variable {written : List Action} {t : Totals} {s s' : Engine σ}

theorem grows (h : Writes written t s) : written <+: s.registry.journal := by
  obtain ⟨new, hnew, -⟩ := h
  exact ⟨new, hnew.symm⟩

theorem silent (h : Writes written t s) (hr : s.registry.Silent s'.registry)
    (hc : s'.counters.totals = s.counters.totals) : Writes written t s' := by
  obtain ⟨new, hnew, htotals⟩ := h
  obtain ⟨more, hmore, hquiet⟩ := hr
  refine ⟨new ++ more, by rw [hmore, hnew, List.append_assoc], ?_⟩
  rw [hc, htotals, List.filterMap_append, hquiet, List.append_nil]

theorem emit (h : Writes written t s) (kind : ChangeKind) (p : Path) (f : Bool) :
    Writes written t (s.emit kind p f) := by
  unfold Engine.emit
  split
  · exact h
  · next q hq =>
      obtain ⟨new, hnew, htotals⟩ := h
      refine ⟨new ++ [.notified (.changed ⟨kind, q, f⟩)], ?_, ?_⟩
      · rw [← List.append_assoc, ← hnew]
        rfl
      · rw [List.filterMap_append, List.foldl_append, ← htotals]
        rfl

end Writes

theorem upkeep_writes (host : Host σ) (written : List Action) (t : Totals) :
    PassUpkeep host (Writes written t) (Writes written t) (fun _ => True) := by
  have hsteps : Upkeep host (Writes (σ := σ) written t) (fun _ => True) (fun _ => True)
      (fun _ _ _ => True) :=
    { emit := fun s kind p f hs _ => hs.emit kind p f
      unmark := fun s p hs _ _ => hs.silent (.refl _) rfl
      cancel := fun s p d hs _ hd => by
        have hdrop : s.registry.Silent
            { s.registry with directories := s.registry.directories.erase p } := .refl _
        refine hs.silent ?_ rfl
        rw [registry_cancel hd]
        exact hdrop.record rfl _
      left := fun _ _ _ _ _ _ _ _ _ => ⟨trivial, fun _ => trivial⟩
      register := fun s p hs _ => hs.silent ((Registry.Silent.refl _).register p) rfl
      entered := fun _ _ _ _ _ _ _ _ _ _ _ => ⟨trivial, fun _ => trivial⟩ }
  exact
    { toUpkeep := hsteps
      weaken := fun s hs => hs
      began := fun s p hs => hs.silent ((Registry.Silent.refl _).record rfl _) rfl
      listed := fun s p hs _ => hs.silent ((Registry.Silent.refl _).record rfl _) rfl
      counted := fun s p n hs _ => hs.silent (.refl _) rfl
      observed := fun _ _ _ _ _ _ _ _ _ => trivial
      put := fun s p d l hs _ _ _ => hs.silent (.refl _) rfl
      rearmed := fun s p d hs _ _ => by
        have hr : Writes written t { s with registry := (s.registry.rearm host p).2 } :=
          hs.silent (((Registry.Silent.refl _).record rfl _).record rfl _) rfl
        exact ⟨fun _ => hr, fun e _ => ⟨hr, fun _ => hsteps.retire trivial hr⟩⟩ }

theorem writes_inTurn (host : Host σ) (batch : List Path) (s : Engine σ) :
    Writes s.registry.journal s.counters.totals (inTurn (diff host) batch s).2 :=
  ((upkeep_writes host _ _).inTurn (fun _ _ _ _ _ => trivial) ⟨[], (List.append_nil _).symm, rfl⟩).2

/-- A pass is written down, and what was written before stays. -/
theorem journal_diff (host : Host σ) (p : Path) (s : Engine σ) :
    s.registry.journal ++ [.began p] <+: (s.diff host p).2.registry.journal :=
  ((upkeep_writes host _ s.counters.totals).diff_of_began (fun _ => trivial)
    ⟨[], (List.append_nil _).symm, rfl⟩).2.grows

theorem journal_inTurn (host : Host σ) (batch : List Path) (s : Engine σ) :
    s.registry.journal <+: (inTurn (diff host) batch s).2.registry.journal :=
  (writes_inTurn host batch s).grows

/-- Passes in turn count what they report. -/
theorem totals_inTurn {batch : List Path} {s : Engine σ} {cs : List Change}
    (hcs : (inTurn (diff host) batch s).2.registry.notifications =
      s.registry.notifications ++ cs.map .changed) :
    (inTurn (diff host) batch s).2.counters.totals =
      (cs.map Change.view).foldl (fun t v => t.add v.1) s.counters.totals := by
  obtain ⟨new, hnew, htotals⟩ := writes_inTurn host batch s
  rw [Registry.notifications, hnew, List.filterMap_append] at hcs
  rw [htotals, List.append_cancel_left hcs, List.foldl_map, List.foldl_map]
  rfl

instance : RightCommutative fun (t : Totals) (v : ChangeView) => t.add v.1 where
  right_comm t v w := by
    rcases v with ⟨_ | _ | _, v⟩ <;> rcases w with ⟨_ | _ | _, w⟩ <;> rfl

end Engine

end DirWatch
