import DirWatch.Proofs.Engine.Invariant
import DirWatch.Proofs.Engine.Locality

/-! # Marks of lost watches

A directory is marked once its watch is known to be gone, and the next pass that obtains a listing
of it acts on the mark. Between a mark and that listing the mark is kept, and no mark is acted on
twice. -/

namespace DirWatch

variable {σ : Type} {host : Host σ}

/-- An action that obtained a listing of a directory. -/
def Action.Lists (p : Path) : Action → Prop
  | listed q (.ok _) => p.same q = true
  | _ => False

/-- A listing of a directory is among some actions. -/
def Relisted (p : Path) (actions : List Action) : Prop := ∃ a ∈ actions, a.Lists p

@[simp] theorem relisted_nil (p : Path) : ¬ Relisted p [] := by simp [Relisted]

theorem relisted_concat {p : Path} {actions : List Action} {a : Action} :
    Relisted p (actions ++ [a]) ↔ Relisted p actions ∨ a.Lists p := by
  simp [Relisted, or_and_right, exists_or]

theorem Action.lists_congr {p q : Path} (h : p.same q = true) (a : Action) :
    a.Lists p ↔ a.Lists q := by
  unfold Lists
  split
  · rw [Path.same, Path.same, Path.same_iff.1 h]
  · rfl

theorem relisted_congr {p q : Path} (h : p.same q = true) {actions : List Action} :
    Relisted p actions ↔ Relisted q actions := by
  simp only [Relisted, Action.lists_congr h]

namespace OrderedMap

universe v

variable {β : Type v} (m : OrderedMap Path β) (p q : Path)

theorem contains_of_same {p q : Path} (h : p.same q = true) : m.contains p = m.contains q :=
  m.contains_congr (Path.compare_eq_iff.2 (Path.same_iff.1 h))

theorem contains_insert_iff (b : β) :
    (m.insert p b).contains q = true ↔ q.same p = true ∨ m.contains q = true := by
  rw [contains_insert, Bool.or_eq_true_iff, beq_iff_eq, Path.compare_eq_iff, Path.same_iff]

theorem contains_erase_iff :
    (m.erase p).contains q = true ↔ ¬ q.same p = true ∧ m.contains q = true := by
  rw [contains_erase, Bool.and_eq_true, bne_iff_ne, ne_eq, Path.compare_eq_iff, Path.same_iff]

end OrderedMap

namespace Engine

open OrderedMap

/-! ## What a call makes of marks -/

/-- Since a state, some actions were written down. A directory is marked if it was marked and is
still registered, unless it was listed meanwhile; and one that was registered meanwhile was listed.
-/
structure Keeps (s₀ : Engine σ) (new : List Action) (s : Engine σ) : Prop where
  journal : s.registry.journal = s₀.registry.journal ++ new
  marks : ∀ p, s.stale.contains p = true ↔
    s.registry.contains p = true ∧ s₀.stale.contains p = true ∧ ¬ Relisted p new
  known : ∀ p, s.registry.contains p = true → s₀.registry.contains p = true ∨ Relisted p new

namespace Keeps

variable {s₀ s : Engine σ} {new : List Action} {p : Path}

theorem start (h : ∀ q, s.stale.contains q = true → s.registry.contains q = true) :
    Keeps s [] s where
  journal := (List.append_nil _).symm
  marks q := ⟨fun hq => ⟨h q hq, hq, relisted_nil q⟩, fun hq => hq.2.1⟩
  known _ hq := .inl hq

theorem registered (h : Keeps s₀ new s) (hp : s.stale.contains p = true) :
    s.registry.contains p = true := ((h.marks p).1 hp).1

theorem counted (h : Keeps s₀ new s) (counters : Counters) :
    Keeps s₀ new { s with counters } := ⟨h.journal, h.marks, h.known⟩

/-- An action that is not a listing. -/
theorem record (h : Keeps s₀ new s) {a : Action} (ha : ∀ q, ¬ a.Lists q) (machine : σ) :
    Keeps s₀ (new ++ [a]) { s with registry := { s.registry with machine }.record a } where
  journal := (congrArg (· ++ [a]) h.journal).trans (List.append_assoc _ _ _)
  marks q := by
    rw [relisted_concat, or_iff_left (ha q)]
    exact h.marks q
  known q hq := (h.known q hq).imp_right fun hl => relisted_concat.2 (.inl hl)

theorem emit (h : Keeps s₀ new s) (kind : ChangeKind) (p : Path) (f : Bool) :
    ∃ more, Keeps s₀ (new ++ more) (s.emit kind p f) := by
  unfold Engine.emit
  split
  · exact ⟨[], by simpa using h⟩
  · next q hq =>
      have hr := h.record (a := .notified (.changed ⟨kind, q, f⟩)) (fun _ => id) s.registry.machine
      exact ⟨_, hr.counted _⟩

section Requests

variable (h : Keeps s₀ new s) (host : Host σ) (p : Path)
include h

theorem watch : Keeps s₀ (new ++ [.watched p (s.registry.watch host p).1])
    { s with registry := (s.registry.watch host p).2 } :=
  h.record (a := .watched p (s.registry.watch host p).1) (fun _ => id) _

theorem unwatch : Keeps s₀ (new ++ [.unwatched p (s.registry.unwatch host p).1])
    { s with registry := (s.registry.unwatch host p).2 } :=
  h.record (a := .unwatched p (s.registry.unwatch host p).1) (fun _ => id) _

theorem list_failed {e : Error} (he : (s.registry.list host p).1 = .error e) :
    Keeps s₀ (new ++ [.listed p (.error e)])
      { s with registry := (s.registry.list host p).2 } := by
  have hr := h.record (a := .listed p (.error e)) (fun _ => id) (s.registry.list host p).2.machine
  rw [← he] at hr ⊢
  exact hr

/-- A listing that is obtained takes the mark of its directory with it. -/
theorem list_obtained {l : Listing Name} (hl : (s.registry.list host p).1 = .ok l)
    (stale : OrderedMap Path Unit)
    (hstale : ∀ q, stale.contains q = true ↔ ¬ q.same p = true ∧ s.stale.contains q = true) :
    Keeps s₀ (new ++ [.listed p (.ok l)])
      { s with registry := (s.registry.list host p).2, stale } where
  journal := by
    refine (Registry.journal_list host s.registry p).trans ?_
    rw [hl, h.journal, List.append_assoc]
  marks q := by
    have hlists : (Action.listed p (.ok l)).Lists q ↔ q.same p = true := Iff.rfl
    have hmarks := h.marks q
    rw [hstale, relisted_concat, hlists]
    tauto
  known q hq := (h.known q hq).imp_right fun hl => relisted_concat.2 (.inl hl)

end Requests

/-- What is registered or was listed may be put into the registry. -/
theorem put (h : Keeps s₀ new s) (hp : s.registry.contains p = true ∨ Relisted p new)
    (d : TrackedDirectory Name) : Keeps s₀ new (s.put p d) := by
  have hsame : ∀ q, q.same p = true → s.registry.contains q = true ∨ Relisted q new := by
    intro q hq
    rwa [relisted_congr hq, Registry.contains, contains_of_same _ hq]
  have hput : ∀ q, (s.put p d).registry.contains q = true ↔
      q.same p = true ∨ s.registry.contains q = true := fun q => contains_insert_iff _ _ _ _
  refine ⟨h.journal, ?_, ?_⟩
  · intro q
    rw [hput]
    constructor
    · intro hq
      exact ⟨.inr (h.registered hq), ((h.marks q).1 hq).2⟩
    · rintro ⟨hq, hm⟩
      have hq : s.registry.contains q = true := by
        rcases hq with hq | hq
        · exact (hsame q hq).resolve_right hm.2
        · exact hq
      exact (h.marks q).2 ⟨hq, hm⟩
  · intro q hq
    rcases (hput q).1 hq with hq | hq
    · rcases hsame q hq with hq | hq
      · exact h.known q hq
      · exact .inr hq
    · exact h.known q hq

/-- There is no mark of a directory that is not registered. -/
theorem not_marked (h : Keeps s₀ new s) (hp : s.registry.contains p = false) {q : Path}
    (hq : s.stale.contains q = true) : ¬ q.same p = true := by
  intro hsame
  have hreg := h.registered hq
  rw [Registry.contains, contains_of_same _ hsame, ← Registry.contains, hp] at hreg
  cases hreg

theorem unmark (h : Keeps s₀ new s) (hp : s.registry.contains p = false) :
    Keeps s₀ new (s.unmark p) where
  journal := h.journal
  known := h.known
  marks q := by
    refine Iff.trans ?_ (h.marks q)
    refine (contains_erase_iff _ _ _).trans ⟨And.right, fun hq => ⟨h.not_marked hp hq, hq⟩⟩

/-- A directory is dropped with its mark. -/
theorem cancel (h : Keeps s₀ new s) {d : TrackedDirectory Name} (hd : s.registry.get? p = some d) :
    ∃ more, Keeps s₀ (new ++ more) (s.cancel host p) := by
  have hdrop : Keeps s₀ new { s.unmark p with registry :=
      { s.registry with directories := s.registry.directories.erase p } } := by
    refine ⟨h.journal, ?_, ?_⟩
    · intro q
      refine (contains_erase_iff _ _ _).trans ((and_congr_right' (h.marks q)).trans ?_)
      refine Iff.trans ?_ (and_congr_left' (contains_erase_iff _ _ _).symm)
      exact and_assoc.symm
    · intro q hq
      exact h.known q ((contains_erase_iff _ _ _).1 hq).2
  have hunwatch := hdrop.unwatch host p
  simp only [Engine.cancel, Registry.cancel, hd]
  exact ⟨_, hunwatch⟩

/-- Registering a directory obtains a listing of it, or does not register it. -/
theorem register (h : Keeps s₀ new s) (host : Host σ) (p : Path) :
    ∃ more, Keeps s₀ (new ++ more) { s with registry := (s.registry.register host p).2 } := by
  unfold Registry.register
  split
  · exact ⟨[], by simpa using h⟩
  next hc =>
  have hw := h.watch host p
  split
  · next e r₁ hwatch =>
      rw [hwatch] at hw
      exact ⟨_, hw⟩
  next r₁ hwatch =>
  rw [hwatch] at hw
  split
  · next e r₂ hlist =>
      have hu := (hw.list_failed host p (congrArg Prod.fst hlist)).unwatch host p
      rw [hlist, List.append_assoc, List.append_assoc] at hu
      exact ⟨_, hu⟩
  · next l r₂ hlist =>
      have hl := hw.list_obtained host p (congrArg Prod.fst hlist) s.stale fun q =>
        ⟨fun hq => ⟨h.not_marked ((Bool.not_eq_true _).mp hc) hq, hq⟩, And.right⟩
      rw [hlist] at hl
      have hlists : (Action.listed p (.ok l)).Lists p := Path.same_iff.2 rfl
      have hput := hl.put (.inr (relisted_concat.2 (.inr hlists))) (.ofListing l)
      rw [List.append_assoc] at hput
      exact ⟨_, hput⟩

end Keeps

/-- What steps of a pass make of marks. -/
theorem upkeep_keeps (host : Host σ) (s₀ : Engine σ) :
    Upkeep host (fun s => ∃ new, Keeps s₀ new s) (fun _ => True) (fun _ => True)
      (fun _ _ _ => True) where
  emit s kind p f hs _ := by
    obtain ⟨new, hnew⟩ := hs
    obtain ⟨more, hmore⟩ := hnew.emit kind p f
    exact ⟨_, hmore⟩
  unmark s p hs _ hp := by
    obtain ⟨new, hnew⟩ := hs
    exact ⟨new, hnew.unmark (Option.isSome_eq_false_iff.2 (Option.isNone_iff_eq_none.2 hp))⟩
  cancel s p d hs _ hd := by
    obtain ⟨new, hnew⟩ := hs
    obtain ⟨more, hmore⟩ := hnew.cancel hd
    exact ⟨_, hmore⟩
  left _ _ _ _ _ _ _ _ _ := ⟨trivial, fun _ => trivial⟩
  register s p hs _ := by
    obtain ⟨new, hnew⟩ := hs
    obtain ⟨more, hmore⟩ := hnew.register host p
    exact ⟨_, hmore⟩
  entered _ _ _ _ _ _ _ _ _ _ _ := ⟨trivial, fun _ => trivial⟩

/-! ## What a pass makes of marks -/

theorem keeps_absorb {s₀ s : Engine σ} {new : List Action} (h : Keeps s₀ new s) (host : Host σ)
    (p : Path) (l : Listing Name) : ∃ new, Keeps s₀ new (s.absorb host p l).2 := by
  cases hd : s.registry.get? p with
  | none =>
      rw [absorb, hd]
      exact ⟨new, h⟩
  | some d =>
      have hput := h.put (.inl (Option.isSome_of_eq_some hd)) (d.reconcile l).2
      exact (upkeep_keeps host s₀).absorb hd ⟨new, hput⟩ (fun _ _ => ⟨trivial, fun _ => trivial⟩)
        (fun _ _ => ⟨trivial, fun _ => trivial⟩) (fun _ _ => trivial) (fun _ _ _ _ => trivial)

theorem keeps_renew {s₀ s : Engine σ} {new : List Action} (h : Keeps s₀ new s) (host : Host σ)
    (p : Path) (l : Listing Name) (replaced : Bool) :
    ∃ new, Keeps s₀ new (s.renew host p l replaced).2 := by
  unfold renew
  split
  · have hr := (h.unwatch host p).watch host p
    dsimp only
    split
    · split
      · exact ⟨_, hr⟩
      · exact (upkeep_keeps host s₀).retire trivial ⟨_, hr⟩
    · exact keeps_absorb hr host p l
  · exact keeps_absorb h host p l

theorem keeps_diff (host : Host σ) (p : Path) {s : Engine σ}
    (h : ∀ q, s.stale.contains q = true → s.registry.contains q = true) :
    ∃ new, Keeps s new (s.diff host p).2 := by
  have hb : Keeps s [.began p] { s with registry := s.registry.record (.began p) } :=
    (Keeps.start h).record (a := .began p) (fun _ => id) s.registry.machine
  cases hd : s.registry.get? p with
  | none =>
      rw [diff_none hd]
      exact ⟨_, hb⟩
  | some d =>
      rw [diff_eq hd]
      cases hl : ((s.registry.record (.began p)).list host p).1 with
      | error e =>
          have hf := hb.list_failed host p hl
          cases e with
          | pathVanished q => exact (upkeep_keeps host s).retire trivial ⟨_, hf⟩
          | _ => exact ⟨_, hf⟩
      | ok l =>
          have hk := hb.list_obtained host p hl _ fun q => contains_erase_iff s.stale p q
          exact keeps_renew (hk.counted _) host p l _

/-! ## Runs -/

/-- What happens in a run: a directory is marked, or a pass does something. -/
inductive Deed where
  | marked (dir : Path)
  | did (action : Action)

/-- The states that calls lead to, with what happened on the way. Every pass may find another
machine, which may have changed in the meantime. -/
inductive Run (s₀ : Engine σ) : List Deed → Engine σ → Prop
  | start : Run s₀ [] s₀
  | mark {ds : List Deed} {s : Engine σ} (h : Run s₀ ds s) (p : Path) :
      Run s₀ (ds ++ [.marked p]) (s.markStale p)
  | diff {ds : List Deed} {s : Engine σ} (h : Run s₀ ds s) (host : Host σ) (p : Path)
      {new : List Action}
      (journal : (s.diff host p).2.registry.journal = s.registry.journal ++ new) :
      Run s₀ (ds ++ new.map .did) (s.diff host p).2
  | change {ds : List Deed} {s : Engine σ} (h : Run s₀ ds s) (machine : σ) :
      Run s₀ ds { s with registry := { s.registry with machine } }

/-- A directory was marked, and no listing of it was obtained since. -/
def Outstanding (p : Path) (ds : List Deed) : Prop :=
  ∃ before q after, ds = before ++ .marked q :: after ∧ p.same q = true ∧
    ∀ a, .did a ∈ after → ¬ a.Lists p

theorem not_outstanding_nil (p : Path) : ¬ Outstanding p [] := by
  rintro ⟨before, q, after, h, -⟩
  simp at h

theorem outstanding_marked {p q : Path} {ds : List Deed} :
    Outstanding p (ds ++ [.marked q]) ↔ p.same q = true ∨ Outstanding p ds := by
  constructor
  · rintro ⟨before, q', after, h, hq, hnone⟩
    rcases List.eq_nil_or_concat' after with rfl | ⟨after, b, rfl⟩
    · obtain ⟨-, he⟩ := List.append_singleton_inj.1 h
      obtain rfl := Deed.marked.inj he
      exact .inl hq
    · rw [← List.cons_append, ← List.append_assoc] at h
      obtain ⟨rfl, -⟩ := List.append_singleton_inj.1 h
      exact .inr ⟨before, q', after, rfl, hq, fun a ha => hnone a (List.mem_append_left _ ha)⟩
  · rintro (hq | ⟨before, q', after, rfl, hq, hnone⟩)
    · exact ⟨ds, q, [], rfl, hq, by simp⟩
    · exact ⟨before, q', after ++ [.marked q], by simp, hq, by simpa using hnone⟩

theorem outstanding_did_singleton {p : Path} {ds : List Deed} {a : Action} :
    Outstanding p (ds ++ [.did a]) ↔ Outstanding p ds ∧ ¬ a.Lists p := by
  constructor
  · rintro ⟨before, q, after, h, hq, hnone⟩
    rcases List.eq_nil_or_concat' after with rfl | ⟨after, b, rfl⟩
    · obtain ⟨-, he⟩ := List.append_singleton_inj.1 h
      cases he
    · rw [← List.cons_append, ← List.append_assoc] at h
      obtain ⟨rfl, rfl⟩ := List.append_singleton_inj.1 h
      refine ⟨⟨before, q, after, rfl, hq, ?_⟩, hnone a (by simp)⟩
      exact fun b hb => hnone b (List.mem_append_left _ hb)
  · rintro ⟨⟨before, q, after, rfl, hq, hnone⟩, ha⟩
    refine ⟨before, q, after ++ [.did a], by simp, hq, ?_⟩
    intro b hb
    rcases List.mem_append.1 hb with hb | hb
    · exact hnone b hb
    · obtain rfl := Deed.did.inj (List.mem_singleton.1 hb)
      exact ha

theorem outstanding_did {p : Path} {ds : List Deed} {new : List Action} :
    Outstanding p (ds ++ new.map .did) ↔ Outstanding p ds ∧ ¬ Relisted p new := by
  induction new using List.reverseRecOn with
  | nil => simp
  | append_singleton new a ih =>
      rw [List.map_append, ← List.append_assoc, List.map_singleton, outstanding_did_singleton, ih,
        relisted_concat, not_or, and_assoc]

/-- In every run a directory is marked if it is registered and its mark is outstanding. -/
theorem Run.marked_iff {s₀ s : Engine σ} {ds : List Deed} (h : Run s₀ ds s) (hs : s₀.stale = ∅)
    (p : Path) :
    s.stale.contains p = true ↔ s.registry.contains p = true ∧ Outstanding p ds := by
  induction h generalizing p with
  | start => simp [hs, not_outstanding_nil]
  | @mark ds s h q ih =>
      rw [registry_markStale, outstanding_marked, markStale]
      split
      · next hq =>
          refine (contains_insert_iff _ _ _ _).trans ?_
          rw [ih]
          have hsame : p.same q = true → s.registry.contains p = true := fun hp =>
            (contains_of_same _ hp).trans hq
          tauto
      · next hq =>
          have hsame : p.same q = true → ¬ s.registry.contains p = true := fun hp hc =>
            hq ((contains_of_same _ hp).symm.trans hc)
          rw [ih]
          tauto
  | @diff ds s h host q new journal ih =>
      obtain ⟨new', hk⟩ := keeps_diff host q fun r hr => ((ih r).1 hr).1
      obtain rfl : new' = new := List.append_cancel_left (hk.journal.symm.trans journal)
      have hknown := hk.known p
      rw [hk.marks, ih, outstanding_did]
      tauto
  | change h machine ih => exact ih p

/-- A directory that is registered again by a pass has no mark. -/
theorem Run.not_marked_of_new {s₀ s : Engine σ} {ds : List Deed} (h : Run s₀ ds s)
    (hs : s₀.stale = ∅) (host : Host σ) {p q : Path} (hp : s.registry.contains p = false) :
    (s.diff host q).2.stale.contains p = false := by
  obtain ⟨new, hk⟩ := keeps_diff host q fun r hr => ((h.marked_iff hs r).1 hr).1
  have hunmarked : ¬ s.stale.contains p = true := by
    rw [h.marked_iff hs, hp]
    simp
  rw [← Bool.not_eq_true, hk.marks]
  exact fun hc => hunmarked hc.2.1

end Engine

end DirWatch
