import DirWatch.Proofs.Path.Relative
import DirWatch.Walk

/-! # What a walk comes to

A walk asks a machine for more when its visits are taken, and whoever takes them may change the
machine. What holds of the root of a walk, and of every observed entry of a directory if it holds of
the directory, holds of everything that the walk yields, whatever happens in between. -/

namespace DirWatch

variable {σ γ : Type} {host : Host σ}

namespace Traversal

variable {K : γ → σ → Prop} {P : List Visit → Visit → Prop} {before : List Visit} {c : γ}
  {t : Traversal σ}

/-- The machine is found in some class and stays in it, but whoever takes a visit may move it to
another class. Each visit is one of `P`, given those before it. -/
inductive Keeps (K : γ → σ → Prop) (P : List Visit → Visit → Prop) :
    List Visit → γ → Traversal σ → Prop
  | finished {before : List Visit} {c : γ} {s : σ} (kept : K c s) :
      Keeps K P before c (.finished s)
  | yielded {before : List Visit} {c : γ} {v : Visit} {s : σ} {resume : σ → Traversal σ}
      (kept : K c s) (visit : P before v)
      (rest : ∀ c' s', K c' s' → Keeps K P (before ++ [v]) c' (resume s')) :
      Keeps K P before c (.yielded v s resume)

/-- Whatever happens in between, every visit is one of `P`. -/
def Yields (P : Visit → Prop) (t : Traversal σ) : Prop :=
  t.Keeps (fun (_ : Unit) _ => True) (fun _ => P) [] ()

theorem yields_true (t : Traversal σ) : t.Yields fun _ => True := by
  unfold Yields
  generalize [] = before
  induction t generalizing before with
  | finished s => exact .finished trivial
  | yielded v s resume ih => exact .yielded trivial trivial fun _ s' _ => ih s' _

theorem Keeps.andThen (h : t.Keeps K P before c) {next : σ → Traversal σ}
    (hnext : ∀ later c s, before ⊆ later → K c s → (next s).Keeps K P later c) :
    (t.andThen next).Keeps K P before c := by
  induction h with
  | finished kept => exact hnext _ _ _ (List.Subset.refl _) kept
  | yielded kept visit rest ih =>
      refine .yielded kept visit fun c' s' hs => ih c' s' hs fun later c s hlater => ?_
      exact hnext later c s (List.Subset.trans (List.subset_append_left _ _) hlater)

theorem keeps_gather {α : Type} {search : α → σ → Traversal σ} {l : List α} {s : σ}
    (h : ∀ a ∈ l, ∀ later c s, before ⊆ later → K c s → (search a s).Keeps K P later c)
    (hs : K c s) : (gather search l s).Keeps K P before c := by
  induction l generalizing before c s with
  | nil => exact .finished hs
  | cons a l ih =>
      obtain ⟨hfirst, hrest⟩ := List.forall_mem_cons.1 h
      refine (hfirst before c s (List.Subset.refl _) hs).andThen fun later c s hlater hs => ?_
      exact ih (fun a ha _ c s hl => hrest a ha _ c s (List.Subset.trans hlater hl)) hs

/-- As long as whoever takes the visits leaves the machine in a state of `K`, these are the visits,
one after the other. -/
inductive Lists (K : σ → Prop) : List Visit → Traversal σ → Prop
  | finished {s : σ} (kept : K s) : Lists K [] (.finished s)
  | yielded {v : Visit} {vs : List Visit} {s : σ} {resume : σ → Traversal σ} (kept : K s)
      (rest : ∀ s', K s' → Lists K vs (resume s')) : Lists K (v :: vs) (.yielded v s resume)

theorem Lists.andThen {K : σ → Prop} {us vs : List Visit} (h : t.Lists K us)
    {next : σ → Traversal σ} (hnext : ∀ s, K s → (next s).Lists K vs) :
    (t.andThen next).Lists K (us ++ vs) := by
  induction h with
  | finished kept => exact hnext _ kept
  | yielded kept rest ih => exact .yielded kept fun s' hs => ih s' hs

/-- In particular these are the visits of a traversal that is not paused. -/
theorem Lists.collect_eq {K : σ → Prop} {vs : List Visit} (h : t.Lists K vs) :
    t.collect.1 = vs := by
  induction h with
  | finished kept => rfl
  | yielded kept rest ih => exact congrArg _ (ih _ kept)

end Traversal

namespace Walk

variable {w : Walk} {K : γ → σ → Prop} {D : List Visit → Path → Prop}
  {P : List Visit → Visit → Prop} {before : List Visit} {c : γ} {s : σ}

/-- A path below a root is seen as the names that lead to it. -/
theorem relativeTo_below (root : Path) (y : List Name) :
    relativeTo root (root.below y) = .ofNames y := by
  rw [relativeTo, Path.stripPrefix?_below, Option.getD_some]

/-- What is asked of the machine leaves it in its class. Given some visits, directories of `D` may
be entered, and their observed entries are visits of `P`; a directory that was visited may be
entered. -/
structure Keeping (host : Host σ) (w : Walk) (K : γ → σ → Prop) (D : List Visit → Path → Prop)
    (P : List Visit → Visit → Prop) : Prop where
  metadata : ∀ c p s, K c s → K c (host.metadata p s).2
  target : ∀ c p s, K c s → K c (host.target p s).2
  readDirectory : ∀ c p s, K c s → K c (host.readDirectory p s).2
  mono : ∀ before later, before ⊆ later →
    (∀ p, D before p → D later p) ∧ ∀ v, P before v → P later v
  root : ∀ before, D before w.root
  first : ∀ isDirectory looked, P [] (w.visit w.root isDirectory looked)
  entry : ∀ before dir c s es e, D before dir → K c s → (host.readDirectory dir s).1 = .ok es →
    e ∈ es → w.filter.allows (relativeTo w.root (dir.child e.name)) = true → ∀ looked,
      let v := w.visit (dir.child e.name) e.isDirectory looked
      P before v ∧ (e.isDirectory = true → D (before ++ [v]) (dir.child e.name))

theorem Keeping.offer (h : Keeping host w K D P) {p : Path} {isDirectory : Bool}
    (hp : ∀ looked, P before (w.visit p isDirectory looked)) (hs : K c s) :
    (w.offer host p isDirectory s).Keeps K P before c := by
  unfold Walk.offer
  split
  · exact .finished hs
  · exact .yielded (h.metadata c p s hs) (hp _) fun _ _ hs => .finished hs

/-- A search goes below directories of `D`. -/
def Searches (K : γ → σ → Prop) (D : List Visit → Path → Prop) (P : List Visit → Visit → Prop)
    (search : Path → σ → Traversal σ) : Prop :=
  ∀ before c dir s, D before dir → K c s → (search dir s).Keeps K P before c

theorem Keeping.enter (h : Keeping host w K D P) {search : Path → σ → Traversal σ}
    (hsearch : Searches K D P search) {dir : Path} {e : DirectoryEntry}
    (he : ∀ looked, let v := w.visit (dir.child e.name) e.isDirectory looked
      P before v ∧ (e.isDirectory = true → D (before ++ [v]) (dir.child e.name)))
    (hs : K c s) : (w.enter host search dir e s).Keeps K P before c := by
  unfold Walk.enter
  cases hd : e.isDirectory with
  | false =>
      rw [hd] at he
      exact (h.offer (fun looked => (he looked).1) hs).andThen fun _ _ _ _ hs => .finished hs
  | true =>
      -- a directory is always yielded, and so it has been visited when it is entered
      rw [hd] at he
      have hyields : w.offer host (dir.child e.name) true s =
          .yielded (w.visit (dir.child e.name) true (host.metadata (dir.child e.name) s).1)
            (host.metadata (dir.child e.name) s).2 .finished := by
        simp [Walk.offer]
      obtain ⟨hP, hD⟩ := he (host.metadata (dir.child e.name) s).1
      rw [hyields]
      refine .yielded (h.metadata c _ s hs) hP fun c' s' hs' => ?_
      exact hsearch _ c' _ s' (hD rfl) hs'

theorem Keeping.level (h : Keeping host w K D P) {search : Path → σ → Traversal σ}
    (hsearch : Searches K D P search) : Searches K D P (w.level host search) := by
  intro before c dir s₀ hd hs₀
  unfold Walk.level
  split
  · exact .finished hs₀
  have hread := h.readDirectory c dir s₀ hs₀
  split
  · next he =>
      rw [he] at hread
      exact .finished hread
  · next es s' he =>
      rw [he] at hread
      refine Traversal.keeps_gather (fun e hmem later c' s hlater hs => ?_) hread
      obtain ⟨hmem, hallows⟩ := List.mem_filter.1 hmem
      have hentry := h.entry before dir c s₀ es e hd hs₀ (congrArg Prod.fst he) hmem hallows
      refine h.enter hsearch (fun looked => ?_) hs
      obtain ⟨hP, hD⟩ := hentry looked
      refine ⟨(h.mono before later hlater).2 _ hP, fun hdir => ?_⟩
      refine (h.mono _ _ (List.append_subset.2 ⟨?_, List.subset_append_right _ _⟩)).1 _ (hD hdir)
      exact List.Subset.trans hlater (List.subset_append_left _ _)

theorem Keeping.below (h : Keeping host w K D P) (room : Nat) :
    Searches K D P (w.below host room) := by
  induction room with
  | zero => exact h.level fun _ _ _ _ _ hs => .finished hs
  | succ room ih => exact h.level ih

theorem Keeping.entrance (h : Keeping host w K D P) (hs : K c s) : K c (w.entrance host s).2 := by
  have hm := h.metadata c w.root s hs
  unfold Walk.entrance
  split
  · next he =>
      rw [he] at hm
      exact hm
  next m s' he =>
  rw [he] at hm
  have ht := h.target c w.root s' hm
  split
  · exact hm
  split
  · exact hm
  split
  · next he =>
      rw [he] at ht
      exact ht
  · next he =>
      rw [he] at ht
      exact ht

/-- Every walk keeps to what its single steps keep to. -/
theorem Keeping.traverse (h : Keeping host w K D P) (hs : K c s) :
    (w.traverse host s).Keeps K P [] c := by
  have he := h.entrance hs
  unfold Walk.traverse
  split
  · next hn =>
      rw [hn] at he
      exact .finished he
  next isDirectory descends s' hn =>
  rw [hn] at he
  have hfirst : (if w.includeRoot then w.offer host w.root isDirectory s'
      else .finished s').Keeps K P [] c := by
    split
    · exact h.offer (h.first isDirectory) he
    · exact .finished he
  refine hfirst.andThen fun later c s _ hs => ?_
  split
  · exact h.below _ later c w.root s (h.root later) hs
  · exact .finished hs

end Walk

end DirWatch
