import DirWatch.Proofs.Mirror
import DirWatch.Proofs.Path.Below
import Mathlib.Data.Set.Insert

/-! # A replica of the tracked tree

A listener that starts with the tracked entries can replay the notifications: it adds what is
created and removes what is deleted. A view of the tree, with its times left out, is such a
replica. -/

namespace DirWatch

/-- Entries by the components of their paths below the root, each with whether it is a directory. -/
abbrev Replica := Set (List Component × Bool)

namespace Replica

/-- A change comes when it fits: a new entry is not held and its parent is the root or a directory
that is held, a deleted entry is held with exactly its kind, and an updated entry is held as a
file. -/
def Accepts (R : Replica) (c : Change) : Prop :=
  match c.kind with
  | .created => (∀ f, (c.path.components, f) ∉ R) ∧
      ∃ parent n, c.path.components = parent ++ [n] ∧ (parent = [] ∨ (parent, true) ∈ R)
  | .updated => c.isDirectory = false ∧ ∀ f, (c.path.components, f) ∈ R ↔ f = false
  | .deleted => ∀ f, (c.path.components, f) ∈ R ↔ f = c.isDirectory

/-- The replica after a change. -/
def after (R : Replica) (c : Change) : Replica :=
  match c.kind with
  | .created => insert (c.path.components, c.isDirectory) R
  | .updated => R
  | .deleted => R \ {(c.path.components, c.isDirectory)}

/-- Each change comes when it fits. -/
def AcceptsAll : Replica → List Change → Prop
  | _, [] => True
  | R, c :: cs => R.Accepts c ∧ (R.after c).AcceptsAll cs

/-- The replica after some changes. -/
def afterAll (R : Replica) (cs : List Change) : Replica := cs.foldl after R

theorem acceptsAll_append {R : Replica} {cs ds : List Change} :
    R.AcceptsAll (cs ++ ds) ↔ R.AcceptsAll cs ∧ (R.afterAll cs).AcceptsAll ds := by
  induction cs generalizing R with
  | nil => simp [AcceptsAll, afterAll]
  | cons c cs ih =>
      rw [List.cons_append, AcceptsAll, AcceptsAll, ih, and_assoc]
      rfl

theorem afterAll_append (R : Replica) (cs ds : List Change) :
    R.afterAll (cs ++ ds) = (R.afterAll cs).afterAll ds :=
  List.foldl_append

end Replica

namespace Mirror

/-- What a view holds, the times left out. -/
def replica (M : Mirror) : Replica :=
  {e | ∃ y n k, M y n = some k ∧ e = ((y ++ [n]).map .name, k.isDirectory)}

theorem mem_replica {M : Mirror} {y : List Name} {n : Name} {f : Bool} :
    ((y ++ [n]).map .name, f) ∈ M.replica ↔ (M y n).map (·.isDirectory) = some f := by
  simp only [replica, Set.mem_ofPred_eq, Option.map_eq_some_iff, Prod.mk.injEq]
  constructor
  · rintro ⟨z, m, k, hk, he, rfl⟩
    obtain ⟨rfl, rfl⟩ := Path.map_name_concat_inj.1 he
    exact ⟨k, hk, rfl⟩
  · rintro ⟨k, hk, rfl⟩
    exact ⟨y, n, k, hk, rfl, rfl⟩

/-- News of one entry leave the others alone. -/
theorem mem_replica_set {M : Mirror} {y : List Name} {n : Name} {o : Option Known}
    {e : List Component × Bool} :
    e ∈ (M.set y n o).replica ↔
      (e.1 = (y ++ [n]).map .name ∧ o.map (·.isDirectory) = some e.2) ∨
        (e.1 ≠ (y ++ [n]).map .name ∧ e ∈ M.replica) := by
  by_cases hp : ∃ z m, e.1 = (z ++ [m]).map .name
  · obtain ⟨z, m, hz⟩ := hp
    obtain ⟨p, f⟩ := e
    obtain rfl : p = _ := hz
    rw [mem_replica, mem_replica]
    by_cases he : z = y ∧ m = n
    · obtain ⟨rfl, rfl⟩ := he
      simp
    · have hne : (z ++ [m]).map Component.name ≠ (y ++ [n]).map .name := by
        rwa [ne_eq, Path.map_name_concat_inj]
      have hset : M.set y n o z m = M z m := by
        by_cases hz : z = y
        · subst hz
          exact set_entry M z o fun hm => he ⟨rfl, hm⟩
        · rw [set_other M n o hz]
      rw [hset]
      simp only [hne, false_and, ne_eq, not_false_eq_true, true_and, false_or]
  · -- what is no entry of a directory is in neither
    have hno : ∀ N : Mirror, e ∉ N.replica := by
      rintro N ⟨z, m, k, -, rfl⟩
      exact hp ⟨z, m, rfl⟩
    constructor
    · exact fun h => absurd h (hno _)
    · rintro (⟨h, -⟩ | ⟨-, h⟩)
      · exact absurd ⟨y, n, h⟩ hp
      · exact absurd h (hno _)

/-- What takes a view to the next one fits the replica, and takes it along. -/
theorem Step.accepts {M M' : Mirror} {e : Event} (h : Step M e M') {c : Change}
    (hc : c.view = e.view) : M.replica.Accepts c ∧ M.replica.after c = M'.replica := by
  obtain ⟨kind, path, flag⟩ := c
  cases h with
  | @created y n k unknown parent =>
      obtain ⟨rfl, hp, rfl⟩ := And.imp_right Prod.mk.inj (Prod.mk.inj hc)
      change path.components = _ at hp
      constructor
      · refine ⟨?_, y.map .name, .name n, ?_, ?_⟩
        · intro f
          rw [hp, mem_replica, unknown]
          simp
        · rw [hp, List.map_append]
          rfl
        · rcases List.eq_nil_or_concat' y with rfl | ⟨z, m, rfl⟩
          · exact .inl rfl
          · refine .inr (mem_replica.2 ?_)
            rw [parent z m rfl]
            rfl
      · ext ⟨q, f⟩
        have hout : (path.components, f) ∉ M.replica := by
          rw [hp, mem_replica, unknown]
          simp
        rw [mem_replica_set, ← hp]
        by_cases hq : q = path.components
        · subst hq
          simp [Replica.after, hout, eq_comm]
        · simp [Replica.after, hq]
  | @updated y n t t' known changed =>
      obtain ⟨rfl, hp, rfl⟩ := And.imp_right Prod.mk.inj (Prod.mk.inj hc)
      change path.components = _ at hp
      have hin : ∀ f, (path.components, f) ∈ M.replica ↔ f = false := by
        intro f
        rw [hp, mem_replica, known]
        simp [eq_comm]
      refine ⟨⟨rfl, hin⟩, ?_⟩
      ext ⟨q, f⟩
      rw [mem_replica_set, ← hp]
      by_cases hq : q = path.components
      · subst hq
        simp [Replica.after, hin, eq_comm]
      · simp [Replica.after, hq]
  | @deleted y n k known =>
      obtain ⟨rfl, hp, rfl⟩ := And.imp_right Prod.mk.inj (Prod.mk.inj hc)
      change path.components = _ at hp
      have hin : ∀ f, (path.components, f) ∈ M.replica ↔ f = k.isDirectory := by
        intro f
        rw [hp, mem_replica, known]
        simp [eq_comm]
      refine ⟨hin, ?_⟩
      ext ⟨q, f⟩
      rw [mem_replica_set, ← hp]
      by_cases hq : q = path.components
      · subst hq
        simp [Replica.after, hin]
      · simp [Replica.after, hq]

/-- The same for changes in turn. -/
theorem Plays.accepts {M M' : Mirror} {es : List Event} (h : Plays M es M') {cs : List Change}
    (hc : cs.map Change.view = es.map Event.view) :
    M.replica.AcceptsAll cs ∧ M.replica.afterAll cs = M'.replica := by
  induction h generalizing cs with
  | nil M =>
      obtain rfl := List.map_eq_nil_iff.1 hc
      exact ⟨trivial, rfl⟩
  | @cons M M' M'' e es head tail ih =>
      obtain ⟨c, cs, rfl, hv, hvs⟩ := List.map_eq_cons_iff.1 hc
      obtain ⟨hfits, hnext⟩ := head.accepts hv
      obtain ⟨hall, hafter⟩ := ih hvs
      rw [← hnext] at hall hafter
      exact ⟨⟨hfits, hall⟩, hafter⟩

end Mirror

end DirWatch
