import DirWatch.Proofs.Path.Below
import DirWatch.PendingSet

/-! # When a pending set is due

A pending set is made of marks, each with its time. It is due a quiet time after the last mark, and
at the latest a longest delay after the first one. -/

namespace DirWatch

namespace PendingSet

/-- Marks directories at one time. -/
def insertAll (now : Instant) (dirs : List Path) (s : PendingSet) : PendingSet :=
  dirs.foldl (fun s dir => (s.insert now dir).2) s

/-- The set that some marks make, each given with its time. -/
def ofMarks (marks : List (Instant × Path)) : PendingSet :=
  marks.foldl (fun s m => (s.insert m.1 m.2).2) {}

theorem insertAll_ofMarks (marks : List (Instant × Path)) (now : Instant) (dirs : List Path) :
    (ofMarks marks).insertAll now dirs = ofMarks (marks ++ dirs.map (now, ·)) := by
  rw [ofMarks, ofMarks, List.foldl_append, List.foldl_map]
  rfl

theorem ofMarks_concat (marks : List (Instant × Path)) (m : Instant × Path) :
    ofMarks (marks ++ [m]) = ((ofMarks marks).insert m.1 m.2).2 := by
  simp [ofMarks]

theorem firstMarked_insert (s : PendingSet) (now : Instant) (dir : Path) :
    (s.insert now dir).2.firstMarked = some (s.firstMarked.getD now) := by
  unfold insert
  dsimp only
  split <;> rfl

theorem lastMarked_insert (s : PendingSet) (now : Instant) (dir : Path) :
    (s.insert now dir).2.lastMarked = some now := by
  unfold insert
  dsimp only
  split <;> rfl

theorem contains_iff {s : PendingSet} {dir : Path} :
    s.contains dir = true ↔ ∃ q ∈ s.order, dir.same q = true := by
  rw [contains, s.agree, List.any_eq_true]

theorem order_insert (s : PendingSet) (now : Instant) (dir : Path) :
    (s.insert now dir).2.order = if s.contains dir then s.order else s.order ++ [dir] := by
  by_cases h : s.members.contains dir = true <;> simp [insert, contains, h]

theorem isEmpty_insert (s : PendingSet) (now : Instant) (dir : Path) :
    (s.insert now dir).2.isEmpty = false := by
  rw [isEmpty, order_insert]
  split
  · next h =>
      obtain ⟨q, hq, -⟩ := contains_iff.1 h
      exact List.isEmpty_eq_false_iff_exists_mem.2 ⟨q, hq⟩
  · exact List.isEmpty_eq_false_iff_exists_mem.2 ⟨dir, List.mem_append_right _ (by simp)⟩

/-- A set keeps the time of its first mark. -/
theorem firstMarked_ofMarks (marks : List (Instant × Path)) :
    (ofMarks marks).firstMarked = marks.head?.map (·.1) := by
  induction marks using List.reverseRecOn with
  | nil => rfl
  | append_singleton marks m ih =>
      rw [ofMarks_concat, firstMarked_insert, ih]
      cases marks <;> rfl

/-- A set keeps the time of its last mark. -/
theorem lastMarked_ofMarks (marks : List (Instant × Path)) :
    (ofMarks marks).lastMarked = marks.getLast?.map (·.1) := by
  rcases List.eq_nil_or_concat' marks with rfl | ⟨marks, m, rfl⟩
  · rfl
  · rw [ofMarks_concat, lastMarked_insert, List.getLast?_concat]
    rfl

theorem isEmpty_ofMarks (marks : List (Instant × Path)) :
    (ofMarks marks).isEmpty = marks.isEmpty := by
  rcases List.eq_nil_or_concat' marks with rfl | ⟨marks, m, rfl⟩
  · rfl
  · rw [ofMarks_concat, isEmpty_insert]
    simp

section Deadline

variable {marks : List (Instant × Path)} {first last : Instant × Path} {idle longest : Nat}

theorem deadline_ofMarks_nil : (ofMarks []).deadline idle longest = none := rfl

/-- The first mark bounds how long a set waits, and the last one how long it is quiet. -/
theorem deadline_ofMarks (hf : marks.head? = some first) (hl : marks.getLast? = some last) :
    (ofMarks marks).deadline idle longest =
      some (min (last.1 + idle) (first.1 + longest)) := by
  rw [deadline, firstMarked_ofMarks, lastMarked_ofMarks, hf, hl]
  rfl

theorem exists_of_deadline_ofMarks {due : Instant}
    (h : (ofMarks marks).deadline idle longest = some due) :
    ∃ first last, marks.head? = some first ∧ marks.getLast? = some last ∧
      due = min (last.1 + idle) (first.1 + longest) := by
  cases marks with
  | nil => cases h
  | cons first marks =>
      obtain ⟨last, hlast⟩ : ∃ last, (first :: marks).getLast? = some last :=
        ⟨_, List.getLast?_eq_getLast_of_ne_nil (List.cons_ne_nil first marks)⟩
      rw [deadline_ofMarks (show (first :: marks).head? = some first from rfl) hlast] at h
      exact ⟨first, last, rfl, hlast, (Option.some.inj h).symm⟩

/-- The first of some marks in the order of time is not later than the last. -/
theorem first_le_last (hm : marks.Pairwise fun a b => a.1 ≤ b.1) (hf : marks.head? = some first)
    (hl : marks.getLast? = some last) : first.1 ≤ last.1 := by
  cases marks with
  | nil => cases hf
  | cons m marks =>
      obtain rfl := Option.some.inj hf
      rcases List.mem_cons.1 (List.mem_of_getLast? hl) with rfl | hlast
      · exact Nat.le_refl _
      · exact List.rel_of_pairwise_cons hm hlast

end Deadline

end PendingSet

end DirWatch
