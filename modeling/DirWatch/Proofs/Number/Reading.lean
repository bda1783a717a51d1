import DirWatch.Number.Reading
import Mathlib

/-! # The characters of numbers

What is read as a number consists of letters, digits, signs and points, so that a text with any
other character, such as a slash or a comma, is never one. -/

namespace DirWatch.Number

/-- Whether a character can stand in a number. -/
def isMark (c : Char) : Bool := c.isAlphanum || c == '+' || c == '-' || c == '.'

theorem isMark_of_isDigit {c : Char} (h : c.isDigit = true) : isMark c = true := by
  simp [isMark, Char.isAlphanum, h]

/-- A word of letters is one of letters in any case. -/
theorem isMark_of_map_toLower {cs word : List Char} (h : cs.map Char.toLower = word)
    (hword : word.all Char.isAlpha = true) : ∀ c ∈ cs, isMark c = true := by
  intro c hc
  have hlower : c.toLower.isAlpha = true :=
    List.all_eq_true.1 hword _ (h ▸ List.mem_map_of_mem hc)
  rw [Char.isAlpha_toLower_eq_isAlpha] at hlower
  rw [isMark, Char.isAlphanum, hlower]
  rfl

theorem isMark_of_natural? {cs : List Char} {n : Nat} (h : natural? cs = some n) :
    ∀ c ∈ cs, isMark c = true := by
  rw [natural?, Option.ite_none_right_eq_some, List.all_eq_true] at h
  exact fun c hc => isMark_of_isDigit (h.1.2 c hc)

theorem isMark_of_splitSign {cs : List Char} (h : ∀ c ∈ (splitSign cs).2, isMark c = true) :
    ∀ c ∈ cs, isMark c = true := by
  unfold splitSign at h
  split at h
  · exact List.forall_mem_cons.2 ⟨rfl, h⟩
  · exact List.forall_mem_cons.2 ⟨rfl, h⟩
  · exact h

theorem isMark_of_readInt64? {cs : List Char} {i : Int} (h : readInt64? cs = some i) :
    ∀ c ∈ cs, isMark c = true := by
  obtain ⟨n, hn, -⟩ := Option.bind_eq_some_iff.1 h
  exact isMark_of_splitSign (isMark_of_natural? hn)

theorem isMark_of_exponent? {cs : List Char} {e : Int} (h : exponent? cs = some e) :
    ∀ c ∈ cs, isMark c = true := by
  cases cs with
  | nil => simp
  | cons c rest =>
      rw [exponent?, Option.ite_none_right_eq_some, Option.map_eq_some_iff] at h
      obtain ⟨hc, i, hi, -⟩ := h
      obtain ⟨n, hn, -⟩ := Option.bind_eq_some_iff.1 hi
      refine List.forall_mem_cons.2 ⟨?_, isMark_of_splitSign (isMark_of_natural? hn)⟩
      rcases Bool.or_eq_true_iff.1 hc with hc | hc <;> rw [of_decide_eq_true hc] <;> rfl

theorem isMark_of_splitFraction {cs : List Char}
    (h : ∀ c ∈ (splitFraction cs).2, isMark c = true) : ∀ c ∈ cs, isMark c = true := by
  unfold splitFraction at h
  split at h
  · next rest =>
    refine List.forall_mem_cons.2 ⟨rfl, ?_⟩
    rw [← List.takeWhile_append_dropWhile (p := Char.isDigit) (l := rest)]
    exact List.forall_mem_append.2 ⟨fun c hc => isMark_of_isDigit (List.mem_takeWhile_imp hc), h⟩
  · exact h

theorem isMark_of_decimal? {cs : List Char} {d : Decimal} (h : decimal? cs = some d) :
    ∀ c ∈ cs, isMark c = true := by
  rw [decimal?, Option.ite_none_left_eq_some, Option.map_eq_some_iff] at h
  obtain ⟨-, e, he, -⟩ := h
  rw [← List.takeWhile_append_dropWhile (p := Char.isDigit) (l := cs)]
  exact List.forall_mem_append.2 ⟨fun c hc => isMark_of_isDigit (List.mem_takeWhile_imp hc),
    isMark_of_splitFraction (isMark_of_exponent? he)⟩

theorem isMark_of_readBinary64? {cs : List Char} {x : Binary64} (h : readBinary64? cs = some x) :
    ∀ c ∈ cs, isMark c = true := by
  refine isMark_of_splitSign ?_
  simp only [readBinary64?] at h
  split at h
  · next hword =>
    rcases hword with hword | hword <;> exact isMark_of_map_toLower hword rfl
  · split at h
    · next hword => exact isMark_of_map_toLower hword rfl
    · obtain ⟨d, hd, -⟩ := Option.map_eq_some_iff.1 h
      exact isMark_of_decimal? hd

end DirWatch.Number
