import DirWatch.Document.Moment

/-! # Documents

A document is a value made of texts, numbers, lists and tables. A table lists its keys once each, in
the order in which they came. -/

namespace DirWatch.Document

inductive Value where
  | null
  | flag (b : Bool)
  | integer (i : Int)
  | number (x : Binary64)
  | moment (m : Moment)
  | text (s : String)
  | list (items : List Value)
  | table (entries : List (String × Value))
  deriving Inhabited

namespace Value

/-- The value at a key of a table. -/
def find? (key : String) : List (String × Value) → Option Value
  | [] => none
  | (k, v) :: rest => if k = key then some v else find? key rest

/-- Stores a value at a key: in its place if the key is there, else at the end. -/
def put (key : String) (value : Value) : List (String × Value) → List (String × Value)
  | [] => [(key, value)]
  | (k, v) :: rest => if k = key then (k, value) :: rest else (k, v) :: put key value rest

@[simp] theorem find?_put (key other : String) (value : Value) (entries : List (String × Value)) :
    find? other (put key value entries)
      = if other = key then some value else find? other entries := by
  induction entries with
  | nil => simp [put, find?, eq_comm]
  | cons e rest ih =>
    obtain ⟨k, v⟩ := e
    by_cases hk : k = key
    · subst hk
      by_cases ho : other = k <;> simp [put, find?, ho, eq_comm]
    · by_cases ho : k = other
      · subst ho
        simp [put, find?, hk]
      · simp [put, find?, hk, ho, ih]

/-- The entries of a table; no other value has any. -/
def entries : Value → List (String × Value)
  | table es => es
  | _ => []

end Value

end DirWatch.Document
