/-! # Finite maps in key order

Keys are compared by `compare`, so keys that compare as equal are one key and the key that came
first is the one kept. Two maps with the same look-ups up to their keys hold the same values. -/

namespace DirWatch

universe u v

/-- A finite map listed in strictly increasing order of its keys. -/
structure OrderedMap (κ : Type u) (β : Type v) [Ord κ] where
  entries : List (κ × β) := []
  ordered : entries.Pairwise (fun a b => compare a.1 b.1 = .lt) := by exact .nil

namespace OrderedMap

variable {κ : Type u} {β : Type v} [Ord κ]

instance : Inhabited (OrderedMap κ β) := ⟨{}⟩
instance : EmptyCollection (OrderedMap κ β) := ⟨{}⟩

@[ext] theorem ext {m n : OrderedMap κ β} (h : m.entries = n.entries) : m = n := by
  cases m; cases n; cases h; rfl

instance [DecidableEq κ] [DecidableEq β] : DecidableEq (OrderedMap κ β) := fun m n =>
  if h : m.entries = n.entries then isTrue (ext h) else isFalse fun e => h (e ▸ rfl)

/-- The keys in increasing order. -/
def keys (m : OrderedMap κ β) : List κ := m.entries.map (·.1)

/-- How many keys there are. -/
def size (m : OrderedMap κ β) : Nat := m.entries.length

def isEmpty (m : OrderedMap κ β) : Bool := m.entries.isEmpty

/-- The value stored at a key. -/
def get? (m : OrderedMap κ β) (k : κ) : Option β :=
  (m.entries.find? fun e => compare k e.1 == .eq).map (·.2)

def contains (m : OrderedMap κ β) (k : κ) : Bool := (m.get? k).isSome

/-- Puts a pair at its place in the order; an equal key stays and takes the new value. -/
def insertEntry (k : κ) (b : β) : List (κ × β) → List (κ × β)
  | [] => [(k, b)]
  | e :: rest =>
    match compare k e.1 with
    | .lt => (k, b) :: e :: rest
    | .eq => (e.1, b) :: rest
    | .gt => e :: insertEntry k b rest

/-- Keeps the pairs that satisfy a test. -/
def filter (p : κ → β → Bool) (m : OrderedMap κ β) : OrderedMap κ β where
  entries := m.entries.filter fun e => p e.1 e.2
  ordered := m.ordered.filter _

/-- Drops a key. -/
def erase (m : OrderedMap κ β) (k : κ) : OrderedMap κ β :=
  m.filter fun k' _ => compare k k' != .eq

/-- Replaces every value, keeping the keys. -/
def map {γ : Type v} (f : κ → β → γ) (m : OrderedMap κ β) : OrderedMap κ γ where
  entries := m.entries.map fun e => (e.1, f e.1 e.2)
  ordered := by
    rw [List.pairwise_map]
    exact m.ordered

@[simp] theorem entries_empty : (∅ : OrderedMap κ β).entries = [] := rfl

@[simp] theorem get?_empty (k : κ) : (∅ : OrderedMap κ β).get? k = none := rfl

section Transitive

variable [Std.TransOrd κ]

theorem insertEntry_keys {k : κ} {b : β} {l : List (κ × β)} {e : κ × β}
    (h : e ∈ insertEntry k b l) : compare e.1 k = .eq ∨ e ∈ l := by
  induction l with
  | nil =>
    simp only [insertEntry, List.mem_singleton] at h
    subst h
    exact .inl Std.ReflCmp.compare_self
  | cons a rest ih =>
    unfold insertEntry at h
    split at h
    · rcases List.mem_cons.1 h with rfl | h
      · exact .inl Std.ReflCmp.compare_self
      · exact .inr h
    · next he =>
      rcases List.mem_cons.1 h with rfl | h
      · exact .inl (Std.OrientedCmp.eq_symm he)
      · exact .inr (List.mem_cons_of_mem _ h)
    · rcases List.mem_cons.1 h with rfl | h
      · exact .inr List.mem_cons_self
      · exact (ih h).imp id (List.mem_cons_of_mem _)

theorem insertEntry_ordered (k : κ) (b : β) {l : List (κ × β)}
    (h : l.Pairwise fun a b => compare a.1 b.1 = .lt) :
    (insertEntry k b l).Pairwise fun a b => compare a.1 b.1 = .lt := by
  induction l with
  | nil => exact List.pairwise_singleton _ _
  | cons a rest ih =>
    have ha := List.pairwise_cons.1 h
    unfold insertEntry
    split
    · next hlt =>
      refine List.pairwise_cons.2 ⟨?_, h⟩
      intro e he
      rcases List.mem_cons.1 he with rfl | he
      · exact hlt
      · exact Std.TransCmp.lt_trans hlt (ha.1 e he)
    · exact List.pairwise_cons.2 ⟨ha.1, ha.2⟩
    · next hgt =>
      refine List.pairwise_cons.2 ⟨?_, ih ha.2⟩
      intro e he
      rcases insertEntry_keys he with heq | he
      · exact Std.TransCmp.lt_of_lt_of_eq (Std.OrientedCmp.lt_of_gt hgt)
          (Std.OrientedCmp.eq_symm heq)
      · exact ha.1 e he

/-- Stores a value at a key. -/
def insert (m : OrderedMap κ β) (k : κ) (b : β) : OrderedMap κ β where
  entries := insertEntry k b m.entries
  ordered := insertEntry_ordered k b m.ordered

/-- The map of a list of pairs, where a later pair wins over an earlier one with its key. -/
def ofList (l : List (κ × β)) : OrderedMap κ β :=
  l.foldl (fun m e => m.insert e.1 e.2) ∅

theorem find?_insertEntry (k k' : κ) (b : β) (l : List (κ × β)) :
    ((insertEntry k b l).find? fun e => compare k' e.1 == .eq).map (·.2)
      = if compare k' k = .eq then some b
        else (l.find? fun e => compare k' e.1 == .eq).map (·.2) := by
  induction l with
  | nil => by_cases h : compare k' k = .eq <;> simp [insertEntry, h]
  | cons a rest ih =>
    unfold insertEntry
    split
    · by_cases h : compare k' k = .eq <;> simp [List.find?_cons, h]
    · next he =>
      have hk : compare k' a.1 = compare k' k := (Std.TransCmp.congr_right he).symm
      by_cases h : compare k' k = .eq <;> simp [hk, h]
    · next hgt =>
      rw [List.find?_cons, List.find?_cons]
      by_cases h : compare k' a.1 = .eq
      · have hne : compare k' k ≠ .eq := by
          intro hk
          rw [Std.TransCmp.congr_left (Std.OrientedCmp.eq_symm hk), h] at hgt
          exact absurd hgt (by decide)
        simp [h, hne]
      · simp only [beq_eq_false_iff_ne.2 h]
        exact ih

@[simp] theorem get?_insert (m : OrderedMap κ β) (k k' : κ) (b : β) :
    (m.insert k b).get? k' = if compare k' k = .eq then some b else m.get? k' :=
  find?_insertEntry k k' b m.entries

@[simp] theorem get?_erase (m : OrderedMap κ β) (k k' : κ) :
    (m.erase k).get? k' = if compare k' k = .eq then none else m.get? k' := by
  obtain ⟨l, hl⟩ := m
  simp only [get?, erase, filter]
  induction l with
  | nil => simp
  | cons a rest ih =>
    have ih := ih (List.pairwise_cons.1 hl).2
    by_cases hk : compare k a.1 = .eq
    · rw [List.filter_cons_of_neg (by simp [hk]), ih, List.find?_cons]
      by_cases h : compare k' k = .eq
      · simp [h]
      · have hne : compare k' a.1 ≠ .eq := fun he =>
          h (Std.TransCmp.eq_trans he (Std.OrientedCmp.eq_symm hk))
        rw [beq_eq_false_iff_ne.2 hne]
    · rw [List.filter_cons_of_pos (by simp [hk]), List.find?_cons, List.find?_cons]
      by_cases he : compare k' a.1 = .eq
      · have h : compare k' k ≠ .eq := fun h => hk (by rwa [← Std.TransCmp.congr_left h])
        simp [h, he]
      · rw [beq_eq_false_iff_ne.2 he]
        exact ih

/-- A pair of the map is what a look-up of its key finds. -/
theorem get?_of_mem {m : OrderedMap κ β} {k : κ} {b : β} (h : (k, b) ∈ m.entries) :
    m.get? k = some b := by
  obtain ⟨l, hl⟩ := m
  simp only [get?] at *
  induction l with
  | nil => cases h
  | cons a rest ih =>
    have ha := List.pairwise_cons.1 hl
    rcases List.mem_cons.1 h with rfl | h
    · simp
    · have hlt := ha.1 _ h
      have hne : compare k a.1 ≠ .eq := by
        rw [Std.OrientedOrd.eq_swap, hlt]
        decide
      rw [List.find?_cons, beq_eq_false_iff_ne.2 hne]
      exact ih ha.2 h

omit [Std.TransOrd κ] in
/-- What a look-up finds is stored under a key equal to the one asked for. -/
theorem exists_mem_of_get? {m : OrderedMap κ β} {k : κ} {b : β} (h : m.get? k = some b) :
    ∃ k', compare k k' = .eq ∧ (k', b) ∈ m.entries := by
  obtain ⟨e, he, rfl⟩ := Option.map_eq_some_iff.1 h
  exact ⟨e.1, by simpa using List.find?_some he, List.mem_of_find?_eq_some he⟩

omit [Std.TransOrd κ] in
theorem size_erase_lt {m : OrderedMap κ β} {k : κ} (h : m.contains k) :
    (m.erase k).size < m.size := by
  obtain ⟨b, hb⟩ := Option.isSome_iff_exists.1 h
  obtain ⟨k', hk, hm⟩ := exists_mem_of_get? hb
  exact List.length_filter_lt_length_iff_exists.2 ⟨_, hm, by simp [hk]⟩

end Transitive

end OrderedMap

end DirWatch
