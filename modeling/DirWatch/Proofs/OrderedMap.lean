import DirWatch.OrderedMap
import Mathlib.Data.List.Nodup
import Mathlib.Data.List.Sort

/-! # Look-ups in finite maps

A look-up sees the pairs of a map, and keys that compare as equal find the same value. -/

namespace DirWatch.OrderedMap

universe u v

variable {κ : Type u} {β : Type v} [Ord κ] [Std.TransOrd κ]

theorem get?_congr (m : OrderedMap κ β) {k k' : κ} (h : compare k k' = .eq) :
    m.get? k = m.get? k' := by
  have hc : ∀ e : κ × β, (compare k e.1 == .eq) = (compare k' e.1 == .eq) := by
    intro e
    rw [Std.TransCmp.congr_left h]
  simp only [get?, hc]

omit [Std.TransOrd κ] in
theorem contains_eq_isSome (m : OrderedMap κ β) (k : κ) : m.contains k = (m.get? k).isSome := rfl

theorem contains_congr (m : OrderedMap κ β) {k k' : κ} (h : compare k k' = .eq) :
    m.contains k = m.contains k' := by
  rw [contains_eq_isSome, contains_eq_isSome, m.get?_congr h]

theorem contains_iff {m : OrderedMap κ β} {k : κ} :
    m.contains k = true ↔ ∃ k' ∈ m.keys, compare k k' = .eq := by
  constructor
  · intro h
    obtain ⟨b, hb⟩ := Option.isSome_iff_exists.1 h
    obtain ⟨k', hk, hm⟩ := exists_mem_of_get? hb
    exact ⟨k', List.mem_map.2 ⟨_, hm, rfl⟩, hk⟩
  · rintro ⟨k', hm, hk⟩
    obtain ⟨⟨k'', b⟩, he, rfl⟩ := List.mem_map.1 hm
    rw [m.contains_congr hk, contains_eq_isSome, get?_of_mem he]
    rfl

theorem contains_of_mem_keys {m : OrderedMap κ β} {k : κ} (h : k ∈ m.keys) :
    m.contains k = true :=
  contains_iff.2 ⟨k, h, Std.ReflCmp.compare_self⟩

@[simp] theorem contains_insert (m : OrderedMap κ β) (k k' : κ) (b : β) :
    (m.insert k b).contains k' = (compare k' k == .eq || m.contains k') := by
  rw [contains_eq_isSome, contains_eq_isSome, get?_insert]
  split <;> simp [*]

@[simp] theorem contains_erase (m : OrderedMap κ β) (k k' : κ) :
    (m.erase k).contains k' = (compare k' k != .eq && m.contains k') := by
  rw [contains_eq_isSome, contains_eq_isSome, get?_erase]
  split <;> simp [*]

omit [Std.TransOrd κ] in
theorem get?_map {γ : Type v} (f : β → γ) (m : OrderedMap κ β) (k : κ) :
    (m.map fun _ b => f b).get? k = (m.get? k).map f := by
  simp [get?, map, List.find?_map, Function.comp_def]

omit [Std.TransOrd κ] in
@[simp] theorem contains_empty (k : κ) : (∅ : OrderedMap κ β).contains k = false := rfl

/-- A map in which nothing is found is empty. -/
theorem eq_empty_of_contains {m : OrderedMap κ β} (h : ∀ k, m.contains k = false) : m = ∅ := by
  apply ext
  cases he : m.entries with
  | nil => rfl
  | cons e rest =>
      have hm : e.1 ∈ m.keys := by simp [keys, he]
      exact absurd (contains_of_mem_keys hm) (by simp [h])

/-- Tests that agree on the keys keep the same pairs. -/
theorem filter_congr {m : OrderedMap κ β} {p q : κ → Bool}
    (h : ∀ k, m.contains k = true → p k = q k) :
    (m.filter fun k _ => p k) = m.filter fun k _ => q k := by
  apply ext
  apply List.filter_congr
  intro e he
  exact h e.1 (contains_of_mem_keys (List.mem_map_of_mem he))

omit [Std.TransOrd κ] in
theorem filter_erase (m : OrderedMap κ β) (k : κ) (p : κ → Bool) :
    ((m.erase k).filter fun k' _ => p k') = m.filter fun k' _ => compare k k' != .eq && p k' := by
  apply ext
  simp [erase, filter, List.filter_filter, Bool.and_comm]

/-- Dropping a key that is not there changes nothing. -/
theorem erase_of_get?_eq_none {m : OrderedMap κ β} {k : κ} (h : m.get? k = none) :
    m.erase k = m := by
  apply ext
  apply List.filter_eq_self.2
  intro e he
  have hk : m.get? e.1 = some e.2 := get?_of_mem he
  by_contra hne
  rw [← m.get?_congr (by simpa using hne), h] at hk
  cases hk

/-- What one map finds is a pair of another that finds the same, if keys that compare as equal are
equal. -/
theorem entries_subset_of_get? {m n : OrderedMap κ β}
    (hkeys : ∀ k ∈ m.keys, ∀ k' ∈ n.keys, compare k k' = .eq → k = k')
    (h : ∀ k b, m.get? k = some b → n.get? k = some b) : m.entries ⊆ n.entries := by
  rintro ⟨k, b⟩ he
  obtain ⟨k', hk, he'⟩ := exists_mem_of_get? (h k b (get?_of_mem he))
  rwa [hkeys k (List.mem_map_of_mem he) k' (List.mem_map_of_mem he') hk]

/-- Maps in which the same is found are the same. -/
theorem eq_of_get? {m n : OrderedMap κ β}
    (hkeys : ∀ k ∈ m.keys, ∀ k' ∈ n.keys, compare k k' = .eq → k = k')
    (h : ∀ k, m.get? k = n.get? k) : m = n := by
  let r : κ × β → κ × β → Prop := fun a b => compare a.1 b.1 = .lt
  have hirrefl : Std.Irrefl r := ⟨fun a => by simp [r]⟩
  have hantisymm : Std.Antisymm r :=
    ⟨fun a _ hab hba => absurd (Std.TransCmp.lt_trans hab hba) (hirrefl.irrefl a)⟩
  refine ext (List.Subset.antisymm_of_pairwise (r := r) m.ordered n.ordered ?_ ?_)
  · exact entries_subset_of_get? hkeys fun k b hb => h k ▸ hb
  · refine entries_subset_of_get? (fun k hk k' hk' he => ?_) fun k b hb => (h k).symm ▸ hb
    exact (hkeys k' hk' k hk (Std.OrientedCmp.eq_symm he)).symm

section Lawful

variable [Std.LawfulEqOrd κ]

theorem mem_entries_iff {m : OrderedMap κ β} {k : κ} {b : β} :
    (k, b) ∈ m.entries ↔ m.get? k = some b := by
  constructor
  · exact get?_of_mem
  · intro h
    obtain ⟨k', hk, hm⟩ := exists_mem_of_get? h
    rwa [Std.LawfulEqOrd.eq_of_compare hk]

omit [Std.LawfulEqOrd κ] in
theorem nodup_keys (m : OrderedMap κ β) : m.keys.Nodup := by
  rw [List.Nodup, keys, List.pairwise_map]
  refine m.ordered.imp ?_
  intro a b h he
  have hs : compare b.1 b.1 = .eq := Std.ReflCmp.compare_self
  rw [he, hs] at h
  exact absurd h (by decide)

theorem get?_filter (m : OrderedMap κ β) (p : κ → β → Bool) (k : κ) :
    (m.filter p).get? k = (m.get? k).filter (p k) := by
  apply Option.ext
  intro b
  rw [← mem_entries_iff, Option.filter_eq_some_iff, ← mem_entries_iff]
  simp [filter]

/-- Storing pairs in turn, the last pair of a key decides. With distinct keys it is the only one. -/
theorem get?_foldl_insert {γ : Type*} (f : κ × γ → β) {l : List (κ × γ)}
    (hl : (l.map (·.1)).Nodup) (m : OrderedMap κ β) (k : κ) (b : β) :
    (l.foldl (fun m e => m.insert e.1 (f e)) m).get? k = some b ↔
      (∃ c, (k, c) ∈ l ∧ f (k, c) = b) ∨ ((∀ c, (k, c) ∉ l) ∧ m.get? k = some b) := by
  induction l generalizing m with
  | nil => simp
  | cons e l ih =>
      obtain ⟨k', c'⟩ := e
      obtain ⟨he, hl⟩ := List.nodup_cons.1 hl
      have he : ∀ c, (k', c) ∉ l := by simpa using he
      rw [List.foldl_cons, ih hl, get?_insert]
      simp only [Std.LawfulEqOrd.compare_eq_iff_eq]
      by_cases hk : k = k'
      · subst hk
        simp [he]
      · simp [hk]

theorem get?_ofList {l : List (κ × β)} (hl : (l.map (·.1)).Nodup) (k : κ) (b : β) :
    (ofList l).get? k = some b ↔ (k, b) ∈ l := by
  rw [ofList, get?_foldl_insert (fun e => e.2) hl]
  simp

/-- What is found was stored, whether or not a key was stored twice. -/
theorem mem_of_get?_foldl_insert {l : List (κ × β)} {m : OrderedMap κ β} {k : κ} {b : β}
    (h : (l.foldl (fun m e => m.insert e.1 e.2) m).get? k = some b) :
    (k, b) ∈ l ∨ m.get? k = some b := by
  induction l generalizing m with
  | nil => exact .inr h
  | cons e l ih =>
      rcases ih h with hl | hm
      · exact .inl (List.mem_cons_of_mem e hl)
      · rw [get?_insert] at hm
        split at hm
        · next hk =>
            obtain rfl := Std.LawfulEqOrd.eq_of_compare hk
            obtain rfl := Option.some.inj hm
            exact .inl List.mem_cons_self
        · exact .inr hm

theorem mem_of_get?_ofList {l : List (κ × β)} {k : κ} {b : β} (h : (ofList l).get? k = some b) :
    (k, b) ∈ l :=
  (mem_of_get?_foldl_insert h).resolve_right (by simp)

end Lawful

end DirWatch.OrderedMap
