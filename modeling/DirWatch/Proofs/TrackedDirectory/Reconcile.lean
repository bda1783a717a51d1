import DirWatch.Proofs.OrderedMap
import DirWatch.TrackedDirectory

/-! # What a listing changes

After a listing has been taken over, the items are its entries. The difference names each entry
whose presence, kind or time changed, once for each kind of change. -/

namespace DirWatch.TrackedDirectory

variable {ν : Type} [Ord ν] [Std.TransOrd ν]

/-- Every item carries the stamp of the last listing. -/
def Current (d : TrackedDirectory ν) : Prop :=
  ∀ n i, d.items.get? n = some i → i.seen = d.generation

@[simp] theorem identity_reconcile (d : TrackedDirectory ν) (l : Listing ν) :
    (d.reconcile l).2.identity = l.identity := rfl

omit [Std.TransOrd ν] in
theorem current_empty : ({} : TrackedDirectory ν).Current := by
  intro n i h
  simp at h

/-! ## No name twice -/

theorem nodup_names_filter {β : Type} (m : OrderedMap ν β) (p : ν × β → Bool) :
    ((m.entries.filter p).map (·.1)).Nodup :=
  m.nodup_keys.sublist ((List.filter_sublist).map _)

theorem nodup_created (d : TrackedDirectory ν) (l : Listing ν) :
    ((d.reconcile l).1.created.map (·.name)).Nodup := by
  simpa [reconcile, Function.comp_def] using nodup_names_filter l.entries _

theorem nodup_updated (d : TrackedDirectory ν) (l : Listing ν) :
    ((d.reconcile l).1.updated.map (·.name)).Nodup := by
  simpa [reconcile, Function.comp_def] using nodup_names_filter l.entries _

theorem nodup_subdirectories (d : TrackedDirectory ν) : d.subdirectories.Nodup :=
  nodup_names_filter d.items _

section Lawful

variable [Std.LawfulEqOrd ν]

/-! ## The items -/

theorem get?_stamp (d : TrackedDirectory ν) (l : Listing ν) (g : UInt64) (n : ν) :
    (d.stamp l g).get? n = ((l.entries.get? n).map (·.stamped g)).or (d.items.get? n) := by
  apply Option.ext
  intro i
  rw [stamp, OrderedMap.get?_foldl_insert (fun e => e.2.stamped g) l.entries.nodup_keys]
  simp only [OrderedMap.mem_entries_iff]
  cases l.entries.get? n <;> simp

/-- The items are what the listing shows. -/
theorem get?_items_reconcile {d : TrackedDirectory ν} (h : d.Current) (l : Listing ν) (n : ν) :
    (d.reconcile l).2.items.get? n = (l.entries.get? n).map (·.stamped (d.generation + 1)) := by
  simp only [reconcile, OrderedMap.get?_filter, get?_stamp]
  cases hl : l.entries.get? n with
  | some e => simp [ListedEntry.stamped, Option.filter]
  | none =>
      cases hd : d.items.get? n with
      | none => rfl
      | some i =>
          have hs := h n i hd
          simp [Option.filter, hs]

theorem current_reconcile (d : TrackedDirectory ν) (l : Listing ν) :
    (d.reconcile l).2.Current := by
  intro n i h
  simp only [reconcile, OrderedMap.get?_filter, Option.filter_eq_some_iff] at h
  exact beq_iff_eq.1 h.2

theorem get?_items_ofListing (l : Listing ν) (n : ν) :
    (ofListing l).items.get? n = (l.entries.get? n).map (·.stamped 1) :=
  get?_items_reconcile current_empty l n

theorem current_ofListing (l : Listing ν) : (ofListing l).Current := current_reconcile _ l

/-! ## The difference -/

/-- Created are the entries that were not tracked with their kind. -/
theorem mem_created {d : TrackedDirectory ν} {l : Listing ν} {a : NamedEntry ν} :
    a ∈ (d.reconcile l).1.created ↔
      (l.entries.get? a.name).map (·.isDirectory) = some a.isDirectory ∧
        (d.items.get? a.name).map (·.isDirectory) ≠ some a.isDirectory := by
  obtain ⟨n, f⟩ := a
  simp only [reconcile, List.mem_map, Prod.exists, List.mem_filter, OrderedMap.mem_entries_iff,
    NamedEntry.mk.injEq, isNew]
  constructor
  · rintro ⟨n', e, ⟨hl, hn⟩, rfl, rfl⟩
    refine ⟨by rw [hl]; rfl, ?_⟩
    cases hd : d.items.get? n' with
    | none => simp
    | some i => simpa [hd] using hn
  · rintro ⟨hl, hd⟩
    obtain ⟨e, he, rfl⟩ := Option.map_eq_some_iff.1 hl
    refine ⟨n, e, ⟨he, ?_⟩, rfl, rfl⟩
    cases hi : d.items.get? n with
    | none => rfl
    | some i => simpa [hi] using hd

/-- Deleted are the tracked entries that are not shown with their kind. -/
theorem mem_deleted {d : TrackedDirectory ν} (h : d.Current) {l : Listing ν} {a : NamedEntry ν} :
    a ∈ (d.reconcile l).1.deleted ↔
      (d.items.get? a.name).map (·.isDirectory) = some a.isDirectory ∧
        (l.entries.get? a.name).map (·.isDirectory) ≠ some a.isDirectory := by
  obtain ⟨n, f⟩ := a
  simp only [reconcile, List.mem_append, List.mem_map, Prod.exists, List.mem_filter,
    NamedEntry.mk.injEq, isRetyped, OrderedMap.mem_entries_iff, get?_stamp]
  constructor
  · rintro (⟨n', e, ⟨hl, hr⟩, rfl, rfl⟩ | ⟨n', i, ⟨hs, hg⟩, rfl, rfl⟩)
    · cases hd : d.items.get? n' with
      | none => simp [hd] at hr
      | some i =>
          rw [hd, Option.any_some] at hr
          rw [hl]
          cases hi : i.isDirectory <;> cases he : e.isDirectory <;> simp_all
    · cases hl : l.entries.get? n' with
      | some e =>
          rw [hl] at hs
          simp [ListedEntry.stamped] at hs
          simp [← hs] at hg
      | none =>
          rw [hl, Option.map_none, Option.none_or] at hs
          simp [hs]
  · rintro ⟨hd, hl⟩
    obtain ⟨i, hi, rfl⟩ := Option.map_eq_some_iff.1 hd
    cases he : l.entries.get? n with
    | some e =>
        left
        have hne : e.isDirectory ≠ i.isDirectory := by simpa [he] using hl
        refine ⟨n, e, ⟨he, ?_⟩, rfl, ?_⟩
        · simp [hi, Ne.symm hne]
        · exact (Bool.eq_not_of_ne (Ne.symm hne)).symm
    | none =>
        right
        refine ⟨n, i, ⟨by rw [he, hi]; rfl, ?_⟩, rfl, rfl⟩
        simp [h n i hi]

/-- Updated are the files whose time changed. -/
theorem mem_updated {d : TrackedDirectory ν} {l : Listing ν} {a : NamedEntry ν} :
    a ∈ (d.reconcile l).1.updated ↔ a.isDirectory = false ∧
      ∃ i e, d.items.get? a.name = some i ∧ l.entries.get? a.name = some e ∧
        i.isDirectory = false ∧ e.isDirectory = false ∧ i.modified ≠ e.modified := by
  obtain ⟨n, f⟩ := a
  simp only [reconcile, List.mem_map, Prod.exists, List.mem_filter, OrderedMap.mem_entries_iff,
    NamedEntry.mk.injEq, isUpdated]
  constructor
  · rintro ⟨n', e, ⟨hl, hu⟩, rfl, rfl⟩
    cases hd : d.items.get? n' with
    | none => simp [hd] at hu
    | some i =>
        simp only [hd, Option.any_some, Bool.and_eq_true, Bool.not_eq_true', bne_iff_ne] at hu
        exact ⟨hu.1.2, i, e, rfl, hl, hu.1.1, hu.1.2, hu.2⟩
  · rintro ⟨rfl, i, e, hd, hl, hi, he, hm⟩
    exact ⟨n, e, ⟨hl, by simp [hd, hi, he, hm]⟩, rfl, he⟩

theorem nodup_deleted (d : TrackedDirectory ν) (l : Listing ν) :
    ((d.reconcile l).1.deleted.map (·.name)).Nodup := by
  simp only [reconcile, List.map_append, List.map_map, Function.comp_def]
  refine List.nodup_append.2 ⟨nodup_names_filter _ _, nodup_names_filter _ _, ?_⟩
  -- a retyped entry is listed and carries the new stamp, an entry that is gone does not
  rintro n hn m hm rfl
  obtain ⟨⟨n', e⟩, he, rfl⟩ := List.mem_map.1 hn
  obtain ⟨⟨m', i⟩, hi, hm⟩ := List.mem_map.1 hm
  dsimp only at hm
  subst hm
  have hl := OrderedMap.mem_entries_iff.1 (List.mem_of_mem_filter he)
  have hs := List.mem_filter.1 hi
  rw [OrderedMap.mem_entries_iff, get?_stamp, hl] at hs
  simp [ListedEntry.stamped] at hs
  simp [← hs.1] at hs

/-! ## Subdirectories -/

theorem mem_subdirectories {d : TrackedDirectory ν} {n : ν} :
    n ∈ d.subdirectories ↔ ∃ i, d.items.get? n = some i ∧ i.isDirectory = true := by
  simp only [subdirectories, List.mem_map, List.mem_filter, Prod.exists,
    OrderedMap.mem_entries_iff]
  constructor
  · rintro ⟨n', i, h, rfl⟩
    exact ⟨i, h⟩
  · rintro ⟨i, h⟩
    exact ⟨n, i, h, rfl⟩

end Lawful

end DirWatch.TrackedDirectory
