import DirWatch.Proofs.Mirror
import DirWatch.Proofs.Path.Below
import DirWatch.Proofs.TrackedDirectory.Reconcile
import DirWatch.Registry

/-! # The registry as a forest

Registered directories are told by the names that lead to them. In a sound forest every directory
but the root hangs on an item of a registered directory, and every item carries the stamp of the
last listing. -/

namespace DirWatch

/-- The registered directories of a tree by the names that lead to them. -/
abbrev Forest := List Name → Option (TrackedDirectory Name)

/-- The places at or below one of some places. -/
def Covers (tops : List (List Name)) (y : List Name) : Prop := ∃ t ∈ tops, t <+: y

namespace Covers

@[simp] theorem singleton {t y : List Name} : Covers [t] y ↔ t <+: y := by
  simp [Covers]

@[simp] theorem cons {t y : List Name} {tops : List (List Name)} :
    Covers (t :: tops) y ↔ t <+: y ∨ Covers tops y := by
  simp [Covers]

@[simp] theorem append {y : List Name} {tops tops' : List (List Name)} :
    Covers (tops ++ tops') y ↔ Covers tops y ∨ Covers tops' y := by
  simp [Covers, or_and_right, exists_or]

theorem not_nil (y : List Name) : ¬ Covers [] y := by
  simp [Covers]

theorem trans {tops : List (List Name)} {y z : List Name} (h : Covers tops y) (hz : y <+: z) :
    Covers tops z := by
  obtain ⟨t, ht, hy⟩ := h
  exact ⟨t, ht, hy.trans hz⟩

/-- What lies below one child of a directory lies below no other. -/
theorem child_unique {y z : List Name} {n m : Name} (hn : y ++ [n] <+: z)
    (hm : y ++ [m] <+: z) : n = m := by
  have h := List.prefix_of_prefix_length_le hn hm (by simp)
  have he := h.eq_of_length (by simp)
  simpa using he

theorem not_prefix_child {y : List Name} {n : Name} : ¬ y ++ [n] <+: y := by
  intro h
  have hl := h.length_le
  rw [List.length_append, List.length_singleton] at hl
  omega

/-- Below a directory are the directory itself and what is below its children. -/
theorem below_cases {t y : List Name} (h : t <+: y) : y = t ∨ ∃ n, t ++ [n] <+: y := by
  obtain ⟨r, rfl⟩ := h
  cases r with
  | nil => exact .inl (List.append_nil t)
  | cons n r => exact .inr ⟨n, ⟨r, by simp⟩⟩

theorem of_child {y t : List Name} {n : Name} (h : y ++ [n] <+: t) : y <+: t :=
  (List.prefix_append y [n]).trans h

end Covers

/-- Two places none of which lies below the other. -/
def Apart (t u : List Name) : Prop := ¬ t <+: u ∧ ¬ u <+: t

namespace Apart

theorem symm {t u : List Name} (h : Apart t u) : Apart u t := ⟨h.2, h.1⟩

/-- No place is below both. -/
theorem not_both {t u y : List Name} (h : Apart t u) (ht : t <+: y) (hu : u <+: y) : False := by
  rcases le_total t.length u.length with hl | hl
  · exact h.1 (List.prefix_of_prefix_length_le ht hu hl)
  · exact h.2 (List.prefix_of_prefix_length_le hu ht hl)

theorem child {t u : List Name} (h : Apart t u) (n : Name) : Apart (t ++ [n]) u := by
  constructor
  · exact fun hp => h.1 (Covers.of_child hp)
  · exact fun hp => h.not_both (List.prefix_append t [n]) hp

theorem children {t : List Name} {n m : Name} (h : n ≠ m) : Apart (t ++ [n]) (t ++ [m]) := by
  constructor
  · exact fun hp => h (Covers.child_unique hp List.prefix_rfl)
  · exact fun hp => h (Covers.child_unique List.prefix_rfl hp)

theorem not_covers {t y : List Name} {tops : List (List Name)} (h : (t :: tops).Pairwise Apart)
    (hy : t <+: y) : ¬ Covers tops y := by
  rintro ⟨u, hu, huy⟩
  exact ((List.pairwise_cons.1 h).1 u hu).not_both hy huy

theorem pairwise_children {t : List Name} {ns : List Name} (hn : ns.Nodup) :
    (ns.map fun n => t ++ [n]).Pairwise Apart :=
  List.pairwise_map.2 (hn.imp children)

/-- The children of a directory, with places that are apart from it. -/
theorem replace {t : List Name} {tops : List (List Name)} {ns : List Name} (hn : ns.Nodup)
    (h : (t :: tops).Pairwise Apart) : (ns.map (fun n => t ++ [n]) ++ tops).Pairwise Apart := by
  obtain ⟨ht, hr⟩ := List.pairwise_cons.1 h
  refine List.pairwise_append.2 ⟨pairwise_children hn, hr, ?_⟩
  intro a ha b hb
  obtain ⟨n, -, rfl⟩ := List.mem_map.1 ha
  exact (ht b hb).child n

/-- The children of a directory cover less than it, and not the directory itself. -/
theorem covers_of_children {t y : List Name} {ns : List Name}
    (hy : Covers (ns.map fun n => t ++ [n]) y) : t <+: y ∧ y ≠ t := by
  obtain ⟨c, hc, hcy⟩ := hy
  obtain ⟨n, -, rfl⟩ := List.mem_map.1 hc
  refine ⟨Covers.of_child hcy, ?_⟩
  rintro rfl
  exact Covers.not_prefix_child hcy

/-- The same next to places that are apart from the directory. -/
theorem covers_of_replace {t y : List Name} {tops : List (List Name)} {ns : List Name}
    (h : (t :: tops).Pairwise Apart)
    (hy : Covers (ns.map (fun n => t ++ [n]) ++ tops) y) : Covers (t :: tops) y ∧ y ≠ t := by
  rw [Covers.cons]
  rcases Covers.append.1 hy with hy | ⟨u, hu, huy⟩
  · exact ⟨.inl (covers_of_children hy).1, (covers_of_children hy).2⟩
  · refine ⟨.inr ⟨u, hu, huy⟩, ?_⟩
    rintro rfl
    exact ((List.pairwise_cons.1 h).1 u hu).2 huy

end Apart

namespace Forest

/-- A registered directory has an item for a subdirectory. -/
def Carries (F : Forest) (y : List Name) (n : Name) : Prop :=
  ∃ d i, F y = some d ∧ d.items.get? n = some i ∧ i.isDirectory = true

/-- What the items of the registered directories tell. -/
def known (F : Forest) : Mirror := fun y n => (F y).bind fun d => (d.items.get? n).map (·.known)

theorem known_none {F : Forest} {y : List Name} (h : F y = none) : F.known y = fun _ => none := by
  funext n
  simp [known, h]

theorem known_congr {F G : Forest} {y : List Name} (h : F y = G y) : F.known y = G.known y := by
  funext n
  simp [known, h]

theorem known_eq_some {F : Forest} {y : List Name} {n : Name} {k : Known} :
    F.known y n = some k ↔ ∃ d i, F y = some d ∧ d.items.get? n = some i ∧ i.known = k := by
  simp only [known, Option.bind_eq_some_iff, Option.map_eq_some_iff]
  constructor
  · rintro ⟨d, hd, i, hi, hk⟩
    exact ⟨d, i, hd, hi, hk⟩
  · rintro ⟨d, i, hd, hi, hk⟩
    exact ⟨d, hd, i, hi, hk⟩

theorem known_eq_directory {F : Forest} {y : List Name} {n : Name} :
    F.known y n = some .directory ↔ F.Carries y n := by
  simp only [known_eq_some, Carries, ← Known.isDirectory_iff, Item.isDirectory_known]

theorem Carries.congr {F G : Forest} {y : List Name} {n : Name} (h : F.Carries y n)
    (he : F y = G y) : G.Carries y n := by
  obtain ⟨d, i, hd, hi⟩ := h
  exact ⟨d, i, he ▸ hd, hi⟩

/-- The registered directories in some area hang on items of directories of the area. -/
def Hangs (F : Forest) (A : List Name → Prop) : Prop :=
  ∀ y n, A y → F (y ++ [n]) ≠ none → F.Carries y n

/-- Nothing is registered below a directory that is not. -/
theorem none_below {F : Forest} {y z : List Name} (h : F.Hangs (y <+: ·)) (hy : F y = none)
    (hz : y <+: z) : F z = none := by
  obtain ⟨r, rfl⟩ := hz
  induction r using List.reverseRecOn with
  | nil => simpa using hy
  | append_singleton r n ih =>
      by_contra hne
      rw [← List.append_assoc] at hne
      obtain ⟨d, i, hd, -⟩ := h (y ++ r) n (List.prefix_append y r) hne
      rw [ih] at hd
      simp at hd

/-- Every registered directory but the root hangs on an item, and every item is current. -/
structure Sound (F : Forest) : Prop where
  hangs : ∀ y n, F (y ++ [n]) ≠ none → F.Carries y n
  current : ∀ y d, F y = some d → d.Current

end Forest

namespace Registry

variable {σ : Type}

/-- The registered directories by the names that lead to them from the root. -/
def forest (r : Registry σ) : Forest := fun y => r.get? (r.root.below y)

theorem get?_eq_forest {r : Registry σ} {p : Path} {y : List Name} (h : Path.At r.root p y) :
    r.get? p = r.forest y :=
  r.directories.get?_congr (h.compare_eq (Path.at_below r.root y))

theorem contains_iff_forest {r : Registry σ} {p : Path} {y : List Name} (h : Path.At r.root p y) :
    r.contains p = true ↔ r.forest y ≠ none := by
  rw [← get?_eq_forest h, ← Option.isSome_iff_ne_none]
  rfl

end Registry

end DirWatch
