import DirWatch.Path.Basic
import Mathlib.Data.List.Infix

/-! # Paths below a root

The path of an entry has one component more than that of its directory. So what lies below a root is
told by a list of names, whatever text a path is written with. -/

namespace DirWatch.Path

/-! ## Segments -/

/-- The segments of a path without the empty one that a slash at its end leaves. -/
def stem (p : Path) : List Bytes :=
  if p.text.isEmpty || p.text.getLast? == some slash then p.segments.dropLast else p.segments

theorem splitOn_bytes (n : Name) : n.bytes.splitOn slash = [n.bytes] :=
  List.splitOn_eq_singleton n.valid.2.2.2

theorem ofName_not_isAbsolute (n : Name) : (ofName n).isAbsolute = false := by
  have hs : (ofName n).segments = [n.bytes] := splitOn_bytes n
  simp only [isAbsolute, head?, hs]
  split
  · next h => simp at h
  · split <;> rfl
  · rfl

/-- The path of an entry has the segments of its directory and then its name. -/
theorem segments_child (p : Path) (n : Name) : (p.child n).segments = p.stem ++ [n.bytes] := by
  simp only [child, join, ofName_not_isAbsolute, stem, Bool.false_eq_true, if_false]
  split
  · next h =>
    rcases Bool.or_eq_true_iff.1 h with h | h
    · have ht : p.text = [] := List.isEmpty_iff.1 h
      simpa [segments, ofName, ht] using splitOn_bytes n
    · obtain ⟨t, ht⟩ := List.getLast?_eq_some_iff.1 (beq_iff_eq.1 h)
      simp only [segments, ofName, ht, List.append_assoc, List.singleton_append]
      rw [List.splitOn_append_cons_self, List.splitOn_append_cons_self, splitOn_bytes]
      simp
  · simp only [segments, ofName]
    rw [List.splitOn_append_cons_self, splitOn_bytes]

/-- The empty path has no stem, a slash at the end leaves an empty segment behind the stem, and any
other path is its stem. -/
theorem stem_cases (p : Path) :
    (p.stem = [] ∧ p.segments = [[]]) ∨ (p.stem ≠ [] ∧ p.segments = p.stem ++ [[]]) ∨
      (p.stem ≠ [] ∧ p.stem ≠ [[]] ∧ p.segments = p.stem) := by
  unfold stem
  split
  · next h =>
    rcases Bool.or_eq_true_iff.1 h with h | h
    · left
      simp [segments, List.isEmpty_iff.1 h]
    · right; left
      obtain ⟨t, ht⟩ := List.getLast?_eq_some_iff.1 (beq_iff_eq.1 h)
      have hs : p.segments = t.splitOn slash ++ [[]] := by
        simp only [segments, ht]
        rw [List.splitOn_append_cons_self]
        rfl
      rw [hs, List.dropLast_concat]
      exact ⟨List.splitOn_ne_nil slash t, rfl⟩
  · next h =>
    right; right
    refine ⟨List.splitOn_ne_nil slash p.text, ?_, rfl⟩
    intro hs
    have hj : [slash].intercalate p.segments = p.text := List.intercalate_splitOn slash
    rw [hs] at hj
    simp [← hj] at h

theorem text_child_ne_nil (p : Path) (n : Name) : (p.child n).text ≠ [] := by
  have hn := n.valid.1
  simp only [child, join, ofName_not_isAbsolute, Bool.false_eq_true, if_false]
  split <;> simp [ofName, hn]

theorem getLast?_text_child (p : Path) (n : Name) :
    (p.child n).text.getLast? = n.bytes.getLast? := by
  have hn := n.valid.1
  simp only [child, join, ofName_not_isAbsolute, Bool.false_eq_true, if_false]
  split
  · simp [ofName, List.getLast?_append, List.getLast?_eq_some_getLast hn]
  · simp [ofName, List.getLast?_append, List.getLast?_eq_some_getLast hn,
      List.getLast?_cons]

theorem stem_child (p : Path) (n : Name) : (p.child n).stem = p.stem ++ [n.bytes] := by
  have hl : (p.child n).text.getLast? ≠ some slash := by
    rw [getLast?_text_child]
    intro h
    exact n.valid.2.2.2 (List.mem_of_getLast? h)
  rw [stem, if_neg, segments_child]
  simpa using ⟨text_child_ne_nil p n, hl⟩

/-- The text of an entry is longer than that of its directory. -/
theorem length_lt_child (p : Path) (n : Name) : p.text.length < (p.child n).text.length := by
  have hn := List.length_pos_iff.2 n.valid.1
  simp only [child, join, ofName_not_isAbsolute, Bool.false_eq_true, if_false]
  split
  · simp [ofName]
    omega
  · simp [ofName]

/-! ## Components -/

@[simp] theorem componentOf?_bytes (n : Name) : componentOf? n.bytes = some (.name n) := by
  have h : Name.ofBytes? n.bytes = some n := dif_pos n.valid
  rw [componentOf?, if_neg n.valid.2.2.1, h]
  rfl

/-- Only the name itself is the component of a name. -/
theorem bytes_of_componentOf? {s : Bytes} {n : Name} (h : componentOf? s = some (.name n)) :
    s = n.bytes := by
  unfold componentOf? at h
  split at h
  · cases h
  · obtain ⟨m, hm, hn⟩ := Option.map_eq_some_iff.1 h
    obtain rfl := Component.name.inj hn
    unfold Name.ofBytes? at hm
    split at hm
    · obtain rfl := Option.some.inj hm
      rfl
    · cases hm

@[simp] theorem componentOf?_nil : componentOf? [] = none := rfl

@[simp] theorem filterMap_componentOf?_bytes (ns : List Name) :
    (ns.map Name.bytes).filterMap componentOf? = ns.map Component.name := by
  induction ns with
  | nil => rfl
  | cons n ns ih => simp [ih]

/-- The beginning of a path stands in its stem. -/
theorem head?_eq (p : Path) :
    p.head? = match p.stem with
      | [] :: _ => some .root
      | [b] :: _ => if b = dot then some .current else none
      | _ => none := by
  unfold head?
  rcases stem_cases p with ⟨h, hs⟩ | ⟨h, hs⟩ | ⟨h, h', hs⟩ <;> rw [hs]
  · rw [h]
  · match p.stem, h with
    | [[]], _ | [] :: _ :: _, _ | [_] :: _, _ | (_ :: _ :: _) :: _, _ => rfl
  · match p.stem, h, h' with
    | [] :: _ :: _, _, _ | [_] :: _, _, _ | (_ :: _ :: _) :: _, _, _ => rfl

theorem head?_child (p : Path) (n : Name) : (p.child n).head? = p.head? := by
  rw [head?_eq, stem_child, head?_eq]
  match hs : p.stem with
  | [] =>
    have hn := n.valid
    match hb : n.bytes with
    | [] => exact (hn.1 hb).elim
    | [b] =>
      have hd : b ≠ dot := fun h => hn.2.1 (by rw [hb, h])
      simp [hd]
    | _ :: _ :: _ => rfl
  | [] :: _ | [_] :: _ | (_ :: _ :: _) :: _ => rfl

/-- The components after the beginning of a path. -/
theorem body_components (p : Path) :
    p.body.filterMap componentOf? =
      (if p.head?.isSome then p.stem.tail else p.stem).filterMap componentOf? := by
  unfold body
  rcases stem_cases p with ⟨h, hs⟩ | ⟨h, hs⟩ | ⟨-, -, hs⟩ <;> rw [hs]
  · rw [h]
    split <;> rfl
  · rw [List.tail_append_of_ne_nil h]
    split <;> simp

/-- The path of an entry has one component more than that of its directory. -/
@[simp] theorem components_child (p : Path) (n : Name) :
    (p.child n).components = p.components ++ [.name n] := by
  rw [components, components, body_components, body_components, head?_child, stem_child]
  split
  · next h =>
    have hne : p.stem ≠ [] := by
      intro hs
      simp [head?_eq, hs] at h
    rw [List.tail_append_of_ne_nil hne]
    simp
  · simp

/-! ## Paths at a list of names -/

/-- The path that leads through some names from a root. -/
def below (root : Path) (ns : List Name) : Path := ns.foldl child root

@[simp] theorem below_nil (root : Path) : root.below [] = root := rfl

theorem below_concat (root : Path) (ns : List Name) (n : Name) :
    root.below (ns ++ [n]) = (root.below ns).child n := by
  simp [below, List.foldl_append]

theorem below_append (p : Path) (ns ms : List Name) : (p.below ns).below ms = p.below (ns ++ ms) :=
  List.foldl_append.symm

/-- A path that leads through some names from a root, in whatever text. -/
def At (root p : Path) (ns : List Name) : Prop :=
  p.components = root.components ++ ns.map .name

theorem At.child {root p : Path} {ns : List Name} (h : At root p ns) (n : Name) :
    At root (p.child n) (ns ++ [n]) := by
  rw [At, components_child, h]
  simp

theorem at_below (root : Path) (ns : List Name) : At root (root.below ns) ns := by
  induction ns using List.reverseRecOn with
  | nil => simp [At]
  | append_singleton ns n ih =>
      rw [below_concat]
      exact ih.child n

theorem at_root_iff {root p : Path} : At root p [] ↔ p.components = root.components := by
  simp [At]

theorem map_name_inj {ns ms : List Name} :
    ns.map Component.name = ms.map Component.name ↔ ns = ms :=
  List.map_inj_right fun _ _ => Component.name.inj

/-- An entry is told by the components of its path. -/
theorem map_name_concat_inj {ns ms : List Name} {n m : Name} :
    (ns ++ [n]).map Component.name = (ms ++ [m]).map Component.name ↔ ns = ms ∧ n = m := by
  rw [map_name_inj, List.append_singleton_inj]

/-- The names on the way are told by the path. -/
theorem At.unique {root p : Path} {ns ms : List Name} (h : At root p ns) (h' : At root p ms) :
    ns = ms :=
  map_name_inj.1 (List.append_cancel_left (h.symm.trans h'))

theorem At.compare_eq {root p q : Path} {ns : List Name} (h : At root p ns)
    (h' : At root q ns) : compare p q = .eq :=
  compare_eq_iff.2 (h.trans h'.symm)

theorem At.of_compare_eq {root p q : Path} {ns : List Name} (h : At root p ns)
    (he : compare q p = .eq) : At root q ns :=
  (compare_eq_iff.1 he).trans h

/-- A path that is written plainly: wherever it leads below a root, it is the root joined with
names. -/
def Plain (root p : Path) : Prop := ∀ y, At root p y → p = root.below y

theorem plain_below (root : Path) (y : List Name) : Plain root (root.below y) := by
  intro z hz
  rw [(at_below root y).unique hz]

/-- The places that an event about a path concerns: the path and its parent. -/
def vicinity (p : Path) : List Path := p :: p.parent?.toList

theorem same_iff {p q : Path} : p.same q = true ↔ p.components = q.components := beq_iff_eq

end DirWatch.Path
