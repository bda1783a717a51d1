import DirWatch.Proofs.FileTree.Scene
import DirWatch.Proofs.Walk.Enumeration

/-! # Trees that are open

A file tree all of whose directories below a location can be looked up, read and searched, as a
scene. -/

namespace DirWatch.FileTree

/-- Every directory of a tree at or below a location can be looked up, read and searched, and no
name in it is longer than names can be. -/
structure Open (t : FileTree) (location : List Name) : Prop where
  distinct : t.Distinct
  short : ∀ y d e, t.DirectoryAt location y d → e ∈ d.entries → e.1.bytes.length ≤ Name.limit
  rooted : ∃ d, t.DirectoryAt location [] d
  looked : ∀ y d, t.DirectoryAt location y d → (pathOf (location ++ y)).refusal? = none ∧
    t.top.obstacle? (location ++ y) = none
  permitted : ∀ y d, t.DirectoryAt location y d → d.isReadable = true ∧ d.isSearchable = true

namespace Open

variable {t : FileTree} {location : List Name} {filter : Filter} {y : List Name} {d : Node}

/-- What such a directory shows. -/
theorem readDirectory_eq (h : t.Open location) (hd : t.DirectoryAt location y d) :
    (t.scene location filter).readDirectory ((t.scene location filter).root.below y) =
      .ok (d.entries.map (shown d)) := by
  obtain ⟨hr, ho⟩ := h.looked y d hd
  rw [root_below]
  change t.readDirectory (pathOf (location ++ y)) = _
  rw [readDirectory_pathOf hd.1 hd.2 hr, ho]
  dsimp only
  rw [(h.permitted y d hd).1]
  rfl

/-- An entry is looked up by its path, unless the path is refused. -/
theorem metadata_child (h : t.Open location) (hd : t.DirectoryAt location y d) {e : Name × Node}
    (he : e ∈ d.entries) (filter : Filter) :
    (t.scene location filter).metadata ((t.scene location filter).root.below (y ++ [e.1])) =
      ((t.scene location filter).root.below (y ++ [e.1])).refusal?.elim (.ok e.2.metadata)
        .error := by
  rw [root_below]
  change t.metadata (pathOf (location ++ (y ++ [e.1]))) = _
  cases hr : (pathOf (location ++ (y ++ [e.1]))).refusal? with
  | some failure =>
      rw [metadata, node, locate, hr]
      rfl
  | none =>
      have hchild := (child?_eq_some_iff (h.distinct _ d hd.1)).2 he
      have hat : t.top.at? (location ++ (y ++ [e.1])) = some e.2 := by
        rw [← List.append_assoc, Node.at?_concat, hd.1, Option.bind_some, hchild]
      have hfree : t.top.obstacle? (location ++ (y ++ [e.1])) = none := by
        rw [← List.append_assoc, Node.obstacle?_append hd.1, (h.looked y d hd).2, Option.none_or,
          Node.obstacle?, (h.permitted y d hd).2, hchild]
        simpa [Node.obstacle?] using h.short y d e hd he
      rw [metadata_pathOf hat hr, hfree]
      rfl

/-- It shows the entries that are observed. -/
theorem shows_iff (h : t.Open location) (hd : t.DirectoryAt location y d) {n : Name}
    {m : Metadata} : (t.scene location filter).Shows y n m ↔
      filter.allows (.ofNames (y ++ [n])) = true ∧
        ∃ next, t.top.at? (location ++ y ++ [n]) = some next ∧ m = next.metadata := by
  have hchild : ∀ next, t.top.at? (location ++ y ++ [n]) = some next ↔ (n, next) ∈ d.entries := by
    intro next
    rw [Node.at?_concat, hd.1, Option.bind_some, child?_eq_some_iff (h.distinct _ d hd.1)]
  have hsearch := (h.permitted y d hd).2
  refine and_congr_right fun _ => ?_
  rw [h.readDirectory_eq hd]
  constructor
  · rintro ⟨_, _, ⟨⟩, he, rfl, hm⟩
    obtain ⟨⟨k, next⟩, hmem, rfl⟩ := List.mem_map.1 he
    rw [shown, if_pos hsearch] at hm
    exact ⟨next, (hchild next).2 hmem, (Except.ok.inj hm).symm⟩
  · rintro ⟨next, hnext, rfl⟩
    refine ⟨_, _, rfl, List.mem_map_of_mem ((hchild next).1 hnext), rfl, ?_⟩
    rw [shown, if_pos hsearch]

/-- The observable directories are directories of the tree. -/
theorem exists_directory (h : t.Open location) (hy : (t.scene location filter).Directory y) :
    ∃ d, t.DirectoryAt location y d := by
  induction hy with
  | root => exact h.rooted
  | @child y n m parent shows isDirectory ih =>
      obtain ⟨d, hd⟩ := ih
      obtain ⟨-, next, hnext, rfl⟩ := (h.shows_iff hd).1 shows
      rw [List.append_assoc] at hnext
      exact ⟨next, hnext, isDirectory⟩

theorem scene (h : t.Open location) (filter : Filter) : (t.scene location filter).Open where
  looked y hy := by
    obtain ⟨d, hd⟩ := h.exists_directory hy
    rw [root_below]
    exact (h.looked y d hd).1
  found y hy := by
    obtain ⟨d, hd⟩ := h.exists_directory hy
    obtain ⟨hr, ho⟩ := h.looked y d hd
    refine ⟨d.metadata, ?_, hd.2⟩
    rw [root_below]
    change t.metadata (pathOf (location ++ y)) = _
    rw [metadata_pathOf hd.1 hr, ho]
  shown y hy := by
    obtain ⟨d, hd⟩ := h.exists_directory hy
    refine ⟨_, h.readDirectory_eq hd, ?_⟩
    rw [List.map_map]
    exact h.distinct _ d hd.1
  told y es e hy hes he := by
    obtain ⟨d, hd⟩ := h.exists_directory hy
    obtain rfl := Except.ok.inj ((h.readDirectory_eq hd).symm.trans hes)
    obtain ⟨⟨n, next⟩, hmem, rfl⟩ := List.mem_map.1 he
    refine ⟨next.metadata, ?_, rfl, h.metadata_child hd hmem filter⟩
    rw [FileTree.shown, if_pos (h.permitted y d hd).2]

end Open

/-! ## Nested directories -/

/-- Directories in one another, all of one name, with a file of that name in the innermost. -/
def nest (n : Name) : Nat → Node
  | 0 => .file ⟨0, 0⟩ 0o644 ⟨7, 0⟩
  | k + 1 => .directory ⟨0, k + 1⟩ 0o755 [(n, nest n k)]

/-- A directory with further ones in it. -/
def nested (n : Name) (k : Nat) : FileTree where
  top := nest n (k + 1)

variable {n : Name} {k : Nat}

theorem distinct_nest (n : Name) (k : Nat) : Distinct { top := nest n k } := by
  induction k with
  | zero =>
      intro location d hd
      cases location with
      | nil =>
          obtain rfl := Option.some.inj hd
          exact List.nodup_nil
      | cons m location => cases hd
  | succ k ih =>
      refine distinct_directory (List.nodup_singleton n) ?_
      intro e he
      rw [List.mem_singleton.1 he]
      exact ih

theorem child?_nest (n m : Name) (k : Nat) :
    (nest n (k + 1)).child? m = if n = m then some (nest n k) else none := by
  by_cases h : n = m <;> simp [Node.child?, nest, Node.entries, h]

theorem at?_nest (n : Name) (j i : Nat) :
    (nest n (j + i)).at? (List.replicate j n) = some (nest n i) := by
  induction j with
  | zero => rw [Nat.zero_add]; rfl
  | succ j ih =>
      rw [Nat.succ_add, List.replicate_succ, Node.at?, child?_nest, if_pos rfl]
      exact ih

theorem of_at?_nest {y : List Name} {d : Node} (h : (nest n k).at? y = some d) :
    ∃ j i, k = j + i ∧ y = List.replicate j n ∧ d = nest n i := by
  induction y generalizing k with
  | nil => exact ⟨0, k, (Nat.zero_add k).symm, rfl, (Option.some.inj h).symm⟩
  | cons m y ih =>
      cases k with
      | zero => cases h
      | succ k =>
          rw [Node.at?, child?_nest] at h
          obtain ⟨next, hnext, h⟩ := Option.bind_eq_some_iff.1 h
          obtain ⟨rfl, hk⟩ := Option.ite_none_right_eq_some.1 hnext
          obtain rfl := Option.some.inj hk
          obtain ⟨j, i, rfl, rfl, rfl⟩ := ih h
          exact ⟨j + 1, i, (Nat.succ_add j i).symm, rfl, rfl⟩

theorem obstacle?_nest (hn : n.bytes.length ≤ Name.limit) (j i : Nat) :
    (nest n (j + i)).obstacle? (List.replicate j n) = none := by
  induction j with
  | zero => rfl
  | succ j ih =>
      rw [Nat.succ_add, List.replicate_succ, Node.obstacle?, child?_nest, if_pos rfl,
        if_neg (Nat.not_lt_of_le hn)]
      exact ih

/-- Whether a nested directory can be looked up depends on how long its path is. -/
theorem refusal?_nested (hn : 0 ∉ n.bytes) (k : Nat) :
    (pathOf (List.replicate k n)).refusal? = none ↔ k * (n.bytes.length + 1) < Path.limit := by
  cases k with
  | zero =>
      have htop : (pathOf []).refusal? = none := by decide
      rw [Nat.zero_mul]
      exact iff_of_true htop (by decide)
  | succ k =>
      have htext := text_pathOf_concat (List.replicate k n) n
      rw [← List.replicate_succ'] at htext
      have hnul : (pathOf (List.replicate (k + 1) n)).holdsNul = false := by
        rw [Path.holdsNul, htext]
        simpa [Path.slash] using hn
      have hlength : (pathOf (List.replicate (k + 1) n)).text.length =
          (k + 1) * (n.bytes.length + 1) := by
        rw [htext, List.length_flatMap]
        simp
      rw [Path.refusal?, hnul, hlength]
      simp

/-- Nested directories are open if their names and their paths are not too long. -/
theorem open_nested (hnul : 0 ∉ n.bytes) (hn : n.bytes.length ≤ Name.limit)
    (hk : k * (n.bytes.length + 1) < Path.limit) : (nested n k).Open [] where
  distinct := distinct_nest n (k + 1)
  short y d e hd he := by
    obtain ⟨j, i, hi, rfl, rfl⟩ := of_at?_nest hd.1
    cases i with
    | zero => cases hd.2
    | succ i =>
        rw [List.mem_singleton.1 he]
        exact hn
  rooted := ⟨_, rfl, rfl⟩
  looked y d hd := by
    obtain ⟨j, i, hi, rfl, rfl⟩ := of_at?_nest hd.1
    have hobstacle := obstacle?_nest hn j i
    rw [← hi] at hobstacle
    refine ⟨(refusal?_nested hnul j).2 ?_, hobstacle⟩
    cases i with
    | zero => cases hd.2
    | succ i =>
        have hj : j ≤ k := by omega
        exact (Nat.mul_le_mul_right _ hj).trans_lt hk
  permitted y d hd := by
    obtain ⟨j, i, hi, rfl, rfl⟩ := of_at?_nest hd.1
    cases i with
    | zero => cases hd.2
    | succ i => exact ⟨rfl, rfl⟩

section Nested

variable (hopen : (nested n k).Open [])
include hopen

theorem shows_nested {j i : Nat} (hk : k = j + i) :
    ((nested n k).scene [] {}).Shows (List.replicate j n) n (nest n i).metadata := by
  subst hk
  have hat : ((nested n (j + i)).top.at? (List.replicate j n)) = some (nest n (i + 1)) :=
    at?_nest n j (i + 1)
  refine (hopen.shows_iff ⟨hat, rfl⟩).2 ⟨Filter.allows_default _, nest n i, ?_, rfl⟩
  rw [List.nil_append, Node.at?_concat, hat, Option.bind_some, child?_nest, if_pos rfl]

theorem directory_nested {j i : Nat} (hk : k = j + i) :
    ((nested n k).scene [] {}).Directory (List.replicate j n) := by
  induction j generalizing i with
  | zero => exact .root
  | succ j ih =>
      have hj : k = j + (i + 1) := by omega
      rw [List.replicate_succ']
      exact .child (ih hj) (shows_nested hopen hj) rfl

/-- The file in the innermost directory is shown. -/
theorem showsAt_nested :
    ((nested n k).scene [] {}).ShowsAt (List.replicate (k + 1) n) (nest n 0).metadata := by
  rw [List.replicate_succ', Scene.showsAt_concat]
  exact ⟨directory_nested hopen (i := 0) rfl, shows_nested hopen (i := 0) rfl⟩

end Nested

end DirWatch.FileTree
