import DirWatch.Proofs.Path.Below

/-! # Paths relative to a root

Taking a root off a path leaves the names that lead from one to the other. -/

namespace DirWatch.Path

/-! ## Segments that mean something -/

theorem slash_not_mem_of_mem_splitOn {t : Bytes} : ∀ s ∈ t.splitOn slash, slash ∉ s := by
  induction t with
  | nil => simp
  | cons b t ih =>
      rw [List.splitOn_cons_eq_if_modifyHead]
      split
      · simpa using ih
      · next hb =>
        cases hs : t.splitOn slash with
        | nil => simp
        | cons a rest =>
            rw [hs] at ih
            simp only [List.modifyHead_cons, List.mem_cons, forall_eq_or_imp] at ih ⊢
            refine ⟨?_, ih.2⟩
            rintro (h | h)
            · simp [h] at hb
            · exact ih.1 h

theorem slash_not_mem_of_mem_segments {p : Path} {s : Bytes} (h : s ∈ p.segments) : slash ∉ s :=
  slash_not_mem_of_mem_splitOn s h

theorem mem_segments_of_mem_stem {p : Path} {s : Bytes} (h : s ∈ p.stem) : s ∈ p.segments := by
  rcases stem_cases p with ⟨hn, -⟩ | ⟨-, hs⟩ | ⟨-, -, hs⟩
  · rw [hn] at h
    simp at h
  · rw [hs]
    exact List.mem_append_left _ h
  · rwa [hs]

theorem isSome_componentOf? {s : Bytes} (h : s ≠ []) (hd : s ≠ [dot]) (hs : slash ∉ s) :
    (componentOf? s).isSome := by
  unfold componentOf?
  split
  · rfl
  · next hdd => simp [Name.ofBytes?, h, hd, hdd, hs]

/-- A path without a beginning starts with a segment that means something. -/
theorem isSome_of_stem_cons {p : Path} {s : Bytes} {rest : List Bytes} (hh : p.head? = none)
    (h : p.stem = s :: rest) : (componentOf? s).isSome := by
  have hs : s ∈ p.stem := by simp [h]
  have hm : slash ∉ s := slash_not_mem_of_mem_segments (mem_segments_of_mem_stem hs)
  rw [head?_eq, h] at hh
  refine isSome_componentOf? ?_ ?_ hm
  · rintro rfl
    simp at hh
  · rintro rfl
    simp at hh

/-! ## Trimming -/

theorem filterMap_trimStart (l : List Bytes) :
    (trimStart l).filterMap componentOf? = l.filterMap componentOf? := by
  induction l with
  | nil => rfl
  | cons s l ih =>
      unfold trimStart at *
      cases h : componentOf? s <;> simp [h, ih]

theorem filterMap_trimEnd (l : List Bytes) :
    (trimEnd l).filterMap componentOf? = l.filterMap componentOf? := by
  have h := filterMap_trimStart l.reverse
  rw [trimEnd, List.filterMap_reverse, ← trimStart, h, List.filterMap_reverse, List.reverse_reverse]

theorem trimEnd_isPart (l : List Bytes) : trimEnd l <+: l := by
  rw [← List.reverse_suffix]
  simpa [trimEnd] using List.dropWhile_suffix _

theorem trimStart_suffix (l : List Bytes) : trimStart l <:+ l := List.dropWhile_suffix _

theorem isSome_of_trimStart_cons {l rest : List Bytes} {s : Bytes} (h : trimStart l = s :: rest) :
    (componentOf? s).isSome := by
  have hs := List.head?_dropWhile_not (fun s => (componentOf? s).isNone) l
  rw [← trimStart, h] at hs
  simpa [Option.isSome_iff_ne_none] using hs

theorem trimStart_eq_self {l : List Bytes}
    (h : ∀ s rest, l = s :: rest → (componentOf? s).isSome) : trimStart l = l := by
  cases l with
  | nil => rfl
  | cons s rest =>
      have hs := h s rest rfl
      rw [trimStart, List.dropWhile_cons_of_neg]
      simpa [Option.isSome_iff_ne_none] using hs

theorem trimEnd_eq_nil {l : List Bytes} (h : l.filterMap componentOf? = []) : trimEnd l = [] := by
  rw [← filterMap_trimEnd, trimEnd, ← trimStart] at h
  rw [trimEnd, ← trimStart, List.reverse_eq_nil_iff]
  cases hs : trimStart l.reverse with
  | nil => rfl
  | cons s rest =>
      obtain ⟨c, hc⟩ := Option.isSome_iff_exists.1 (isSome_of_trimStart_cons hs)
      rw [hs] at h
      simp [hc] at h

theorem trimEnd_bytes (ns : List Name) : trimEnd (ns.map Name.bytes) = ns.map Name.bytes := by
  have h : trimStart (ns.map Name.bytes).reverse = (ns.map Name.bytes).reverse := by
    apply trimStart_eq_self
    intro s rest hs
    obtain ⟨n, -, rfl⟩ : ∃ n ∈ ns, Name.bytes n = s := by
      have hm : s ∈ (ns.map Name.bytes).reverse := by simp [hs]
      simpa using hm
    simp
  rw [trimEnd, ← trimStart, h, List.reverse_reverse]

theorem trimStart_bytes (ns : List Name) : trimStart (ns.map Name.bytes) = ns.map Name.bytes := by
  apply trimStart_eq_self
  intro s rest hs
  obtain ⟨n, -, rfl⟩ : ∃ n ∈ ns, Name.bytes n = s := by
    have hm : s ∈ ns.map Name.bytes := by simp [hs]
    simpa using hm
  simp

/-! ## Dropping segments -/

theorem filterMap_dropSegments (k : Nat) (l : List Bytes) :
    (dropSegments k l).filterMap componentOf? = (l.filterMap componentOf?).drop k := by
  induction l generalizing k with
  | nil => cases k <;> simp [dropSegments]
  | cons s l ih =>
      cases k with
      | zero => simp [dropSegments]
      | succ k =>
          rw [dropSegments, ih]
          cases h : componentOf? s <;> simp [h]

theorem dropSegments_suffix (k : Nat) (l : List Bytes) : dropSegments k l <:+ l := by
  induction l generalizing k with
  | nil => cases k <;> simp [dropSegments]
  | cons s l ih =>
      cases k with
      | zero => simp [dropSegments]
      | succ k =>
          rw [dropSegments]
          exact (ih _).trans (List.suffix_cons s l)

/-- Segments that are dropped up to their last component leave what comes after them. -/
theorem trimStart_dropSegments_append (xs ys : List Bytes) :
    trimStart (dropSegments (xs.filterMap componentOf?).length (xs ++ ys)) = trimStart ys := by
  induction xs with
  | nil => simp [dropSegments]
  | cons s xs ih =>
      cases h : componentOf? s with
      | some c =>
          rw [List.filterMap_cons_some h, List.length_cons, List.cons_append, dropSegments]
          simpa [h] using ih
      | none =>
          rw [List.filterMap_cons_none h, List.cons_append]
          cases hk : (xs.filterMap componentOf?).length with
          | zero =>
              rw [hk] at ih
              rw [dropSegments, trimStart, List.dropWhile_cons_of_pos (by simp [h]), ← trimStart]
              simpa [dropSegments] using ih
          | succ k =>
              rw [hk] at ih
              rw [dropSegments]
              simpa [h] using ih

/-! ## Taking a root off -/

/-- The path that consists of some names. -/
def ofNames (ns : List Name) : Path := below ⟨[]⟩ ns

theorem components_render {l : List Bytes} (hm : ∀ s ∈ l, slash ∉ s)
    (hc : ∀ s rest, l = s :: rest → (componentOf? s).isSome) :
    (render none l).components = l.filterMap componentOf? := by
  cases l with
  | nil => rfl
  | cons s rest =>
      have hs : (render none (s :: rest)).segments = s :: rest :=
        List.splitOn_intercalate slash hm (List.cons_ne_nil s rest)
      have hh : (render none (s :: rest)).head? = none := by
        rw [head?, hs]
        have hs := hc s rest rfl
        rcases s with _ | ⟨b, _ | ⟨b', s⟩⟩
        · simp at hs
        · have hb : b ≠ dot := by
            rintro rfl
            simp [componentOf?, Name.ofBytes?] at hs
          simp [hb]
        · rfl
      rw [components, body, hs, hh]
      rfl

theorem head?_components (p : Path) {c : Component} (h : p.components.head? = some c) :
    p.head? = if c = .root ∨ c = .current then some c else none := by
  unfold components at h
  cases hh : p.head? with
  | some c' =>
      have he : c' = c := by simpa [hh] using h
      subst he
      have hc : c' = .root ∨ c' = .current := by
        rw [head?_eq] at hh
        match p.stem, hh with
        | [] :: _, hh => exact .inl (Option.some.inj hh).symm
        | [b] :: _, hh =>
          right
          dsimp only at hh
          split at hh
          · exact (Option.some.inj hh).symm
          · simp at hh
      rw [if_pos hc]
  | none =>
      have hm : c ∈ p.body.filterMap componentOf? := List.mem_of_head? (by simpa [hh] using h)
      obtain ⟨s, -, hs⟩ := List.mem_filterMap.1 hm
      rw [if_neg]
      unfold componentOf? at hs
      split at hs
      · simp [← Option.some.inj hs]
      · obtain ⟨n, -, rfl⟩ := Option.map_eq_some_iff.1 hs
        simp

/-- A path at some names has the beginning of its root, if that has a component. -/
theorem At.head?_eq {root p : Path} {ns : List Name} (h : At root p ns)
    (hr : root.components ≠ []) : p.head? = root.head? := by
  obtain ⟨c, hc⟩ := Option.isSome_iff_exists.1 (List.isSome_head?.2 hr)
  rw [head?_components root hc, head?_components p]
  rw [h, List.head?_append, hc]
  rfl

/-- The components that stand after the beginning of a root, and then the names. -/
theorem At.body_components {root p : Path} {ns : List Name} (h : At root p ns)
    (hr : root.components ≠ []) :
    p.body.filterMap componentOf? = root.body.filterMap componentOf? ++ ns.map .name := by
  have hc : p.components = root.components ++ ns.map .name := h
  rw [components, components, h.head?_eq hr, List.append_assoc] at hc
  exact List.append_cancel_left hc

theorem length_body_components {p : Path} {k : Nat} (h : p.components.length = k + 1) :
    (if p.head?.isSome then k else k + 1) = (p.body.filterMap componentOf?).length := by
  rw [components, List.length_append] at h
  cases hh : p.head? <;> simp [hh] at h ⊢ <;> omega

theorem components_eq_nil {p : Path} (h : p.components = []) : p.head? = none ∧ p.stem = [] := by
  have hh : p.head? = none := by
    cases hh : p.head? with
    | none => rfl
    | some c => simp [components, hh] at h
  refine ⟨hh, ?_⟩
  cases hs : p.stem with
  | nil => rfl
  | cons s rest =>
      obtain ⟨c, hc⟩ := Option.isSome_iff_exists.1 (isSome_of_stem_cons hh hs)
      rw [components, body_components, hh, hs] at h
      simp [hc] at h

theorem At.startsWith {root p : Path} {ns : List Name} (h : At root p ns) :
    p.startsWith root = true := by
  rw [Path.startsWith, List.isPrefixOf_iff_prefix, h]
  exact List.prefix_append _ _

theorem not_startsWith_of_stripPrefix? {p q : Path} (h : p.stripPrefix? q = none) :
    p.startsWith q = false := by
  unfold stripPrefix? at h
  split at h
  · split at h <;> cases h
  · next hn => exact (Bool.not_eq_true _).mp hn

theorem slash_not_mem_of_mem_body {p : Path} {s : Bytes} (h : s ∈ p.body) : slash ∉ s := by
  unfold body at h
  split at h
  · exact slash_not_mem_of_mem_segments (List.mem_of_mem_tail h)
  · exact slash_not_mem_of_mem_segments h

/-- Without a beginning nothing is trimmed from the start of a path but the empty segment that is
all of an empty path. -/
theorem trimEnd_trimStart_body {p : Path} (h : p.head? = none) :
    trimEnd (trimStart p.body) = trimEnd p.body := by
  have hb : p.body = p.segments := by simp [body, h]
  rw [hb]
  rcases stem_cases p with ⟨-, hs⟩ | ⟨hn, hs⟩ | ⟨-, -, hs⟩
  · rw [hs]
    rfl
  · rw [trimStart_eq_self]
    intro s rest hc
    rw [hs] at hc
    cases ht : p.stem with
    | nil => exact (hn ht).elim
    | cons a rest' =>
        rw [ht, List.cons_append, List.cons.injEq] at hc
        exact hc.1 ▸ isSome_of_stem_cons h ht
  · rw [trimStart_eq_self]
    intro s rest hc
    exact isSome_of_stem_cons h (hs ▸ hc)

/-- What is left of a path after its root has been taken off. -/
theorem At.stripPrefix?_eq {root p : Path} {ns : List Name} (h : At root p ns) :
    p.stripPrefix? root = some (render none (trimEnd (trimStart
      (dropSegments (root.body.filterMap componentOf?).length p.body)))) := by
  rw [stripPrefix?, if_pos h.startsWith]
  cases hk : root.components.length with
  | zero =>
      have hr := List.eq_nil_of_length_eq_zero hk
      have hb : root.body.filterMap componentOf? = [] := by
        rw [components] at hr
        exact (List.append_eq_nil_iff.1 hr).2
      have hh : p.head? = none := by
        cases hns : ns with
        | nil => exact (components_eq_nil (by rw [h, hr, hns]; rfl)).1
        | cons n ms =>
            have hc : p.components.head? = some (.name n) := by rw [h, hr, hns]; rfl
            simpa using head?_components p hc
      rw [hb, List.length_nil, dropSegments, trimEnd_trimStart_body hh, hh]
  | succ k =>
      have hr : root.components ≠ [] := by
        intro hr
        simp [hr] at hk
      dsimp only
      rw [h.head?_eq hr, length_body_components hk]

/-- Taking a root off leaves a path of the names. -/
theorem At.stripPrefix?_components {root p : Path} {ns : List Name} (h : At root p ns) :
    ∃ q, p.stripPrefix? root = some q ∧ q.components = ns.map .name := by
  refine ⟨_, h.stripPrefix?_eq, ?_⟩
  generalize hl : dropSegments (root.body.filterMap componentOf?).length p.body = l
  have hsub : l <:+ p.body := hl ▸ dropSegments_suffix _ _
  rw [components_render]
  · rw [filterMap_trimEnd, filterMap_trimStart, ← hl, filterMap_dropSegments]
    by_cases hr : root.components = []
    · have hb : root.body.filterMap componentOf? = [] := by
        rw [components] at hr
        exact (List.append_eq_nil_iff.1 hr).2
      have hp : p.components = ns.map .name := by rw [h, hr]; rfl
      rw [hb, List.length_nil, List.drop_zero]
      cases hns : ns with
      | nil =>
          rw [hns, components] at hp
          exact (List.append_eq_nil_iff.1 hp).2
      | cons n ms =>
          have hc : p.components.head? = some (.name n) := by rw [hp, hns]; rfl
          rw [components, head?_components p hc, hns] at hp
          simpa using hp
    · rw [h.body_components hr, List.drop_left]
  · intro s hs
    exact slash_not_mem_of_mem_body
      (hsub.subset ((trimStart_suffix l).subset ((trimEnd_isPart _).subset hs)))
  · intro s rest hs
    obtain ⟨t, ht⟩ := trimEnd_isPart (trimStart l)
    rw [hs] at ht
    exact isSome_of_trimStart_cons (ht ▸ List.cons_append)

/-! ## Paths as they are written below a root -/

theorem stem_below (root : Path) (ns : List Name) :
    (root.below ns).stem = root.stem ++ ns.map Name.bytes := by
  induction ns using List.reverseRecOn with
  | nil => simp
  | append_singleton ns n ih =>
      rw [below_concat, stem_child, ih]
      simp

theorem segments_below_concat (root : Path) (ns : List Name) (n : Name) :
    (root.below (ns ++ [n])).segments = root.stem ++ (ns ++ [n]).map Name.bytes := by
  rw [below_concat, segments_child, stem_below]
  simp

/-- The path of some names has them as its text, with slashes in between. -/
theorem ofNames_eq_render (ns : List Name) : ofNames ns = render none (ns.map Name.bytes) := by
  cases ns using List.reverseRecOn with
  | nil => rfl
  | append_singleton ns n =>
      have hs := segments_below_concat ⟨[]⟩ ns n
      have hj : [slash].intercalate (ofNames (ns ++ [n])).segments = (ofNames (ns ++ [n])).text :=
        List.intercalate_splitOn slash
      rw [ofNames, hs] at hj
      show (⟨(ofNames (ns ++ [n])).text⟩ : Path) = ⟨_⟩
      rw [ofNames, ← hj]
      rfl

theorem head?_below (root : Path) (ns : List Name) : (root.below ns).head? = root.head? := by
  induction ns using List.reverseRecOn with
  | nil => rfl
  | append_singleton ns n ih => rw [below_concat, head?_child, ih]

/-- A path that is written below its root is left with the text of its names. -/
theorem stripPrefix?_below (root : Path) (ns : List Name) :
    (root.below ns).stripPrefix? root = some (ofNames ns) := by
  rw [(at_below root ns).stripPrefix?_eq, ofNames_eq_render]
  congr 2
  cases ns using List.reverseRecOn with
  | nil =>
      apply trimEnd_eq_nil
      rw [filterMap_trimStart, filterMap_dropSegments, below_nil]
      exact List.drop_length
  | append_singleton ns n =>
      have hb : (root.below (ns ++ [n])).body =
          (if root.head?.isSome then root.stem.tail else root.stem) ++
            (ns ++ [n]).map Name.bytes := by
        rw [body, head?_below, segments_below_concat]
        split
        · next h =>
          have hne : root.stem ≠ [] := by
            intro hs
            simp [head?_eq, hs] at h
          rw [List.tail_append_of_ne_nil hne]
        · rfl
      rw [hb, body_components, trimStart_dropSegments_append, trimStart_bytes, trimEnd_bytes]

end DirWatch.Path
