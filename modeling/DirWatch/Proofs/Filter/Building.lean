import DirWatch.Proofs.Filter

/-! # What a filter hides

A filter is built from patterns, names and predicates, in any order and by any calls. It hides a
path below the root if one of the names in it is excluded, or if a pattern or a predicate holds of
the path or of an ancestor. -/

namespace DirWatch

/-! ## Reading patterns -/

namespace Filter

theorem addPattern_eq_ok {f : Filter} {text : String} {p : Glob.Pattern}
    (h : Glob.Pattern.ofString text = .ok p) :
    f.addPattern text = .ok { f with patterns := f.patterns ++ [p] } := by
  rw [addPattern, h]
  rfl

/-- Patterns that can all be read are added, and nothing else changes. -/
theorem foldlM_addPattern {texts : List String}
    (h : ∀ text ∈ texts, ∃ p, Glob.Pattern.ofString text = .ok p) (f : Filter) :
    ∃ patterns, texts.foldlM addPattern f = .ok { f with patterns := f.patterns ++ patterns } ∧
      ∀ p, p ∈ patterns ↔ ∃ text ∈ texts, Glob.Pattern.ofString text = .ok p := by
  induction texts generalizing f with
  | nil => exact ⟨[], by rw [List.append_nil]; rfl, by simp⟩
  | cons text texts ih =>
      obtain ⟨⟨p, hp⟩, htexts⟩ := List.forall_mem_cons.1 h
      obtain ⟨patterns, hf, hmem⟩ := ih htexts { f with patterns := f.patterns ++ [p] }
      refine ⟨p :: patterns, ?_, fun q => ?_⟩
      · rw [List.foldlM_cons, addPattern_eq_ok hp]
        exact hf.trans (by simp)
      · simp [hmem, hp, eq_comm]

/-! ## Names and predicates -/

theorem mem_names_addName {f : Filter} {m n : Bytes} :
    m ∈ (f.addName n).names ↔ m ∈ f.names ∨ m = n := by
  unfold addName
  split
  · next h => exact ⟨.inl, fun hm => hm.elim id fun he => he ▸ h⟩
  · simp

/-- Names are added to the names alone. -/
theorem foldl_addName (names : List Bytes) (f : Filter) :
    ∃ all, names.foldl addName f = { f with names := all } ∧
      ∀ n, n ∈ all ↔ n ∈ f.names ∨ n ∈ names := by
  induction names generalizing f with
  | nil => exact ⟨f.names, rfl, by simp⟩
  | cons n names ih =>
      obtain ⟨all, hall, hmem⟩ := ih (f.addName n)
      refine ⟨all, ?_, fun m => ?_⟩
      · rw [List.foldl_cons, hall]
        unfold addName
        split <;> rfl
      · rw [hmem, mem_names_addName, List.mem_cons, or_assoc]

theorem foldl_addPredicate (predicates : List (Path → Bool)) (f : Filter) :
    predicates.foldl addPredicate f = { f with predicates := f.predicates ++ predicates } := by
  induction predicates generalizing f with
  | nil => rw [List.foldl_nil, List.append_nil]
  | cons p predicates ih =>
      rw [List.foldl_cons, ih]
      simp [addPredicate]

/-- A filter has these exclusions, in some order and each at least once. -/
structure Has (f : Filter) (texts : List String) (names : List Bytes)
    (predicates : List (Path → Bool)) : Prop where
  patterns : ∀ p, p ∈ f.patterns ↔ ∃ text ∈ texts, Glob.Pattern.ofString text = .ok p
  names : ∀ n, n ∈ f.names ↔ n ∈ names
  predicates : ∀ p, p ∈ f.predicates ↔ p ∈ predicates

/-- A filter can be built from patterns that can be read. -/
theorem exists_build {texts : List String}
    (h : ∀ text ∈ texts, ∃ p, Glob.Pattern.ofString text = .ok p) (names : List Bytes)
    (predicates : List (Path → Bool)) :
    ∃ f, build texts names predicates = .ok f ∧ f.Has texts names predicates := by
  obtain ⟨patterns, hf, hpatterns⟩ := foldlM_addPattern h {}
  obtain ⟨all, hall, hnames⟩ := foldl_addName names { patterns }
  refine ⟨{ patterns, names := all, predicates }, ?_, hpatterns, ?_, ?_⟩
  · rw [build, hf]
    change Except.ok (predicates.foldl addPredicate (names.foldl addName { patterns })) = _
    rw [hall, foldl_addPredicate]
    rfl
  · intro n
    rw [hnames]
    simp
  · intro p
    rfl

/-- A pattern or a predicate holds of a path itself. -/
def Matches (texts : List String) (predicates : List (Path → Bool)) (p : Path) : Prop :=
  (∃ text ∈ texts, ∃ pattern, Glob.Pattern.ofString text = .ok pattern ∧
    pattern.matchesPath p = true) ∨ ∃ test ∈ predicates, test p = true

namespace Has

variable {f : Filter} {texts : List String} {names : List Bytes} {predicates : List (Path → Bool)}

/-- A path itself is excluded by its last name, or as a text. -/
theorem excludes_iff (h : f.Has texts names predicates) (p : Path) : f.excludes p = true ↔
    (∃ n, p.fileName? = some n ∧ n.bytes ∈ names) ∨ Matches texts predicates p := by
  have hpattern : f.patterns.any (·.matchesPath p) = true ↔ ∃ text ∈ texts, ∃ pattern,
      Glob.Pattern.ofString text = .ok pattern ∧ pattern.matchesPath p = true := by
    simp only [List.any_eq_true, h.patterns]
    constructor
    · rintro ⟨pattern, ⟨text, ht, hp⟩, hm⟩
      exact ⟨text, ht, pattern, hp, hm⟩
    · rintro ⟨text, ht, pattern, hp, hm⟩
      exact ⟨pattern, ⟨text, ht, hp⟩, hm⟩
  have hname : p.fileName?.any (fun n => f.names.contains n.bytes) = true ↔
      ∃ n, p.fileName? = some n ∧ n.bytes ∈ names := by
    simp [Option.any_eq_true, h.names]
  rw [excludes, Bool.or_eq_true, Bool.or_eq_true, hname, hpattern, List.any_eq_true, or_assoc]
  simp only [h.predicates, Matches]

theorem excludes_child (h : f.Has texts names predicates) (ns : List Name) (n : Name) :
    f.excludes (.ofNames (ns ++ [n])) = true ↔
      n.bytes ∈ names ∨ Matches texts predicates (.ofNames (ns ++ [n])) := by
  have hn : (Path.ofNames (ns ++ [n])).fileName? = some n := by
    rw [Path.fileName?, Path.components_ofNames]
    simp
  rw [h.excludes_iff, hn]
  simp

/-- Some name is excluded, or a pattern or a predicate holds of a non-empty beginning. -/
theorem allows_eq_false_iff (h : f.Has texts names predicates) (ns : List Name) :
    f.allows (.ofNames ns) = false ↔ (∃ n ∈ ns, n.bytes ∈ names) ∨
      ∃ qs, qs ≠ [] ∧ qs <+: ns ∧ Matches texts predicates (.ofNames qs) := by
  induction ns using List.reverseRecOn with
  | nil => simp [allows_nil f, Path.ofNames]
  | append_singleton ns n ih =>
      have hmatch : (∃ qs, qs ≠ [] ∧ qs <+: ns ++ [n] ∧ Matches texts predicates (.ofNames qs)) ↔
          Matches texts predicates (.ofNames (ns ++ [n])) ∨
            ∃ qs, qs ≠ [] ∧ qs <+: ns ∧ Matches texts predicates (.ofNames qs) := by
        constructor
        · rintro ⟨qs, hne, hqs, hm⟩
          rcases List.prefix_concat_iff.1 hqs with rfl | hqs
          · exact .inl hm
          · exact .inr ⟨qs, hne, hqs, hm⟩
        · rintro (hm | ⟨qs, hne, hqs, hm⟩)
          · exact ⟨_, by simp, List.prefix_rfl, hm⟩
          · exact ⟨qs, hne, hqs.trans (List.prefix_append ns [n]), hm⟩
      rw [allows_concat, Bool.and_eq_false_iff, Bool.not_eq_false', h.excludes_child, ih, hmatch]
      simp only [List.mem_append, List.mem_singleton, or_and_right, exists_or, exists_eq_left]
      rw [or_or_or_comm, or_comm (a := n.bytes ∈ names)]

/-- The order of the exclusions and their repetition do not matter. -/
theorem allows_congr {g : Filter} {texts' : List String} {names' : List Bytes}
    {predicates' : List (Path → Bool)} (h : f.Has texts names predicates)
    (hg : g.Has texts' names' predicates') (ht : ∀ text, text ∈ texts' ↔ text ∈ texts)
    (hn : ∀ name, name ∈ names' ↔ name ∈ names) (hp : ∀ p, p ∈ predicates' ↔ p ∈ predicates) :
    g.allows = f.allows := by
  have hexcludes : g.excludes = f.excludes := by
    funext p
    rw [Bool.eq_iff_iff, hg.excludes_iff, h.excludes_iff]
    simp only [Matches, ht, hn, hp]
  funext p
  rw [allows, allows, hexcludes]

end Has

theorem allows_of_isEmpty {f : Filter} (h : f.isEmpty = true) : f.allows = fun _ => true := by
  simp only [isEmpty, Bool.and_eq_true, List.isEmpty_iff] at h
  obtain ⟨⟨hpatterns, hnames⟩, hpredicates⟩ := h
  have hf : f = {} := by
    cases f
    simp_all
  funext p
  rw [hf, allows_default]

end Filter

/-! ## Calls of a builder -/

/-- A call that adds exclusions, one by one or in bulk. -/
inductive Addition where
  | pattern (text : String)
  | patterns (texts : List String)
  | name (name : Bytes)
  | names (names : List Bytes)
  | predicate (p : Path → Bool)

namespace Addition

/-- The builder after a call. -/
def apply (b : FilterBuilder) : Addition → FilterBuilder
  | pattern text => b.addPattern text
  | patterns texts => b.addPatterns texts
  | name n => b.addName n
  | names ns => b.addNames ns
  | predicate p => b.addPredicate p

/-- A call adds this pattern. -/
def Adds (text : String) : Addition → Prop
  | pattern t => text = t
  | patterns texts => text ∈ texts
  | _ => False

/-- A call excludes this name. -/
def Excludes (name : Bytes) : Addition → Prop
  | .name n => name = n
  | names ns => name ∈ ns
  | _ => False

/-- A call adds this predicate. -/
def Tests (p : Path → Bool) : Addition → Prop
  | predicate q => p = q
  | _ => False

variable (b : FilterBuilder) (call : Addition)

theorem mem_patterns_apply (text : String) :
    text ∈ (call.apply b).patterns ↔ text ∈ b.patterns ∨ call.Adds text := by
  cases call <;>
    simp [apply, Adds, FilterBuilder.addPattern, FilterBuilder.addPatterns, FilterBuilder.addName,
      FilterBuilder.addNames, FilterBuilder.addPredicate]

theorem mem_names_apply (name : Bytes) :
    name ∈ (call.apply b).names ↔ name ∈ b.names ∨ call.Excludes name := by
  cases call with
  | name n => exact List.mem_insert_iff.trans or_comm
  | names ns => exact List.mem_union_iff.trans or_comm
  | _ => simp [apply, Excludes, FilterBuilder.addPattern, FilterBuilder.addPatterns,
      FilterBuilder.addPredicate]

theorem mem_predicates_apply (p : Path → Bool) :
    p ∈ (call.apply b).predicates ↔ p ∈ b.predicates ∨ call.Tests p := by
  cases call <;>
    simp [apply, Tests, FilterBuilder.addPattern, FilterBuilder.addPatterns, FilterBuilder.addName,
      FilterBuilder.addNames, FilterBuilder.addPredicate]

end Addition

namespace FilterBuilder

/-- The builder after some calls. -/
def after (calls : List Addition) : FilterBuilder := calls.foldl Addition.apply {}

theorem after_concat (calls : List Addition) (call : Addition) :
    after (calls ++ [call]) = call.apply (after calls) := by
  rw [after, List.foldl_append]
  rfl

variable (calls : List Addition)

/-- What a builder holds was added by some call, whatever the order of the calls is. -/
theorem mem_after {α : Type} {held : FilterBuilder → List α} {added : α → Addition → Prop}
    (hempty : held {} = [])
    (happly : ∀ b call a, a ∈ held (Addition.apply b call) ↔ a ∈ held b ∨ added a call) (a : α) :
    a ∈ held (after calls) ↔ ∃ call ∈ calls, added a call := by
  induction calls using List.reverseRecOn with
  | nil => simp [after, hempty]
  | append_singleton calls call ih => simp [after_concat, happly, ih, or_and_right, exists_or]

theorem mem_patterns_after (text : String) :
    text ∈ (after calls).patterns ↔ ∃ call ∈ calls, call.Adds text :=
  mem_after calls rfl (fun b call t => Addition.mem_patterns_apply b call t) text

theorem mem_names_after (name : Bytes) :
    name ∈ (after calls).names ↔ ∃ call ∈ calls, call.Excludes name :=
  mem_after calls rfl (fun b call n => Addition.mem_names_apply b call n) name

theorem mem_predicates_after (p : Path → Bool) :
    p ∈ (after calls).predicates ↔ ∃ call ∈ calls, call.Tests p :=
  mem_after calls rfl (fun b call q => Addition.mem_predicates_apply b call q) p

/-- Some calls add the same exclusions as others, in another order or grouping, or repeatedly. -/
structure SameAdditions (calls others : List Addition) : Prop where
  patterns : ∀ text, (∃ call ∈ others, call.Adds text) ↔ ∃ call ∈ calls, call.Adds text
  names : ∀ name, (∃ call ∈ others, call.Excludes name) ↔ ∃ call ∈ calls, call.Excludes name
  predicates : ∀ p, (∃ call ∈ others, call.Tests p) ↔ ∃ call ∈ calls, call.Tests p

/-- A pattern or a predicate of some calls holds of a path itself. -/
def Matched (calls : List Addition) (p : Path) : Prop :=
  (∃ text pattern, (∃ call ∈ calls, call.Adds text) ∧ Glob.Pattern.ofString text = .ok pattern ∧
    pattern.matchesPath p = true) ∨ ∃ test, (∃ call ∈ calls, call.Tests test) ∧ test p = true

/-- What a filter hides after some calls. Paths below the root are lists of names. -/
structure Hides (calls : List Addition) (f : Filter) : Prop where
  /-- Some name of the path is excluded, or the path or an ancestor below the root is matched. -/
  hidden_iff : ∀ ns : List Name, f.allows (.ofNames ns) = false ↔
    (∃ n ∈ ns, ∃ call ∈ calls, call.Excludes n.bytes) ∨
      ∃ qs, qs ≠ [] ∧ qs <+: ns ∧ Matched calls (.ofNames qs)
  /-- An entry is observed if its directory is and the entry itself is not excluded. -/
  child_iff : ∀ (ns : List Name) (n : Name), f.allows ((Path.ofNames ns).child n) = true ↔
    f.allows (.ofNames ns) = true ∧ ¬ (∃ call ∈ calls, call.Excludes n.bytes) ∧
      ¬ Matched calls ((Path.ofNames ns).child n)
  /-- What is hidden hides all that is below it. -/
  below : ∀ ns more : List Name, f.allows (.ofNames ns) = false →
    f.allows (.ofNames (ns ++ more)) = false
  /-- The root is observed whatever is excluded. -/
  root : f.allows ⟨[]⟩ = true
  /-- Other calls that add the same exclusions make a filter that hides the same. -/
  unordered : ∀ others, SameAdditions calls others →
    ∃ g, (after others).build = .ok g ∧ g.allows = f.allows
  /-- A filter without exclusions observes every path. -/
  empty : f.isEmpty = true → ∀ p, f.allows p = true

theorem matches_after_iff {p : Path} :
    Filter.Matches (after calls).patterns (after calls).predicates p ↔ Matched calls p := by
  simp only [Filter.Matches, Matched, mem_patterns_after, mem_predicates_after, exists_and_left]

/-- A filter of patterns that can be read is built, and hides what the calls say. -/
theorem hides_of_calls
    (readable : ∀ call ∈ calls, ∀ text, call.Adds text → ∃ p, Glob.Pattern.ofString text = .ok p) :
    ∃ f, (after calls).build = .ok f ∧ Hides calls f := by
  have hreadable : ∀ {others}, SameAdditions calls others →
      ∀ text ∈ (after others).patterns, ∃ p, Glob.Pattern.ofString text = .ok p := by
    intro others hs text ht
    obtain ⟨call, hcall, hadds⟩ := (hs.patterns text).1 ((mem_patterns_after others text).1 ht)
    exact readable call hcall text hadds
  have hself : SameAdditions calls calls := ⟨fun _ => .rfl, fun _ => .rfl, fun _ => .rfl⟩
  obtain ⟨f, hf, hhas⟩ := Filter.exists_build (hreadable hself) (after calls).names
    (after calls).predicates
  have hchild (ns : List Name) (n : Name) : (Path.ofNames ns).child n = .ofNames (ns ++ [n]) :=
    (Path.below_concat _ ns n).symm
  refine ⟨f, hf, ?hidden_iff, ?child_iff, ?below, f.allows_nil, ?unordered, ?empty⟩
  case hidden_iff =>
    intro ns
    simp only [hhas.allows_eq_false_iff, mem_names_after, matches_after_iff]
  case child_iff =>
    intro ns n
    rw [hchild, Filter.allows_concat, Bool.and_eq_true, Bool.not_eq_true', ← Bool.not_eq_true,
      hhas.excludes_child, not_or, mem_names_after, matches_after_iff, and_comm]
  case below =>
    intro ns more
    rw [hhas.allows_eq_false_iff, hhas.allows_eq_false_iff]
    rintro (⟨n, hn, hname⟩ | ⟨qs, hne, hqs, hm⟩)
    · exact .inl ⟨n, List.mem_append_left more hn, hname⟩
    · exact .inr ⟨qs, hne, hqs.trans (List.prefix_append ns more), hm⟩
  case unordered =>
    intro others hs
    obtain ⟨g, hg, hghas⟩ := Filter.exists_build (hreadable hs) (after others).names
      (after others).predicates
    refine ⟨g, hg, hhas.allows_congr hghas ?_ ?_ ?_⟩
    · simpa only [mem_patterns_after] using hs.patterns
    · simpa only [mem_names_after] using hs.names
    · simpa only [mem_predicates_after] using hs.predicates
  case empty =>
    intro h p
    rw [Filter.allows_of_isEmpty h]

/-- The pattern of a star hides everything but the root, beside a name that is excluded twice. -/
theorem hides_of_calls_star :
    let calls : List Addition := [.pattern "*", .name [0x78], .names [[0x78], [0x79]]]
    ∃ f, (after calls).build = .ok f ∧ Hides calls f := by
  intro calls
  refine hides_of_calls calls fun call hcall text hadds => ?_
  obtain rfl | hcall := List.mem_cons.1 hcall
  · obtain rfl : text = "*" := hadds
    exact ⟨⟨"*", [.anySequence]⟩, by simp [Glob.Pattern.ofString, Glob.tokens]⟩
  · obtain rfl | rfl : call = .name [0x78] ∨ call = .names [[0x78], [0x79]] := by
      simpa using hcall
    · cases hadds
    · cases hadds

end FilterBuilder

end DirWatch
