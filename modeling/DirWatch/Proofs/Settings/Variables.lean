import DirWatch.Proofs.Number.Reading
import DirWatch.Settings.Loading
import Mathlib.Logic.Basic

/-! # Settings from one variable

What a variable of the environment that stores a list or a path leads to. A text that spells a truth
value or a number is taken as such before it is split into items or kept as a text; every other one
arrives as it was written. -/

namespace DirWatch

open Document

/-! ## What a text spells -/

namespace Variable

/-- What is a word in lower case, and not that of the Kelvin sign, has letters only. -/
theorem isMark_of_lower {s word : String} (h : Text.lower s = word)
    (hword : (word.toList.all fun c => c.isAlpha && c != 'k') = true) :
    ∀ c ∈ s.toList, Number.isMark c = true := by
  have hletters : ∀ c ∈ word.toList, c.isAlpha = true ∧ c ≠ 'k' := by
    simpa using hword
  have hmap : s.toList.map Text.lowerChar = word.toList := by
    rw [← h, Text.lower, String.toList_ofList]
  have hlower : s.toList.map Char.toLower = word.toList := by
    rw [← hmap]
    refine List.map_congr_left fun c hc => ?_
    have hk : Text.lowerChar c ≠ 'k' := (hletters _ (hmap ▸ List.mem_map_of_mem hc)).2
    unfold Text.lowerChar at hk ⊢
    split at hk
    · exact absurd rfl hk
    · next hne => rw [if_neg hne]
  exact Number.isMark_of_map_toLower hlower
    (List.all_eq_true.2 fun c hc => (hletters c hc).1)

/-- What spells a truth value or a number has the characters of one. -/
theorem isMark_of_scalar? {s : String} {v : Value} (h : scalar? s = some v) :
    ∀ c ∈ s.toList, Number.isMark c = true := by
  simp only [scalar?] at h
  split at h
  · next hword => exact isMark_of_lower hword rfl
  · split at h
    · next hword => exact isMark_of_lower hword rfl
    · cases hi : Number.readInt64? s.toList with
      | some i => exact Number.isMark_of_readInt64? hi
      | none =>
          rw [hi] at h
          obtain ⟨x, hx, -⟩ := Option.map_eq_some_iff.1 h
          exact Number.isMark_of_readBinary64? hx

/-- A text with any other character is taken as it is. -/
theorem scalar?_eq_none {s : String} {c : Char} (hc : c ∈ s.toList)
    (hmark : Number.isMark c = false) : scalar? s = none := by
  cases h : scalar? s with
  | none => rfl
  | some v =>
      rw [isMark_of_scalar? h c hc] at hmark
      cases hmark

/-- A truth value or a number is neither a list nor a table, and has a text. -/
theorem scalar?_eq_some {s : String} {v : Value} (h : scalar? s = some v) :
    (∃ b, v = .flag b) ∨ (∃ i, v = .integer i) ∨ ∃ x, v = .number x := by
  simp only [scalar?] at h
  split at h
  · exact .inl ⟨true, (Option.some.inj h).symm⟩
  · split at h
    · exact .inl ⟨false, (Option.some.inj h).symm⟩
    · cases hi : Number.readInt64? s.toList with
      | some i =>
          rw [hi] at h
          exact .inr (.inl ⟨i, (Option.some.inj h).symm⟩)
      | none =>
          rw [hi] at h
          obtain ⟨x, -, hx⟩ := Option.map_eq_some_iff.1 h
          exact .inr (.inr ⟨x, hx.symm⟩)

/-! ## What a variable stores -/

/-- What a text becomes where a text is wanted. -/
def printed (s : String) : String := ((scalar? s).bind Conversion.lenient.text?).getD s

theorem printed_eq_self {s : String} (h : scalar? s = none) : printed s = s := by
  rw [printed, h]
  rfl

/-- Whether texts, written with commas between them, are taken for one truth value or number. -/
def Mistaken (items : List String) : Prop := ∃ item, items = [item] ∧ (scalar? item).isSome = true

theorem splitItems_intercalate {items : List String} (hne : items ≠ [])
    (hcomma : ∀ item ∈ items, ',' ∉ item.toList) :
    splitItems (",".intercalate items) = items.map .text := by
  have hsplit : (",".intercalate items).toList.splitOn ',' = items.map String.toList := by
    rw [String.toList_intercalate]
    refine List.splitOn_intercalate ',' ?_ (by simpa using hne)
    exact List.forall_mem_map.2 hcomma
  rw [splitItems, hsplit, List.map_map]
  exact List.map_congr_left fun item _ => congrArg Value.text String.ofList_toList

/-- Two items at least have a comma between them, which no truth value or number has. -/
theorem scalar?_intercalate {items : List String} (hne : items ≠ []) (hm : ¬ Mistaken items) :
    scalar? (",".intercalate items) = none := by
  match items with
  | [item] =>
      rw [String.intercalate_singleton, ← Option.not_isSome_iff_eq_none]
      exact fun hs => hm ⟨item, rfl, hs⟩
  | item :: next :: rest =>
      refine scalar?_eq_none (c := ',') ?_ (by decide)
      simp

theorem valueAt_of_scalar? {key s : String} {v : Value} (h : scalar? s = some v) :
    valueAt key s = v := by
  rw [valueAt, h]

theorem valueAt_intercalate {key : String} (hkey : key ∈ listKeys) {items : List String}
    (hne : items ≠ []) (hcomma : ∀ item ∈ items, ',' ∉ item.toList) (hm : ¬ Mistaken items) :
    valueAt key (",".intercalate items) = .list (items.map .text) := by
  rw [valueAt, scalar?_intercalate hne hm, splitItems_intercalate hne hcomma]
  exact if_pos hkey

theorem text?_valueAt {key s : String} (hkey : key ∉ listKeys) :
    Conversion.lenient.text? (valueAt key s) = some (printed s) := by
  cases h : scalar? s with
  | none =>
      rw [printed_eq_self h, valueAt, h]
      dsimp only
      rw [if_neg hkey]
      rfl
  | some v =>
      rw [valueAt_of_scalar? h, printed, h]
      rcases scalar?_eq_some h with ⟨b, rfl⟩ | ⟨i, rfl⟩ | ⟨x, rfl⟩ <;> rfl

/-- A variable never stores a table, so that what it stores takes the place of what was there. -/
theorem overlay_valueAt (base : Value) (key s : String) :
    base.overlay (valueAt key s) = valueAt key s := by
  cases h : scalar? s with
  | none =>
      rw [valueAt, h]
      dsimp only
      split <;> rw [Value.overlay]
      all_goals simp
  | some v =>
      rw [valueAt_of_scalar? h]
      rcases scalar?_eq_some h with ⟨b, rfl⟩ | ⟨i, rfl⟩ | ⟨x, rfl⟩ <;> rw [Value.overlay] <;> simp

theorem entries_eq_nil {environment : List Variable}
    (h : ∀ v ∈ environment, key? v.name = none) : entries environment = [] :=
  List.filterMap_eq_nil_iff.2 fun v hv => by rw [h v hv]; rfl

/-- Variables whose names do not count are as if they were not there. -/
theorem entries_of_others {before after : List Variable}
    (hothers : ∀ v ∈ before ++ after, key? v.name = none) {name key : String}
    (hkey : key? name = some key) (value : String) :
    entries (before ++ ⟨name, value⟩ :: after) = [(key, valueAt key value)] := by
  obtain ⟨hbefore, hafter⟩ := List.forall_mem_append.1 hothers
  have hone : entries (⟨name, value⟩ :: after) = (key, valueAt key value) :: entries after := by
    rw [entries, List.filterMap_cons, hkey]
    rfl
  rw [entries, List.filterMap_append, ← entries, ← entries, hone, entries_eq_nil hbefore,
    entries_eq_nil hafter]
  rfl

end Variable

/-! ## Loading -/

namespace Settings

open Variable

variable {before after : List Variable}
  (hothers : ∀ v ∈ before ++ after, key? v.name = none)

include hothers in
/-- One variable alone: the settings are those of a table with the one entry it stores. -/
theorem load_variable (p : Path) (name key setting : String) (hkey : key? name = some key)
    (hpath : KeyPath.ofKey key = [.name "watcher", .name setting])
    (hlower : Text.lower setting = setting) (value : String) :
    load p .absent (before ++ ⟨name, value⟩ :: after) =
      match ofEntries? .lenient [(setting, valueAt key value)] with
      | some s => .ok s
      | none => .error .wrongType := by
  have hwatcher : Text.lower "watcher" = "watcher" := rfl
  have hdocument : ((Value.table []).layer []).layer [(key, valueAt key value)] =
      .table [("watcher", .table [(setting, valueAt key value)])] := by
    simp only [Value.layer, List.foldl_cons, List.foldl_nil, hpath, Value.store, hlower, hwatcher,
      overlay_valueAt, Value.entries, Value.find?, Value.put, Option.getD_none]
  have hread : ofDocument? .lenient (.table [("watcher", .table [(setting, valueAt key value)])]) =
      ofEntries? .lenient [(setting, valueAt key value)] := rfl
  cases hentries : ofEntries? .lenient [(setting, valueAt key value)] <;>
    simp only [load, entries_of_others hothers hkey, fileEntries, hdocument, hread, hentries]

theorem ofEntries?_patterns (c : Conversion) (v : Value) :
    ofEntries? c [("exclude_patterns", v)] =
      (c.texts? v).map fun texts => { excludePatterns := texts } := by
  cases h : c.texts? v <;> simp [ofEntries?, taken?, Value.find?, h]

theorem ofEntries?_names (c : Conversion) (v : Value) :
    ofEntries? c [("excluded_dirs", v)] =
      (c.texts? v).map fun texts => { excludedNames := texts } := by
  cases h : c.texts? v <;> simp [ofEntries?, taken?, Value.find?, h]

theorem ofEntries?_root (c : Conversion) (v : Value) :
    ofEntries? c [("root", v)] = (c.path? v).map fun root => { root := root } := by
  cases h : c.path? v <;> simp [ofEntries?, taken?, Value.find?, h]

theorem texts?_map_text (items : List String) :
    Conversion.lenient.texts? (.list (items.map .text)) = some items := by
  induction items with
  | nil => rfl
  | cons item items ih =>
      change (items.map Value.text).mapM Conversion.lenient.text? = some items at ih
      rw [Conversion.texts?, List.map_cons, List.mapM_cons, ih]
      rfl

theorem texts?_of_scalar? {s : String} {v : Value} (h : scalar? s = some v) (c : Conversion) :
    c.texts? v = none := by
  rcases scalar?_eq_some h with ⟨b, rfl⟩ | ⟨i, rfl⟩ | ⟨x, rfl⟩ <;> rfl

theorem path?_valueAt {key s : String} (hkey : key ∉ listKeys) :
    Conversion.lenient.path? (valueAt key s) = some (some (.ofString (printed s))) := by
  have hnull : valueAt key s ≠ .null := by
    intro h
    have ht := text?_valueAt (s := s) hkey
    rw [h] at ht
    cases ht
  rw [Conversion.path?, text?_valueAt hkey]
  · rfl
  · exact hnull

include hothers in
theorem load_patterns (p : Path) (value : String) :
    load p .absent (before ++ ⟨"TREEWATCH_WATCHER__EXCLUDE_PATTERNS", value⟩ :: after) =
      match Conversion.lenient.texts? (valueAt "watcher.exclude_patterns" value) with
      | some texts => .ok { excludePatterns := texts }
      | none => .error .wrongType := by
  rw [load_variable hothers p "TREEWATCH_WATCHER__EXCLUDE_PATTERNS" "watcher.exclude_patterns"
    "exclude_patterns" rfl rfl rfl, ofEntries?_patterns]
  cases Conversion.lenient.texts? (valueAt "watcher.exclude_patterns" value) <;> rfl

include hothers in
theorem load_names (p : Path) (value : String) :
    load p .absent (before ++ ⟨"TREEWATCH_WATCHER__EXCLUDED_DIRS", value⟩ :: after) =
      match Conversion.lenient.texts? (valueAt "watcher.excluded_dirs" value) with
      | some texts => .ok { excludedNames := texts }
      | none => .error .wrongType := by
  rw [load_variable hothers p "TREEWATCH_WATCHER__EXCLUDED_DIRS" "watcher.excluded_dirs"
    "excluded_dirs" rfl rfl rfl, ofEntries?_names]
  cases Conversion.lenient.texts? (valueAt "watcher.excluded_dirs" value) <;> rfl

include hothers in
theorem load_root (p : Path) (value : String) :
    load p .absent (before ++ ⟨"TREEWATCH_WATCHER__ROOT", value⟩ :: after) =
      .ok { root := some (.ofString (printed value)) } := by
  rw [load_variable hothers p "TREEWATCH_WATCHER__ROOT" "watcher.root" "root"
    rfl rfl rfl, ofEntries?_root, path?_valueAt (by decide)]
  rfl

/-- Without a file, a variable with texts and commas between them arrives as the list of the texts,
unless it is one text alone that spells a truth value or a number: then nothing is loaded. A root
arrives as the truth value or number that it spells is printed, and else as it was written, as it
does whenever it has a character that is no letter, digit, sign or point. -/
theorem load_verbatim (p : Path) {before after : List Variable}
    (hothers : ∀ v ∈ before ++ after, key? v.name = none) :
    (∀ items : List String, items ≠ [] → (∀ item ∈ items, ',' ∉ item.toList) →
      ¬ Mistaken items →
        load p .absent
            (before ++ ⟨"TREEWATCH_WATCHER__EXCLUDED_DIRS", ",".intercalate items⟩ :: after)
          = .ok { excludedNames := items } ∧
        load p .absent
            (before ++ ⟨"TREEWATCH_WATCHER__EXCLUDE_PATTERNS", ",".intercalate items⟩ :: after)
          = .ok { excludePatterns := items }) ∧
    (∀ items : List String, Mistaken items →
        load p .absent
            (before ++ ⟨"TREEWATCH_WATCHER__EXCLUDED_DIRS", ",".intercalate items⟩ :: after)
          = .error .wrongType ∧
        load p .absent
            (before ++ ⟨"TREEWATCH_WATCHER__EXCLUDE_PATTERNS", ",".intercalate items⟩ :: after)
          = .error .wrongType) ∧
    (∀ value : String,
        load p .absent (before ++ ⟨"TREEWATCH_WATCHER__ROOT", value⟩ :: after)
          = .ok { root := some (.ofString (printed value)) }) ∧
    ∀ value : String, scalar? value = none ∨ (∃ c ∈ value.toList, Number.isMark c = false) →
      printed value = value := by
  refine ⟨?_, ?_, load_root hothers p, ?_⟩
  · intro items hne hcomma hm
    rw [load_names hothers, load_patterns hothers,
      valueAt_intercalate (by decide) hne hcomma hm, valueAt_intercalate (by decide) hne hcomma hm,
      texts?_map_text]
    exact ⟨rfl, rfl⟩
  · rintro _ ⟨item, rfl, hs⟩
    obtain ⟨v, hv⟩ := Option.isSome_iff_exists.1 hs
    rw [String.intercalate_singleton, load_names hothers, load_patterns hothers,
      valueAt_of_scalar? hv, valueAt_of_scalar? hv, texts?_of_scalar? hv]
    exact ⟨rfl, rfl⟩
  · rintro value (h | ⟨c, hc, hmark⟩)
    · exact printed_eq_self h
    · exact printed_eq_self (scalar?_eq_none hc hmark)

/-- Two names of directories, the second of which would be a number alone. -/
theorem load_verbatim_years :
    let home : Variable := ⟨"HOME", "/home/user"⟩
    (∀ v ∈ [home] ++ [], key? v.name = none) ∧
      load ⟨[]⟩ .absent ([home] ++ [⟨"TREEWATCH_WATCHER__EXCLUDED_DIRS", "target,2024"⟩])
        = .ok { excludedNames := ["target", "2024"] } ∧
      load ⟨[]⟩ .absent ([home] ++ [⟨"TREEWATCH_WATCHER__ROOT", "/srv/2024"⟩])
        = .ok { root := some (.ofString "/srv/2024") } := by
  intro home
  have hothers : ∀ v ∈ [home] ++ [], key? v.name = none := by decide +kernel
  obtain ⟨hlists, -, hroot, hprinted⟩ := load_verbatim ⟨[]⟩ hothers
  have hm : ¬ Mistaken ["target", "2024"] := by
    rintro ⟨item, hitem, -⟩
    cases hitem
  refine ⟨hothers, (hlists ["target", "2024"] (by decide) (by decide) hm).1, ?_⟩
  rw [hroot, hprinted "/srv/2024" (.inr ⟨'/', by decide, by decide⟩)]

/-- A name of digits alone is not taken as a list of one item, and a root of digits alone loses its
leading zeros. -/
theorem not_verbatim_of_digits :
    load ⟨[]⟩ .absent [⟨"TREEWATCH_WATCHER__EXCLUDED_DIRS", ",".intercalate ["2024"]⟩]
        = .error .wrongType ∧
      load ⟨[]⟩ .absent [⟨"TREEWATCH_WATCHER__ROOT", "007"⟩]
        = .ok { root := some (.ofString "7") } ∧
      Path.ofString "7" ≠ .ofString "007" := by
  have hothers : ∀ v ∈ ([] ++ [] : List Variable), key? v.name = none := by simp
  refine ⟨?_, ?_, by decide +kernel⟩
  · have hyear : scalar? "2024" = some (.integer 2024) := rfl
    have hl := load_names hothers ⟨[]⟩ "2024"
    rw [valueAt_of_scalar? hyear] at hl
    rw [String.intercalate_singleton]
    exact hl
  · have hprinted : printed "007" = "7" := rfl
    have hl := load_root hothers ⟨[]⟩ "007"
    rw [hprinted] at hl
    exact hl

end Settings

end DirWatch
