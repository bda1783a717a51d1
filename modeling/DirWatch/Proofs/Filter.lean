import DirWatch.Filter
import DirWatch.Proofs.Path.Relative

/-! # What is hidden stays hidden below

The ancestors of an entry are those of its directory and the entry itself, so an entry is observed
if its directory is and nothing excludes it. -/

namespace DirWatch

namespace Path

theorem segments_ofNames_concat (ns : List Name) (n : Name) :
    (ofNames (ns ++ [n])).segments = (ns ++ [n]).map Name.bytes :=
  segments_below_concat ⟨[]⟩ ns n

theorem head?_ofNames (ns : List Name) : (ofNames ns).head? = none := head?_below ⟨[]⟩ ns

theorem components_ofNames (ns : List Name) : (ofNames ns).components = ns.map .name :=
  at_below ⟨[]⟩ ns

theorem ofNames_inj {y z : List Name} : ofNames y = ofNames z ↔ y = z := by
  refine ⟨fun h => ?_, congrArg ofNames⟩
  rw [← map_name_inj, ← components_ofNames, h, components_ofNames]

theorem startsWith_self (p : Path) : p.startsWith p = true :=
  List.isPrefixOf_iff_prefix.2 List.prefix_rfl

theorem startsWith_ofNames {y z : List Name} :
    (ofNames z).startsWith (ofNames y) = true ↔ y <+: z := by
  rw [startsWith, List.isPrefixOf_iff_prefix, components_ofNames, components_ofNames]
  constructor
  · rintro ⟨rest, hrest⟩
    obtain ⟨front, back, rfl, hfront, -⟩ := List.map_eq_append_iff.1 hrest.symm
    exact ⟨back, by rw [map_name_inj.1 hfront]⟩
  · rintro ⟨rest, rfl⟩
    rw [List.map_append]
    exact List.prefix_append _ _

theorem isEmpty_ofNames_concat (ns : List Name) (n : Name) :
    (ofNames (ns ++ [n])).isEmpty = false := by
  rw [isEmpty, ofNames, below_concat]
  simpa using text_child_ne_nil _ n

/-- The parent of an entry is its directory. -/
theorem parent?_ofNames_concat (ns : List Name) (n : Name) :
    (ofNames (ns ++ [n])).parent? = some (ofNames ns) := by
  have hb : trimEnd (ofNames (ns ++ [n])).body = (ns ++ [n]).map Name.bytes := by
    rw [body, head?_ofNames, segments_ofNames_concat]
    exact trimEnd_bytes _
  have hd : ((ns ++ [n]).map Name.bytes).dropLast = ns.map Name.bytes := by
    rw [List.map_append, List.map_singleton, List.dropLast_concat]
  rw [parent?, hb, head?_ofNames]
  split
  · next h => simp at h
  · next s rest h => rw [← h, hd, trimEnd_bytes, ofNames_eq_render]

theorem ancestors_ofNames_concat (ns : List Name) (n : Name) :
    (ofNames (ns ++ [n])).ancestors = ofNames (ns ++ [n]) :: (ofNames ns).ancestors := by
  rw [ancestors, ancestors, components_ofNames, components_ofNames, List.length_map,
    List.length_map, List.length_append, List.length_singleton, ancestorsWithin,
    parent?_ofNames_concat]

end Path

namespace Filter

theorem allows_concat (f : Filter) (ns : List Name) (n : Name) :
    f.allows (.ofNames (ns ++ [n])) =
      (!f.excludes (.ofNames (ns ++ [n])) && f.allows (.ofNames ns)) := by
  rw [allows, Path.ancestors_ofNames_concat, List.takeWhile_cons_of_pos, List.any_cons,
    Bool.not_or]
  · rfl
  · simp [Path.isEmpty_ofNames_concat]

theorem allows_nil (f : Filter) : f.allows ⟨[]⟩ = true := rfl

/-- Without exclusions everything is observed. -/
theorem allows_default (p : Path) : ({} : Filter).allows p = true := by
  have hnone : ({} : Filter).excludes = fun _ => false := by
    funext q
    cases hq : q.fileName? <;> simp [excludes, hq]
  simp [allows, hnone]

/-- The directory of what is observed is observed. -/
theorem allows_of_concat {f : Filter} {ns : List Name} {n : Name}
    (h : f.allows (.ofNames (ns ++ [n])) = true) : f.allows (.ofNames ns) = true := by
  rw [allows_concat] at h
  exact (Bool.and_eq_true_iff.1 h).2

end Filter

end DirWatch
