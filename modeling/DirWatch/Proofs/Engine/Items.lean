import DirWatch.Engine.Basic
import DirWatch.Proofs.Path.Relative

/-! # Reporting the items of a directory

Inside the root every item is reported, once and in the order of the names, and nothing but the
journal and the count of these reports changes. -/

namespace DirWatch

variable {σ : Type}

/-- Changes that report some items of a directory, one for each and in their order, by their paths
as seen from the root. -/
def Itemizes (root : Path) (kind : ChangeKind) (dir : Path) (items : List (Name × Item))
    (changes : List Change) : Prop :=
  List.Forall₂ (fun e c => c.kind = kind ∧ (dir.child e.1).stripPrefix? root = some c.path ∧
    c.isDirectory = e.2.isDirectory) items changes

/-- The action of telling the listener of a change. -/
def Change.told (c : Change) : Action := .notified (.changed c)

namespace Path

theorem startsWith_iff {p q : Path} : p.startsWith q = true ↔ q.components <+: p.components :=
  List.isPrefixOf_iff_prefix

theorem startsWith_child {p q : Path} (h : p.startsWith q = true) (n : Name) :
    (p.child n).startsWith q = true := by
  rw [startsWith_iff, components_child]
  exact (startsWith_iff.1 h).trans (List.prefix_append _ _)

theorem exists_stripPrefix? {p q : Path} (h : p.startsWith q = true) :
    ∃ rel, p.stripPrefix? q = some rel := by
  cases hs : p.stripPrefix? q with
  | none => simp [not_startsWith_of_stripPrefix? hs] at h
  | some rel => exact ⟨rel, rfl⟩

end Path

namespace Engine

/-- An engine that has reported some changes of one kind. -/
def afterTelling (kind : ChangeKind) (changes : List Change) (s : Engine σ) : Engine σ :=
  { s with
    registry := { s.registry with journal := s.registry.journal ++ changes.map Change.told }
    counters := { s.counters with
      totals := (fun t => t.add kind)^[changes.length] s.counters.totals } }

theorem emit_eq {s : Engine σ} {p : Path} (h : p.startsWith s.registry.root = true)
    (kind : ChangeKind) (f : Bool) :
    ∃ rel, p.stripPrefix? s.registry.root = some rel ∧
      s.emit kind p f = s.afterTelling kind [⟨kind, rel, f⟩] := by
  obtain ⟨rel, hrel⟩ := Path.exists_stripPrefix? h
  refine ⟨rel, hrel, ?_⟩
  simp [emit, Registry.relative?, hrel, afterTelling, Registry.record, Change.told]

theorem emitItems_eq {s : Engine σ} {dir : Path} (h : dir.startsWith s.registry.root = true)
    (kind : ChangeKind) (items : List (Name × Item)) :
    ∃ changes, Itemizes s.registry.root kind dir items changes ∧
      s.emitItems kind dir items = s.afterTelling kind changes := by
  induction items generalizing s with
  | nil => exact ⟨[], .nil, by simp [emitItems, afterTelling]⟩
  | cons e items ih =>
      obtain ⟨rel, hrel, he⟩ := emit_eq (Path.startsWith_child h e.1) kind e.2.isDirectory
      obtain ⟨changes, hc, hs⟩ := ih (s := s.emit kind (dir.child e.1) e.2.isDirectory) (by
        rw [he]
        exact h)
      rw [he] at hc hs
      refine ⟨⟨kind, rel, e.2.isDirectory⟩ :: changes, .cons ⟨rfl, hrel, rfl⟩ hc, ?_⟩
      rw [emitItems, List.foldl_cons, he]
      rw [emitItems] at hs
      rw [hs]
      simp [afterTelling]

end Engine

end DirWatch
