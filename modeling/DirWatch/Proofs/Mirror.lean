import DirWatch.Notification
import DirWatch.TrackedDirectory
import Mathlib.Logic.Function.Basic

/-! # A listener's view of the tree

A listener that follows the notifications knows which entries there are, which of them are
directories, and when a file was changed last. An event is a notification together with what it is
about: a time is not told, but it is known to whoever lists the directory. -/

namespace DirWatch

/-- What can be known of an entry. -/
inductive Known where
  | directory
  | file (modified : Option Timestamp)
  deriving DecidableEq

namespace Known

def isDirectory : Known → Bool
  | directory => true
  | file _ => false

@[simp] theorem isDirectory_directory : directory.isDirectory = true := rfl

@[simp] theorem isDirectory_file (t : Option Timestamp) : (file t).isDirectory = false := rfl

theorem isDirectory_iff {k : Known} : k.isDirectory = true ↔ k = directory := by
  cases k <;> simp

end Known

/-- What is known of an entry that a listing shows. The time of a directory does not count. -/
def ListedEntry.known (e : ListedEntry) : Known :=
  if e.isDirectory then .directory else .file e.modified

/-- What is known of an item. -/
def Item.known (i : Item) : Known := if i.isDirectory then .directory else .file i.modified

@[simp] theorem ListedEntry.isDirectory_known (e : ListedEntry) :
    e.known.isDirectory = e.isDirectory := by
  unfold known
  split <;> simp [*]

@[simp] theorem Item.isDirectory_known (i : Item) : i.known.isDirectory = i.isDirectory := by
  unfold known
  split <;> simp [*]

theorem ListedEntry.known_eq_file {e : ListedEntry} {t : Option Timestamp} :
    e.known = .file t ↔ e.isDirectory = false ∧ e.modified = t := by
  unfold known
  split <;> simp [*]

theorem Item.known_eq_file {i : Item} {t : Option Timestamp} :
    i.known = .file t ↔ i.isDirectory = false ∧ i.modified = t := by
  unfold known
  split <;> simp [*]

/-- A listener's view: what is known of the entries of each directory. -/
abbrev Mirror := List Name → Name → Option Known

/-- A notification about an entry of the directory at some names, with what is then known. -/
inductive Event where
  | created (y : List Name) (n : Name) (k : Known)
  | updated (y : List Name) (n : Name) (modified : Option Timestamp)
  | deleted (y : List Name) (n : Name) (isDirectory : Bool)

/-- What of a change can be told apart: its kind, its path by components, and the kind of the
entry. -/
abbrev ChangeView := ChangeKind × List Component × Bool

def Change.view (c : Change) : ChangeView := (c.kind, c.path.components, c.isDirectory)

/-- What can be told of an entry: its path by components, whether it is a directory, and its
time. -/
abbrev EntryView := List Component × Bool × Option Timestamp

/-- What a notification of an event says. -/
def Event.view : Event → ChangeView
  | created y n k => (.created, (y ++ [n]).map .name, k.isDirectory)
  | updated y n _ => (.updated, (y ++ [n]).map .name, false)
  | deleted y n f => (.deleted, (y ++ [n]).map .name, f)

namespace Mirror

/-- The view after news of one entry. -/
def set (M : Mirror) (y : List Name) (n : Name) (k : Option Known) : Mirror :=
  Function.update M y (Function.update (M y) n k)

@[simp] theorem set_self (M : Mirror) (y : List Name) (n : Name) (k : Option Known) :
    M.set y n k y n = k := by
  simp [set]

theorem set_entry (M : Mirror) (y : List Name) {n m : Name} (k : Option Known) (h : m ≠ n) :
    M.set y n k y m = M y m := by
  simp [set, h]

theorem set_other (M : Mirror) {y z : List Name} (n : Name) (k : Option Known) (h : z ≠ y) :
    M.set y n k z = M z := by
  simp [set, h]

/-- An event takes a view to the next one. A new entry was not known before and its directory is, an
updated file was known with another time, and a deleted entry with its kind. -/
inductive Step : Mirror → Event → Mirror → Prop
  | created {M : Mirror} {y : List Name} {n : Name} {k : Known} (unknown : M y n = none)
      (parent : ∀ z m, y = z ++ [m] → M z m = some .directory) :
      Step M (.created y n k) (M.set y n (some k))
  | updated {M : Mirror} {y : List Name} {n : Name} {t t' : Option Timestamp}
      (known : M y n = some (.file t)) (changed : t ≠ t') :
      Step M (.updated y n t') (M.set y n (some (.file t')))
  | deleted {M : Mirror} {y : List Name} {n : Name} {k : Known} (known : M y n = some k) :
      Step M (.deleted y n k.isDirectory) (M.set y n none)

/-- Events take a view to another one, each where it fits. -/
inductive Plays : Mirror → List Event → Mirror → Prop
  | nil (M : Mirror) : Plays M [] M
  | cons {M M' M'' : Mirror} {e : Event} {es : List Event} (head : Step M e M')
      (tail : Plays M' es M'') : Plays M (e :: es) M''

namespace Plays

theorem single {M M' : Mirror} {e : Event} (h : Step M e M') : Plays M [e] M' :=
  .cons h (.nil M')

theorem append {M M' M'' : Mirror} {es fs : List Event} (h : Plays M es M')
    (h' : Plays M' fs M'') : Plays M (es ++ fs) M'' := by
  induction h with
  | nil => exact h'
  | cons head _ ih => exact .cons head (ih h')

end Plays

/-! ## News of many entries of one directory -/

/-- News of entries of one directory, each a different one, can be taken one after the other if each
could be taken alone. -/
theorem plays_each {α : Type} {M : Mirror} {y : List Name} (name : α → Name) (event : α → Event)
    (value : α → Option Known) {l : List α} (hl : (l.map name).Nodup)
    (step : ∀ a ∈ l, ∀ N : Mirror, N y (name a) = M y (name a) → (∀ z, z ≠ y → N z = M z) →
      Step N (event a) (N.set y (name a) (value a))) :
    ∃ M', Plays M (l.map event) M' ∧ (∀ a ∈ l, M' y (name a) = value a) ∧
      (∀ n, n ∉ l.map name → M' y n = M y n) ∧ ∀ z, z ≠ y → M' z = M z := by
  induction l generalizing M with
  | nil => exact ⟨M, .nil M, by simp, by simp, fun _ _ => rfl⟩
  | cons a l ih =>
      obtain ⟨ha, hl⟩ := List.nodup_cons.1 hl
      have hne : ∀ b ∈ l, name b ≠ name a := by
        intro b hb h
        exact ha (List.mem_map.2 ⟨b, hb, h⟩)
      obtain ⟨M', hplays, hin, hout, hframe⟩ := ih (M := M.set y (name a) (value a)) hl (by
        intro b hb N hy hz
        rw [set_entry _ _ _ (hne b hb)] at hy
        refine step b (List.mem_cons_of_mem _ hb) N hy ?_
        intro z hne
        rw [hz z hne, set_other _ _ _ hne])
      refine ⟨M', .cons (step a List.mem_cons_self M rfl fun _ _ => rfl) hplays, ?_, ?_, ?_⟩
      · intro b hb
        rcases List.mem_cons.1 hb with rfl | hb
        · rw [hout _ ha, set_self]
        · exact hin b hb
      · intro n hn
        simp only [List.map_cons, List.mem_cons, not_or] at hn
        rw [hout n hn.2, set_entry _ _ _ hn.1]
      · intro z hz
        rw [hframe z hz, set_other _ _ _ hz]

theorem ne_of_eq_concat {y z : List Name} {m : Name} (h : y = z ++ [m]) : z ≠ y := by
  rintro rfl
  simpa using congrArg List.length h

/-- The items of a directory are created one after the other. -/
theorem plays_created {M : Mirror} {y : List Name} {l : List (Name × Item)}
    (hl : (l.map (·.1)).Nodup) (parent : ∀ z m, y = z ++ [m] → M z m = some .directory)
    (unknown : ∀ e ∈ l, M y e.1 = none) :
    ∃ M', Plays M (l.map fun e => .created y e.1 e.2.known) M' ∧
      (∀ e ∈ l, M' y e.1 = some e.2.known) ∧ (∀ n, n ∉ l.map (·.1) → M' y n = M y n) ∧
      ∀ z, z ≠ y → M' z = M z := by
  refine plays_each Prod.fst _ (fun e : Name × Item => some e.2.known) hl ?_
  intro e he N hy hz
  refine .created (hy.trans (unknown e he)) ?_
  intro z m hc
  rw [hz z (ne_of_eq_concat hc)]
  exact parent z m hc

/-- The items of a directory are deleted one after the other. -/
theorem plays_deleted {M : Mirror} {y : List Name} {l : List (Name × Item)}
    (hl : (l.map (·.1)).Nodup) (known : ∀ e ∈ l, M y e.1 = some e.2.known) :
    ∃ M', Plays M (l.map fun e => .deleted y e.1 e.2.isDirectory) M' ∧
      (∀ e ∈ l, M' y e.1 = none) ∧ (∀ n, n ∉ l.map (·.1) → M' y n = M y n) ∧
      ∀ z, z ≠ y → M' z = M z := by
  refine plays_each Prod.fst _ (fun _ : Name × Item => none) hl ?_
  intro e he N hy hz
  rw [← Item.isDirectory_known]
  exact .deleted (hy.trans (known e he))

end Mirror

end DirWatch
