import DirWatch.Proofs.Mirror
import DirWatch.Proofs.TrackedDirectory.Reconcile
import Mathlib.Data.List.Induction
import Mathlib.Data.Set.Basic

/-! # Histories of listings

A directory that takes over one listing after the other holds the last of them, stamped with the
number of listings so far. What it reports is exactly what the next listing changes. -/

namespace DirWatch

variable {ν : Type} [Ord ν]

/-! ## What a listing shows -/

namespace Listing

/-- What a listing tells of a name. The time of a directory does not count. -/
def known (l : Listing ν) (n : ν) : Option Known := (l.entries.get? n).map (·.known)

/-- The names of a listing, each with its kind. -/
def shown (l : Listing ν) : Set (NamedEntry ν) :=
  {a | (l.entries.get? a.name).map (·.isDirectory) = some a.isDirectory}

theorem mem_shown {l : Listing ν} {a : NamedEntry ν} :
    a ∈ l.shown ↔ (l.known a.name).map (·.isDirectory) = some a.isDirectory := by
  simp [shown, known, Function.comp_def]

theorem known_eq_file {l : Listing ν} {n : ν} {t : Option Timestamp} :
    l.known n = some (.file t) ↔
      ∃ e, l.entries.get? n = some e ∧ e.isDirectory = false ∧ e.modified = t := by
  simp only [known, Option.map_eq_some_iff, ListedEntry.known_eq_file]

/-- What is known as a file is shown as one and not as a directory. -/
theorem mem_shown_of_file {l : Listing ν} {a : NamedEntry ν} {t : Option Timestamp}
    (h : l.known a.name = some (.file t)) : a ∈ l.shown ↔ a.isDirectory = false := by
  rw [mem_shown, h, Option.map_some, Known.isDirectory_file, Option.some.injEq, eq_comm]

end Listing

/-! ## Exact differences -/

namespace Delta

theorem isEmpty_iff_eq {ν : Type} {δ : Delta ν} : δ.isEmpty = true ↔ δ = {} := by
  cases δ
  simp [isEmpty, and_assoc]

theorem isEmpty_iff_forall {ν : Type} {δ : Delta ν} : δ.isEmpty = true ↔
    (∀ a, a ∉ δ.created) ∧ (∀ a, a ∉ δ.updated) ∧ ∀ a, a ∉ δ.deleted := by
  simp [isEmpty, List.eq_nil_iff_forall_not_mem, and_assoc]

end Delta

/-- A difference is the one between two listings: created is what only the new one shows, deleted is
what only the old one shows, and updated are the files that both show, with another time. -/
structure Delta.Between (δ : Delta ν) (old new : Listing ν) : Prop where
  created : ∀ a, a ∈ δ.created ↔ a ∈ new.shown ∧ a ∉ old.shown
  deleted : ∀ a, a ∈ δ.deleted ↔ a ∈ old.shown ∧ a ∉ new.shown
  updated : ∀ a, a ∈ δ.updated ↔ a.isDirectory = false ∧ ∃ t t', t ≠ t' ∧
    old.known a.name = some (.file t) ∧ new.known a.name = some (.file t')
  created_once : (δ.created.map (·.name)).Nodup
  updated_once : (δ.updated.map (·.name)).Nodup
  deleted_once : (δ.deleted.map (·.name)).Nodup

namespace Delta.Between

variable {δ : Delta ν} {old new : Listing ν}

/-- The old entries without the deleted ones and with the created ones are the new entries. -/
theorem shown_eq (h : δ.Between old new) :
    new.shown = (old.shown \ {a | a ∈ δ.deleted}) ∪ {a | a ∈ δ.created} := by
  ext a
  by_cases ho : a ∈ old.shown <;> by_cases hn : a ∈ new.shown <;>
    simp [h.deleted, h.created, ho, hn]

/-- An updated file stays a file, so its name is in no other list. -/
theorem updated_apart (h : δ.Between old new) {a b : NamedEntry ν} (ha : a ∈ δ.updated)
    (hb : b ∈ δ.created ∨ b ∈ δ.deleted) : b.name ≠ a.name := by
  intro hn
  obtain ⟨-, t, t', -, ho, hw⟩ := (h.updated a).1 ha
  have hold := Listing.mem_shown_of_file (hn ▸ ho : old.known b.name = _)
  have hnew := Listing.mem_shown_of_file (hn ▸ hw : new.known b.name = _)
  rcases hb with hb | hb
  · have hc := (h.created b).1 hb
    exact hc.2 (hold.2 (hnew.1 hc.1))
  · have hd := (h.deleted b).1 hb
    exact hd.2 (hnew.2 (hold.1 hd.1))

/-- There is no difference exactly between listings that tell the same of each name. -/
theorem isEmpty_iff (h : δ.Between old new) :
    δ.isEmpty = true ↔ ∀ n, old.known n = new.known n := by
  rw [isEmpty_iff_forall]
  constructor
  · rintro ⟨hc, hu, hd⟩ n
    have hkind : (old.known n).map (·.isDirectory) = (new.known n).map (·.isDirectory) := by
      apply Option.ext
      intro f
      have hcf := mt (h.created ⟨n, f⟩).2 (hc ⟨n, f⟩)
      have hdf := mt (h.deleted ⟨n, f⟩).2 (hd ⟨n, f⟩)
      simp only [Listing.mem_shown] at hcf hdf
      tauto
    cases ho : old.known n with
    | none => simpa [ho, eq_comm] using hkind
    | some k =>
        obtain ⟨k', hw, hk⟩ : ∃ k', new.known n = some k' ∧ k'.isDirectory = k.isDirectory := by
          simpa [ho, eq_comm] using hkind
        have hun := mt (h.updated ⟨n, false⟩).2 (hu ⟨n, false⟩)
        rw [hw]
        cases k <;> cases k' <;> simp_all
  · intro hsame
    have hshown : ∀ a, a ∈ old.shown ↔ a ∈ new.shown := by
      intro a
      rw [Listing.mem_shown, Listing.mem_shown, hsame]
    refine ⟨?_, ?_, ?_⟩
    · intro a ha
      have hc := (h.created a).1 ha
      exact hc.2 ((hshown a).2 hc.1)
    · intro a ha
      obtain ⟨-, t, t', hne, ho, hw⟩ := (h.updated a).1 ha
      rw [hsame, hw] at ho
      exact hne (by simpa [eq_comm] using ho)
    · intro a ha
      have hd := (h.deleted a).1 ha
      exact hd.2 ((hshown a).1 hd.1)

end Delta.Between

namespace TrackedDirectory

/-- A directory holds a listing: its entries, each with the stamp of the last generation, and its
identity. -/
structure Tracks (d : TrackedDirectory ν) (l : Listing ν) : Prop where
  items : d.items = l.entries.map fun _ e => e.stamped d.generation
  identity : d.identity = l.identity

theorem tracks_empty : ({} : TrackedDirectory ν).Tracks {} := ⟨rfl, rfl⟩

namespace Tracks

variable {d : TrackedDirectory ν} {old l : Listing ν}

theorem get? (h : d.Tracks l) (n : ν) :
    d.items.get? n = (l.entries.get? n).map (·.stamped d.generation) := by
  rw [h.items, OrderedMap.get?_map]

theorem current (h : d.Tracks l) : d.Current := by
  intro n i hi
  rw [h.get?, Option.map_eq_some_iff] at hi
  obtain ⟨e, -, rfl⟩ := hi
  rfl

theorem map_isDirectory (h : d.Tracks l) (n : ν) :
    (d.items.get? n).map (·.isDirectory) = (l.entries.get? n).map (·.isDirectory) := by
  rw [h.get?, Option.map_map]
  rfl

end Tracks

variable [Std.TransOrd ν] [Std.LawfulEqOrd ν]

/-! ## One listing -/

/-- Whatever a directory held, it holds the listing that it takes over. -/
theorem Current.tracks_reconcile {d : TrackedDirectory ν} (h : d.Current) (l : Listing ν) :
    (d.reconcile l).2.Tracks l where
  items := by
    refine OrderedMap.eq_of_get? ?_ ?_
    · intro n _ m _ hnm
      exact Std.LawfulEqOrd.eq_of_compare hnm
    · intro n
      rw [OrderedMap.get?_map]
      exact get?_items_reconcile h l n
  identity := rfl

/-- What a directory reports is the difference between what it held and what it takes over. -/
theorem Tracks.between_reconcile {d : TrackedDirectory ν} {old : Listing ν} (h : d.Tracks old)
    (l : Listing ν) : (d.reconcile l).1.Between old l where
  created := by
    intro a
    rw [mem_created, h.map_isDirectory]
    rfl
  deleted := by
    intro a
    rw [mem_deleted h.current, h.map_isDirectory]
    rfl
  updated := by
    intro a
    rw [mem_updated]
    simp only [h.get?, Listing.known_eq_file, Option.map_eq_some_iff]
    constructor
    · rintro ⟨hf, _, e', ⟨e, he, rfl⟩, he', hd, hd', hm⟩
      exact ⟨hf, e.modified, e'.modified, hm, ⟨e, he, hd, rfl⟩, e', he', hd', rfl⟩
    · rintro ⟨hf, t, t', hne, ⟨e, he, hd, rfl⟩, e', he', hd', rfl⟩
      exact ⟨hf, e.stamped d.generation, e', ⟨e, he, rfl⟩, he', hd, hd', hne⟩
  created_once := nodup_created d l
  updated_once := nodup_updated d l
  deleted_once := nodup_deleted d l

/-- A listing that is taken over again changes nothing. -/
theorem Current.reconcile_again {d : TrackedDirectory ν} (h : d.Current) (l : Listing ν) :
    ((d.reconcile l).2.reconcile l).1 = {} := by
  have hsame := (h.tracks_reconcile l).between_reconcile l
  exact Delta.isEmpty_iff_eq.1 (hsame.isEmpty_iff.2 fun _ => rfl)

/-! ## Many listings -/

/-- A directory that has taken over some listings, the first one first. -/
def follow (ls : List (Listing ν)) : TrackedDirectory ν :=
  ls.foldl (fun d l => (d.reconcile l).2) {}

omit [Std.LawfulEqOrd ν] in
theorem follow_append_singleton (ls : List (Listing ν)) (l : Listing ν) :
    follow (ls ++ [l]) = ((follow ls).reconcile l).2 := by
  simp [follow]

theorem tracks_follow (ls : List (Listing ν)) : (follow ls).Tracks (ls.getLastD {}) := by
  induction ls using List.reverseRecOn with
  | nil => exact tracks_empty
  | append_singleton ls l ih =>
      rw [follow_append_singleton, List.getLastD_concat]
      exact ih.current.tracks_reconcile l

omit [Std.LawfulEqOrd ν] in
theorem generation_follow (ls : List (Listing ν)) :
    (follow ls).generation = UInt64.ofNat ls.length := by
  induction ls using List.reverseRecOn with
  | nil => rfl
  | append_singleton ls l ih =>
      rw [follow_append_singleton, List.length_append, UInt64.ofNat_add, ← ih]
      rfl

/-- After any history of listings, a directory takes a new one over exactly: it holds that listing
under the next stamp, and what it reports takes the listing before to the new one. -/
theorem reconcile_follow (ls : List (Listing ν)) (l : Listing ν) :
    let d := follow ls
    let old := ls.getLastD {}
    let r := d.reconcile l
    d.Tracks old ∧ r.2.Tracks l ∧ r.2 = follow (ls ++ [l]) ∧ r.2.generation = d.generation + 1 ∧
      r.1.Between old l ∧
      (∀ a ∈ r.1.updated, ∀ b, b ∈ r.1.created ∨ b ∈ r.1.deleted → b.name ≠ a.name) ∧
      l.shown = (old.shown \ {a | a ∈ r.1.deleted}) ∪ {a | a ∈ r.1.created} ∧
      (r.1.isEmpty = true ↔ ∀ n, old.known n = l.known n) ∧ (r.2.reconcile l).1 = {} := by
  intro d old r
  have hd : d.Tracks old := tracks_follow ls
  have hr : r.1.Between old l := hd.between_reconcile l
  refine ⟨hd, hd.current.tracks_reconcile l, (follow_append_singleton ls l).symm, rfl, hr, ?_,
    hr.shown_eq, hr.isEmpty_iff, hd.current.reconcile_again l⟩
  intro a ha b hb
  exact hr.updated_apart ha hb

/-! The directory `p` becomes a file, the file `q` changes, `s` goes and a directory `t` is new. -/

def pantry : Listing Name where
  entries := .ofList [(⟨[0x70], by decide⟩, ⟨true, none⟩),
    (⟨[0x71], by decide⟩, ⟨false, some ⟨1, 0⟩⟩), (⟨[0x73], by decide⟩, ⟨false, none⟩)]

def restocked : Listing Name where
  identity := some ⟨0, 7⟩
  entries := .ofList [(⟨[0x70], by decide⟩, ⟨false, none⟩),
    (⟨[0x71], by decide⟩, ⟨false, some ⟨2, 0⟩⟩), (⟨[0x74], by decide⟩, ⟨true, none⟩)]

theorem reconcile_follow_pantry :
    let r := (follow [{}, pantry]).reconcile restocked
    r.1 = { created := [⟨⟨[0x70], by decide⟩, false⟩, ⟨⟨[0x74], by decide⟩, true⟩]
            updated := [⟨⟨[0x71], by decide⟩, false⟩]
            deleted := [⟨⟨[0x70], by decide⟩, true⟩, ⟨⟨[0x73], by decide⟩, false⟩] } ∧
      r.2.Tracks restocked ∧ r.2.generation = 3 ∧ r.1.Between pantry restocked ∧
      (r.2.reconcile restocked).1 = {} := by
  intro r
  obtain ⟨-, htracks, -, hgeneration, hbetween, -, -, -, hagain⟩ :=
    reconcile_follow [{}, pantry] restocked
  refine ⟨by decide +kernel, htracks, ?_, hbetween, hagain⟩
  rw [hgeneration, generation_follow]
  rfl

end TrackedDirectory

end DirWatch
