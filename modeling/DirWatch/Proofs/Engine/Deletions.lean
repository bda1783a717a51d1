import DirWatch.Proofs.Engine.Invariant
import DirWatch.Proofs.Engine.Upkeep
import DirWatch.Proofs.FileTree.Scene
import DirWatch.Proofs.Registry.Observed

/-! # What is reported as deleted

While a file tree does not change, an entry that is reported as deleted is not there. There are two
exceptions. A directory that may be read but not searched lists its entries without their metadata,
and they count as gone. And a directory whose watch cannot be placed anew is retired with all that is
known below it. -/

namespace DirWatch

/-! ## Paths that are seen as names -/

namespace Path

/-- A path that leads through some names from a root, so written that it and all that is below it
are seen from the root as nothing but names. A path that is written plainly is so, whatever other
spellings are. -/
structure SeenAs (root p : Path) (y : List Name) : Prop where
  place : At root p y
  relative : ∀ ns, (p.below ns).stripPrefix? root = some (ofNames (y ++ ns))

namespace SeenAs

variable {root p : Path} {y : List Name}

theorem stripPrefix?_eq (h : SeenAs root p y) : p.stripPrefix? root = some (ofNames y) := by
  simpa using h.relative []

theorem child (h : SeenAs root p y) (n : Name) : SeenAs root (p.child n) (y ++ [n]) where
  place := h.place.child n
  relative ns := by
    rw [List.append_assoc]
    exact h.relative (n :: ns)

end SeenAs

theorem Plain.seenAs {root p : Path} {y : List Name} (h : Plain root p) (hy : At root p y) :
    SeenAs root p y where
  place := hy
  relative ns := by rw [h y hy, below_append, stripPrefix?_below]

end Path

/-! ## What stands on a tree -/

namespace FileTree

/-- An entry of a kind stands at a place below a location. -/
def EntryAt (t : FileTree) (location y : List Name) (isDirectory : Bool) : Prop :=
  ∃ d, t.top.at? (location ++ y) = some d ∧ d.isDirectory = isDirectory

/-- A directory that shows the names of its entries and hides what they are. -/
def Veiled (t : FileTree) (location y : List Name) : Prop :=
  ∃ d, t.DirectoryAt location y d ∧ d.isReadable = true ∧ d.isSearchable = false

variable {t : FileTree} {location y : List Name} {n : Name}

/-- Above an entry stands a directory that has it. -/
theorem EntryAt.parent {f : Bool} (h : t.EntryAt location (y ++ [n]) f) :
    ∃ d next, t.DirectoryAt location y d ∧ d.child? n = some next ∧ next.isDirectory = f := by
  obtain ⟨next, hnext, hf⟩ := h
  rw [← List.append_assoc, Node.at?_concat] at hnext
  obtain ⟨d, hd, hchild⟩ := Option.bind_eq_some_iff.1 hnext
  exact ⟨d, next, ⟨hd, Node.isDirectory_of_child? hchild⟩, hchild, hf⟩

theorem EntryAt.of_child {f : Bool} (h : t.EntryAt location (y ++ [n]) f) :
    t.EntryAt location y true := by
  obtain ⟨d, -, hd, -⟩ := h.parent
  exact ⟨d, hd⟩

/-- An answer to the question for a listing that says nothing false of a tree. -/
structure Answers (t : FileTree) (location : List Name) (filter : Filter) (y : List Name)
    (answer : Except Error (Listing Name)) : Prop where
  gone : ∀ p, answer = .error (.pathVanished p) → ¬ t.EntryAt location y true
  observed : ∀ l n e, answer = .ok l → l.entries.get? n = some e →
    filter.allows (.ofNames (y ++ [n])) = true
  missing : ∀ l n f, answer = .ok l → filter.allows (.ofNames (y ++ [n])) = true →
    (l.entries.get? n).map (·.isDirectory) ≠ some f →
      ¬ t.EntryAt location (y ++ [n]) f ∨ t.Veiled location y

/-- What the entries of a directory do not show does not stand there, unless it is hidden. -/
theorem not_entryAt_of_entries (ht : t.Distinct) {d : Node} (hd : t.DirectoryAt location y d)
    (hread : d.isReadable = true) {observed : Name → Bool} (hn : observed n = true) {f : Bool}
    (hne : ((Listing.ofEntries observed d.identity (d.entries.map (shown d))).entries.get? n).map
      (·.isDirectory) ≠ some f) :
    ¬ t.EntryAt location (y ++ [n]) f ∨ t.Veiled location y := by
  by_contra! hboth
  obtain ⟨hentry, hveiled⟩ := hboth
  obtain ⟨d', next, hd', hchild, hf⟩ := hentry.parent
  obtain rfl := Option.some.inj (hd'.1.symm.trans hd.1)
  have hsearch : d'.isSearchable = true := by
    by_contra hs
    exact hveiled ⟨d', hd, hread, (Bool.not_eq_true _).mp hs⟩
  have hnames := ht _ d' hd.1
  refine hne (Option.map_eq_some_iff.2 ⟨⟨next.isDirectory, next.modified⟩, ?_, hf⟩)
  refine (Scene.get?_ofEntries (by rwa [List.map_map])).2
    ⟨_, List.mem_map.2 ⟨_, (child?_eq_some_iff hnames).1 hchild, rfl⟩, next.metadata, rfl, ?_, hn,
      rfl⟩
  rw [shown, if_pos hsearch]

/-- A tree that does not change says nothing false of itself. -/
theorem answers (ht : t.Distinct) (filter : Filter) {p : Path}
    (hp : Path.At (pathOf location) p y) : t.Answers location filter y
      ((t.scene location filter).answer (fun n => filter.allows (.ofNames (y ++ [n]))) p) where
  gone q hq := by
    rintro ⟨d, hd⟩
    rcases answer_directory filter hd hp
      fun n => filter.allows (.ofNames (y ++ [n])) with ⟨-, h⟩ | ⟨e, h⟩
    · rw [h] at hq
      cases hq
    · rw [h] at hq
      cases hq
  observed l n e hl he := by
    unfold Scene.answer at hl
    split at hl
    · cases hl
    split at hl
    · cases hl
    split at hl
    · cases hl
    split at hl
    · cases hl
    · obtain rfl := Except.ok.inj hl
      exact (Scene.observed_of_get?_ofEntries he :)
  missing l n f hl hn hne := by
    by_cases hd : ∃ d, t.DirectoryAt location y d
    · obtain ⟨d, hd⟩ := hd
      rcases answer_directory filter hd hp
        fun n => filter.allows (.ofNames (y ++ [n])) with ⟨hread, h⟩ | ⟨e, h⟩
      · obtain rfl := Except.ok.inj (h.symm.trans hl)
        exact not_entryAt_of_entries ht hd hread hn hne
      · cases h.symm.trans hl
    · left
      intro hentry
      obtain ⟨d, -, hd', -⟩ := hentry.parent
      exact hd ⟨d, hd'⟩

end FileTree

/-- What is deleted is not listed with its kind. -/
theorem TrackedDirectory.not_listed_of_mem_deleted {d : TrackedDirectory Name} {l : Listing Name}
    {a : NamedEntry Name} (h : a ∈ (d.reconcile l).1.deleted) :
    (l.entries.get? a.name).map (·.isDirectory) ≠ some a.isDirectory := by
  rcases List.mem_append.1 h with h | h
  · obtain ⟨⟨n, e⟩, he, rfl⟩ := List.mem_map.1 h
    have he := OrderedMap.mem_entries_iff.1 (List.mem_filter.1 he).1
    dsimp only
    rw [he]
    simp
  · obtain ⟨⟨n, i⟩, hi, rfl⟩ := List.mem_map.1 h
    obtain ⟨hmem, hseen⟩ := List.mem_filter.1 hi
    have hget := OrderedMap.mem_entries_iff.1 hmem
    rw [get?_stamp] at hget
    dsimp only
    cases hl : l.entries.get? n with
    | none => simp
    | some e =>
        rw [hl, Option.map_some, Option.some_or] at hget
        obtain rfl := Option.some.inj hget
        simp [ListedEntry.stamped] at hseen

/-! ## Reasons for a report -/

/-- The watch of a directory was removed to be placed anew, and could not be placed. -/
def Unarmed (root : Path) (news : List Action) (y : List Name) : Prop :=
  ∃ p result e, Path.At root p y ∧ [.unwatched p result, .watched p (.error e)] <:+: news

/-- On the way to a place is a directory that hides its entries, or a lost one. -/
def Excused (t : FileTree) (location : List Name) (lost : List Name → Prop) (y : List Name) : Prop :=
  ∃ x, x <+: y ∧ (t.Veiled location x ∨ lost x)

/-- A change names an entry, and if it is reported as deleted it is not there or its report is
excused. -/
def Truthful (t : FileTree) (location : List Name) (lost : List Name → Prop) (c : Change) : Prop :=
  ∃ y n, c.path.components = (y ++ [n]).map .name ∧ (c.kind = .deleted →
    ¬ t.EntryAt location (y ++ [n]) c.isDirectory ∨ Excused t location lost y)

section Reasons

variable {t : FileTree} {location y : List Name} {lost lost' : List Name → Prop} {c : Change}

theorem Unarmed.append {root : Path} {news : List Action} (h : Unarmed root news y)
    (more : List Action) : Unarmed root (news ++ more) y := by
  obtain ⟨p, result, e, hp, hin⟩ := h
  exact ⟨p, result, e, hp, hin.trans (List.prefix_append news more).isInfix⟩

theorem Excused.mono (h : Excused t location lost y) (hl : ∀ x, lost x → lost' x) :
    Excused t location lost' y := by
  obtain ⟨x, hx, hr⟩ := h
  exact ⟨x, hx, hr.imp_right (hl x)⟩

theorem Excused.child (h : Excused t location lost y) (n : Name) :
    Excused t location lost (y ++ [n]) := by
  obtain ⟨x, hx, hr⟩ := h
  exact ⟨x, hx.trans (List.prefix_append y [n]), hr⟩

theorem Truthful.mono (h : Truthful t location lost c) (hl : ∀ x, lost x → lost' x) :
    Truthful t location lost' c := by
  obtain ⟨y, n, hc, hr⟩ := h
  exact ⟨y, n, hc, fun hk => (hr hk).imp_right fun he => he.mono hl⟩

end Reasons

/-! ## Candid registries -/

namespace Registry

variable {σ : Type} {host : Host σ} {t : FileTree} {location : List Name} {filter : Filter}

/-- A registry below a location of a tree, whose items are observed, and which has told nothing but
the truth since a journal. The lost directories could not be watched anew since then. -/
structure Candid (t : FileTree) (location : List Name)
    (L : HostLaws host (FileTree.pathOf location) filter) (base : List Action)
    (lost : List Name → Prop) (r : Registry σ) : Prop where
  fits : L.Fits r
  observed : ∀ y d n i, r.forest y = some d → d.items.get? n = some i →
    filter.allows (.ofNames (y ++ [n])) = true
  told : ∃ news, r.journal = base ++ news ∧
    (∀ y, lost y → Unarmed (FileTree.pathOf location) news y) ∧
    ∀ c, .notified (.changed c) ∈ news →
      Truthful t location (Unarmed (FileTree.pathOf location) news) c

namespace Candid

variable {L : HostLaws host (FileTree.pathOf location) filter} {base : List Action}
  {lost : List Name → Prop} {r r' : Registry σ} {p : Path} {y : List Name}

/-- One action more, and nothing else but the machine. -/
theorem record (h : r.Candid t location L base lost) {a : Action} {machine : σ}
    (hm : L.holds machine)
    (ha : ∀ c, a = .notified (.changed c) → Truthful t location lost c) :
    ({ r with machine }.record a).Candid t location L base lost where
  fits := h.fits.of_eq rfl rfl rfl hm
  observed := h.observed
  told := by
    obtain ⟨news, hnews, hlost, htrue⟩ := h.told
    refine ⟨news ++ [a], ?_, fun x hx => (hlost x hx).append [a], ?_⟩
    · rw [← List.append_assoc, ← hnews]
      rfl
    · intro c hc
      rcases List.mem_append.1 hc with hc | hc
      · exact (htrue c hc).mono fun x hx => hx.append [a]
      · exact (ha c (List.mem_singleton.1 hc).symm).mono fun x hx => (hlost x hx).append [a]

/-- Other directories, with items that are observed. -/
theorem directories (h : r.Candid t location L base lost) (hf : L.Fits r')
    (hj : r'.journal = r.journal) (ho : ∀ y d n i, r'.forest y = some d → d.items.get? n = some i →
      filter.allows (.ofNames (y ++ [n])) = true) : r'.Candid t location L base lost where
  fits := hf
  observed := ho
  told := hj ▸ h.told

theorem list (h : r.Candid t location L base lost) (hp : L.Names p y) :
    (r.list host p).2.Candid t location L base lost :=
  h.record (h.fits.list hp).1.machine (by simp)

theorem watch (h : r.Candid t location L base lost) (hp : L.Names p y) :
    (r.watch host p).2.Candid t location L base lost :=
  h.record (h.fits.watch hp).1.machine (by simp)

theorem unwatch (h : r.Candid t location L base lost) (hp : L.Names p y) :
    (r.unwatch host p).2.Candid t location L base lost :=
  h.record (h.fits.unwatch hp).machine (by simp)

/-- A directory put into the registry, with items that are observed. -/
theorem insert (h : r.Candid t location L base lost) (hp : Path.At (FileTree.pathOf location) p y)
    {d : TrackedDirectory Name} (hd : ∀ n i, d.items.get? n = some i →
      filter.allows (.ofNames (y ++ [n])) = true) :
    Candid t location L base lost { r with directories := r.directories.insert p d } := by
  refine h.directories (h.fits.insert hp d) rfl ?_
  intro z e n i he hi
  rw [h.fits.forest_insert hp] at he
  by_cases hz : z = y
  · rw [hz, Function.update_self] at he
    obtain rfl := Option.some.inj he
    exact hz ▸ hd n i hi
  · rw [Function.update_of_ne hz] at he
    exact h.observed z e n i he hi

theorem erase (h : r.Candid t location L base lost)
    (hp : Path.At (FileTree.pathOf location) p y) :
    Candid t location L base lost { r with directories := r.directories.erase p } := by
  refine h.directories (h.fits.erase p) rfl ?_
  intro z e n i he hi
  rw [h.fits.forest_erase hp] at he
  by_cases hz : z = y
  · rw [hz, Function.update_self] at he
    cases he
  · rw [Function.update_of_ne hz] at he
    exact h.observed z e n i he hi

/-- A watch that is placed anew or lost. -/
theorem rearm (h : r.Candid t location L base lost) (hp : L.Names p y) :
    (r.rearm host p).2.Candid t location L base lost ∧
      ∀ e, (r.rearm host p).1 = .error e →
        (r.rearm host p).2.Candid t location L base (fun x => x = y ∨ lost x) := by
  have hrearm := (h.unwatch hp).watch hp
  refine ⟨hrearm, fun e he => ⟨hrearm.fits, hrearm.observed, ?_⟩⟩
  obtain ⟨news, hnews, hlost, htrue⟩ := h.told
  let pair : List Action := [.unwatched p (r.unwatch host p).1, .watched p (.error e)]
  have hjournal : (r.rearm host p).2.journal = base ++ (news ++ pair) := by
    rw [Registry.rearm] at he
    rw [Registry.rearm, journal_watch, journal_unwatch, he, hnews]
    simp [pair]
  refine ⟨news ++ pair, hjournal, ?_, ?_⟩
  · rintro x (rfl | hx)
    · exact ⟨p, _, e, hp.1, (List.suffix_append news pair).isInfix⟩
    · exact (hlost x hx).append pair
  · intro c hc
    rcases List.mem_append.1 hc with hc | hc
    · exact (htrue c hc).mono fun x hx => hx.append pair
    · simp [pair] at hc

theorem weaken (h : r.Candid t location L base lost) :
    r.Candid t location L base fun _ => False where
  fits := h.fits
  observed := h.observed
  told := by
    obtain ⟨news, hnews, -, htrue⟩ := h.told
    exact ⟨news, hnews, fun _ hx => hx.elim, htrue⟩

end Candid

end Registry

/-! ## Candid passes -/

namespace Engine

variable {σ : Type} {host : Host σ} {t : FileTree} {location : List Name} {filter : Filter}
  {holds : σ → Prop} (ht : t.Distinct) (h : host.Displays (t.scene location filter) holds)

/-- What is known of a machine that shows a tree: it says nothing false. -/
def treeLaws : HostLaws host (FileTree.pathOf location) filter where
  tidy := False
  holds := holds
  written p := ∃ y, Path.SeenAs (FileTree.pathOf location) p y
  lists := t.Answers location filter
  watches _ _ := True
  written_child _ n := by
    rintro ⟨y, hy⟩
    exact ⟨y ++ [n], hy.child n⟩
  list := by
    rintro r p y hr hf ⟨z, hz⟩ hp hs
    obtain rfl := hz.place.unique hp
    obtain ⟨hanswer, hs'⟩ := h.list_eq_answer (r.observes p) p hs
    refine ⟨?_, hs'⟩
    have hobs := Registry.observes_eq (r := r) (hr ▸ hz.stripPrefix?_eq)
    rw [hf] at hobs
    rw [hobs] at hanswer
    rw [Registry.list, hobs]
    exact hanswer ▸ FileTree.answers ht filter hp
  watch s p _ _ _ hs := ⟨trivial, h.watch p s hs⟩
  unwatch s p _ _ _ hs := h.unwatch p s hs

variable {base : List Action} {lost : List Name → Prop} {s : Engine σ} {p : Path} {y : List Name}

/-- Retiring tells the truth below what is gone or excused. -/
theorem upkeep_candid (base : List Action) (lost : List Name → Prop) :
    Upkeep host (fun s => s.registry.Candid t location (treeLaws ht h) base lost)
      (fun p => ∃ y, (treeLaws ht h).Names p y)
      (fun p => ∃ y, (treeLaws ht h).Names p y ∧
        (¬ t.EntryAt location y true ∨ Excused t location lost y))
      (fun kind p f => ∃ y n, Path.At (FileTree.pathOf location) p (y ++ [n]) ∧ (kind = .deleted →
        ¬ t.EntryAt location (y ++ [n]) f ∨ Excused t location lost y)) where
  emit := by
    rintro s kind p f hs ⟨y, n, hp, hshown⟩
    obtain ⟨q, hq, hc⟩ := hp.stripPrefix?_components
    have hrel : s.registry.relative? p = some q := by
      rw [Registry.relative?, hs.fits.root_eq, hq]
    rw [emit, hrel]
    refine hs.record hs.fits.machine ?_
    rintro c hce
    obtain rfl := Notification.changed.inj (Action.notified.inj hce)
    exact ⟨y, n, hc, hshown⟩
  unmark _ _ hs _ _ := hs
  cancel := by
    rintro s p d hs ⟨y, hp, -⟩ hd
    rw [registry_cancel hd]
    exact (hs.erase hp.1).unwatch hp
  left := by
    rintro s p d n i hs ⟨y, hp, hgone⟩ hd hi
    have hchild : ∀ f, ¬ t.EntryAt location (y ++ [n]) f ∨ Excused t location lost y :=
      fun f => hgone.imp_left fun hn he => hn he.of_child
    exact ⟨⟨y, n, hp.1.child n, fun _ => hchild _⟩, fun _ =>
      ⟨y ++ [n], hp.child n, (hchild true).imp_right fun he => he.child n⟩⟩
  register := by
    rintro s p hs ⟨y, hp⟩
    refine Registry.register_keeps
      (I := fun r : Registry σ => r.Candid t location (treeLaws ht h) base lost)
      (fun _ hr => hr.watch hp) (fun _ hr => hr.list hp) (fun _ hr => hr.unwatch hp) ?_ hs
    intro r r' l hr hr' hl
    refine hr'.insert hp.1 ?_
    intro n i hi
    rw [TrackedDirectory.get?_items_ofListing] at hi
    obtain ⟨e, he, -⟩ := Option.map_eq_some_iff.1 hi
    have hlook := (hr.fits.list hp).2
    rw [hl] at hlook
    exact hlook.observed l n e rfl he
  entered := by
    rintro s p s' d n i hs ⟨y, hp⟩ hreg hd hi
    exact ⟨⟨y, n, hp.1.child n, by simp⟩, fun _ => ⟨y ++ [n], hp.child n⟩⟩

section Passes

variable {ht h}

section Below

variable (hp : (treeLaws ht h).Names p y)
include hp

/-- Taking a listing over tells the truth. -/
theorem candid_absorb (hs : s.registry.Candid t location (treeLaws ht h) base lost) {l : Listing Name}
    (hl : t.Answers location filter y (.ok l)) :
    (s.absorb host p l).2.registry.Candid t location (treeLaws ht h) base lost := by
  cases hd : s.registry.get? p with
  | none =>
      rw [absorb, hd]
      exact hs
  | some d =>
      have hforest : s.forest y = some d := (hs.fits.get?_eq hp.1).symm.trans hd
      have hdeleted : ∀ a ∈ (d.reconcile l).1.deleted,
          ¬ t.EntryAt location (y ++ [a.name]) a.isDirectory ∨ Excused t location lost y := by
        intro a ha
        have hallowed : filter.allows (.ofNames (y ++ [a.name])) = true := by
          rcases TrackedDirectory.known_of_mem_deleted ha with ⟨e, he⟩ | ⟨i, hi, -⟩
          · exact hl.observed l a.name e rfl he
          · exact hs.observed y d a.name i hforest hi
        exact (hl.missing l a.name a.isDirectory rfl hallowed
          (TrackedDirectory.not_listed_of_mem_deleted ha)).imp_right
            fun hv => ⟨y, List.prefix_rfl, .inl hv⟩
      refine (upkeep_candid ht h base lost).absorb hd ?_ ?_ ?_ ?_ ?_
      · refine hs.insert hp.1 ?_
        intro n i hi
        rcases TrackedDirectory.known_of_mem_reconcile hi with ⟨e, he⟩ | hi
        · exact hl.observed l n e rfl he
        · exact hs.observed y d n i hforest hi
      · intro a ha
        refine ⟨⟨y, a.name, hp.1.child a.name, fun _ => hdeleted a ha⟩, fun hdir => ?_⟩
        have hgone := hdeleted a ha
        rw [hdir] at hgone
        exact ⟨y ++ [a.name], hp.child a.name, hgone.imp_right fun he => he.child a.name⟩
      · exact fun a _ => ⟨⟨y, a.name, hp.1.child a.name, by simp⟩, fun _ =>
          ⟨y ++ [a.name], hp.child a.name⟩⟩
      · exact fun a _ => ⟨y, a.name, hp.1.child a.name, by simp⟩
      · intro s' _ q hq
        unfold unregistered at hq
        split at hq
        · cases hq
        · obtain ⟨n, -, rfl⟩ := List.mem_map.1 (List.mem_filter.1 hq).1
          exact ⟨y ++ [n], hp.child n⟩

/-- So does the second half of a pass, which may lose the directory. -/
theorem candid_renew (hs : s.registry.Candid t location (treeLaws ht h) base fun _ => False)
    {l : Listing Name} (hl : t.Answers location filter y (.ok l)) (replaced : Bool) :
    (s.renew host p l replaced).2.registry.Candid t location (treeLaws ht h) base fun _ => False := by
  cases replaced with
  | false => exact candid_absorb hp hs hl
  | true =>
      obtain ⟨hplaced, hlost⟩ := hs.rearm hp
      simp only [renew, if_true]
      rcases hr : s.registry.rearm host p with ⟨e | _, r⟩ <;> rw [hr] at hplaced hlost
      · have hlost := hlost e rfl
        dsimp only at hplaced hlost ⊢
        split
        · exact hplaced
        · refine ((upkeep_candid ht h base _).retire ?_ (s := { s with registry := r }) hlost).weaken
          exact ⟨y, hp, .inr ⟨y, List.prefix_rfl, .inr (.inl rfl)⟩⟩
      · exact candid_absorb hp (s := { s with registry := r }) hplaced hl

/-- And so does a whole pass. -/
theorem candid_diff_below (hs : s.registry.Candid t location (treeLaws ht h) base fun _ => False) :
    (s.diff host p).2.registry.Candid t location (treeLaws ht h) base fun _ => False := by
  have hbegan : (s.registry.record (.began p)).Candid t location (treeLaws ht h) base fun _ => False :=
    hs.record hs.fits.machine (by simp)
  cases hd : s.registry.get? p with
  | none =>
      rw [diff_none hd]
      exact hbegan
  | some d =>
      have hlisted := hbegan.list hp
      have hlook := (hbegan.fits.list hp).2
      rw [diff_eq hd]
      unfold resume
      split
      · next q hr =>
          rw [hr] at hlook
          exact (upkeep_candid ht h base _).retire ⟨y, hp, .inl (hlook.gone q rfl)⟩ hlisted
      · exact hlisted
      · next l hr =>
          rw [hr] at hlook
          exact candid_renew hp hlisted hlook _

end Below

/-- A pass over any path that is seen as names wherever it leads below the root. -/
theorem candid_diff (hs : s.registry.Candid t location (treeLaws ht h) base fun _ => False)
    (hp : ∀ y, Path.At (FileTree.pathOf location) p y →
      Path.SeenAs (FileTree.pathOf location) p y) :
    (s.diff host p).2.registry.Candid t location (treeLaws ht h) base fun _ => False := by
  by_cases hat : ∃ y, Path.At (FileTree.pathOf location) p y
  · obtain ⟨y, hy⟩ := hat
    exact candid_diff_below ⟨hy, y, hp y hy⟩ hs
  · have hnone : s.registry.get? p = none := by
      by_contra hne
      exact hat (hs.fits.inside p (Option.isSome_iff_ne_none.2 hne))
    rw [diff_none hnone]
    exact hs.record hs.fits.machine (by simp)

end Passes

include ht h in
/-- While a tree does not change, what passes report as deleted is not there. It may be there only
below a directory that hides its entries, or below one whose watch could not be placed anew. The
paths of the passes are so written that they are seen as names, as plain ones are. -/
theorem deleted_is_gone (hroot : s.registry.root = FileTree.pathOf location)
    (hfilter : s.registry.filter = filter) (hm : holds s.registry.machine)
    (hin : ∀ p, s.registry.contains p = true → ∃ y, Path.At (FileTree.pathOf location) p y)
    (hitems : ∀ y d n i, s.forest y = some d → d.items.get? n = some i →
      filter.allows (.ofNames (y ++ [n])) = true) {calls : List Path}
    (hcalls : ∀ p ∈ calls, ∀ y, Path.At (FileTree.pathOf location) p y →
      Path.SeenAs (FileTree.pathOf location) p y) :
    ∃ news, (calls.foldl (fun s p => (s.diff host p).2) s).registry.journal =
        s.registry.journal ++ news ∧
      ∀ c, .notified (.changed c) ∈ news →
        Truthful t location (Unarmed (FileTree.pathOf location) news) c := by
  have hs : s.registry.Candid t location (treeLaws ht h) s.registry.journal fun _ => False :=
    { fits := ⟨hroot, hfilter, hm, hin⟩
      observed := hitems
      told := ⟨[], by simp⟩ }
  have hend := foldl_keeps (I := fun s' : Engine σ =>
      s'.registry.Candid t location (treeLaws ht h) s.registry.journal fun _ => False)
    (fun p hp _ hs' => candid_diff hs' (hcalls p hp)) hs
  obtain ⟨news, hnews, -, htrue⟩ := hend.told
  exact ⟨news, hnews, htrue⟩

/-! ## A directory that hides its entries -/

/-- A tree with a directory of some permission bits and entries. -/
def shelfTree (mode : Nat) (entries : List (Name × Node)) : FileTree where
  top := .directory ⟨0, 1⟩ 0o755 [(nameA, .directory ⟨0, 2⟩ mode entries)]

/-- A file in it. -/
def shelfFile : Name × Node := (nameB, .file ⟨0, 3⟩ 0o644 ⟨1000, 0⟩)

/-- The directory as it was listed with the file in it. -/
def shelfDirectory : TrackedDirectory Name :=
  .ofListing ⟨some ⟨0, 2⟩, .ofList [(nameB, ⟨false, some ⟨1000, 0⟩⟩)]⟩

/-- The directory was registered, and now the tree is another one. -/
def shelved (tree : FileTree) : Engine ScriptedMachine where
  registry :=
    { root := .ofString "/"
      directories := ((∅ : OrderedMap Path (TrackedDirectory Name)).insert (.ofString "/")
        (.ofListing ⟨some ⟨0, 1⟩, .ofList [(nameA, ⟨true, none⟩)]⟩)).insert (.ofString "/a")
        shelfDirectory
      machine := { tree } }

theorem anchored_shelved (tree : FileTree) : (shelved tree).registry.Anchored := by
  have hroot : Registry.Anchored
      { (shelved tree).registry with
        directories := (∅ : OrderedMap Path (TrackedDirectory Name)).insert (.ofString "/")
          (.ofListing ⟨some ⟨0, 1⟩, .ofList [(nameA, ⟨true, none⟩)]⟩) } :=
    anchored_start (s := { registry := _ }) rfl
  have hnew : OrderedMap.contains ((∅ : OrderedMap Path (TrackedDirectory Name)).insert
      (.ofString "/") (.ofListing ⟨some ⟨0, 1⟩, .ofList [(nameA, ⟨true, none⟩)]⟩))
      (.ofString "/a") = false := by decide +kernel
  exact hroot.insert (q := .ofString "/") (n := nameA) (i := ⟨true, none, 1⟩)
    (by decide +kernel) rfl (by decide +kernel) rfl hnew (TrackedDirectory.current_ofListing _)

theorem distinct_shelfTree (mode : Nat) : (shelfTree mode []).Distinct := by
  refine FileTree.distinct_directory (by simp) ?_
  intro e he
  rw [List.mem_singleton.1 he]
  exact FileTree.distinct_directory List.nodup_nil (by simp)

/-- The file is gone, and this is what is told. -/
theorem deleted_is_gone_shelf :
    let t := shelfTree 0o755 []
    let r := (shelved t).diff ScriptedMachine.host (.ofString "/a")
    r.2.registry.notifications = [.changed ⟨.deleted, .ofString "a/b", false⟩] ∧
      ∃ news, r.2.registry.journal = (shelved t).registry.journal ++ news ∧
        ∀ c, .notified (.changed c) ∈ news →
          Truthful t [] (Unarmed (FileTree.pathOf []) news) c := by
  intro t r
  have hr : r = _ := ScriptedMachine.diff_below [] [nameA]
    (r := (shelved t).registry) (by decide +kernel) ⟨rfl, rfl⟩ (by decide +kernel)
    (by decide +kernel) (by decide +kernel) rfl (e := shelfDirectory) (by decide +kernel)
  refine ⟨by rw [hr]; decide +kernel, ?_⟩
  have hroot : (shelved t).registry.root = FileTree.pathOf [] := rfl
  have hin : ∀ p, (shelved t).registry.contains p = true → ∃ y, Path.At (FileTree.pathOf []) p y :=
    fun _ hp => hroot ▸ (anchored_shelved t).inside hp
  have hplain : Path.Plain (FileTree.pathOf []) (.ofString "/a") :=
    Path.plain_below (FileTree.pathOf []) [nameA]
  have hcalls : ∀ p ∈ [Path.ofString "/a"], ∀ y, Path.At (FileTree.pathOf []) p y →
      Path.SeenAs (FileTree.pathOf []) p y :=
    List.forall_mem_singleton.2 fun _ => hplain.seenAs
  exact (deleted_is_gone (distinct_shelfTree 0o755)
    (ScriptedMachine.displays_faultless t [] {}) hroot rfl ⟨rfl, rfl⟩ hin
    (fun _ _ _ _ _ _ => Filter.allows_default _) hcalls :)

/-- The file is there, but its directory may only be read. -/
theorem deleted_while_hidden :
    let t := shelfTree 0o444 [shelfFile]
    let r := (shelved t).diff ScriptedMachine.host (.ofString "/a")
    (shelved t).registry.Anchored ∧ (shelved t).forest [nameA] = some (.ofListing
        (((shelfTree 0o755 [shelfFile]).scene [] {}).listing [nameA])) ∧
      t.EntryAt [] [nameA, nameB] false ∧ r.1 = .ok () ∧
      r.2.registry.notifications = [.changed ⟨.deleted, .ofString "a/b", false⟩] := by
  intro t r
  have hr : r = _ := ScriptedMachine.diff_below [] [nameA]
    (r := (shelved t).registry) (by decide +kernel) ⟨rfl, rfl⟩ (by decide +kernel)
    (by decide +kernel) (by decide +kernel) rfl (e := shelfDirectory) (by decide +kernel)
  refine ⟨anchored_shelved _, ?_, ⟨shelfFile.2, rfl, rfl⟩, ?_⟩
  · rw [FileTree.listing_eq (d := .directory ⟨0, 2⟩ 0o755 [shelfFile]) ⟨rfl, rfl⟩ (by decide +kernel)
      (by decide +kernel) (by decide +kernel)]
    decide +kernel
  · rw [hr]
    decide +kernel

end Engine

end DirWatch
