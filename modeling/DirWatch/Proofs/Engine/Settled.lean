import DirWatch.Proofs.Engine.Cells

/-! # What passes over a batch make of each place

While a machine stands still, what a batch of passes makes of a place depends on the state before the
batch and on the set of places that are passed over, not on the order. -/

namespace DirWatch

variable {σ : Type} {host : Host σ} {sc : Scene} {holds : σ → Prop}
  {watched : σ → Set (List Component)}

/-- What an item shows of its entry. -/
def Item.listed (i : Item) : ListedEntry := ⟨i.isDirectory, i.modified⟩

/-- A tracked directory has the entries and the identity of a listing. -/
structure TrackedDirectory.Holds (d : TrackedDirectory Name) (l : Listing Name) : Prop where
  items : ∀ n, (d.items.get? n).map Item.listed = l.entries.get? n
  identity : d.identity = l.identity

theorem TrackedDirectory.holds_reconcile {d : TrackedDirectory Name} (hd : d.Current)
    (l : Listing Name) : (d.reconcile l).2.Holds l where
  items n := by
    rw [get?_items_reconcile hd]
    cases l.entries.get? n <;> rfl
  identity := rfl

/-! ## What becomes of a cell -/

namespace Cell

variable {l : Listing Name} {c c' c'' : Cell}

/-- A directory was replaced since it was listed. -/
def Replaced (l : Listing Name) (c : Cell) : Prop :=
  c.marked = true ∨ ∃ d, c.directory = some d ∧ d.identity.isSome = true ∧ l.identity ≠ d.identity

/-- A directory is up to date with a listing, and not marked. -/
structure UpToDate (l : Listing Name) (c : Cell) : Prop where
  directory : ∃ d, c.directory = some d ∧ d.Holds l
  unmarked : c.marked = false

/-- A directory was brought up to date, and watched anew if it had been replaced. -/
structure Renewed (l : Listing Name) (c c' : Cell) : Prop extends UpToDate l c' where
  watched : c'.watched ↔ c.watched ∨ c.Replaced l

/-- A directory is up to date and watched. -/
structure Filled (l : Listing Name) (c : Cell) : Prop extends UpToDate l c where
  watched : c.watched

theorem filled_fresh (l : Listing Name) : (fresh l).Filled l where
  directory := ⟨_, rfl, TrackedDirectory.holds_reconcile TrackedDirectory.current_empty l⟩
  unmarked := rfl
  watched := trivial

theorem UpToDate.registered (h : c.UpToDate l) : c.directory ≠ none := by
  obtain ⟨d, hd, -⟩ := h.directory
  simp [hd]

theorem UpToDate.not_replaced (h : c.UpToDate l) : ¬ c.Replaced l := by
  rintro (hm | ⟨d, hd, -, hne⟩)
  · rw [h.unmarked] at hm
    cases hm
  · obtain ⟨d', hd', hholds⟩ := h.directory
    obtain rfl := Option.some.inj (hd.symm.trans hd')
    exact hne hholds.identity.symm

/-- What is up to date keeps its watch or its lack of one. -/
theorem Renewed.watched_iff (h : c.Renewed l c') (hc : c.UpToDate l) : c'.watched ↔ c.watched :=
  h.watched.trans (or_iff_left hc.not_replaced)

theorem Renewed.trans (h : Renewed l c c') (h' : Renewed l c' c'') : Renewed l c c'' where
  toUpToDate := h'.toUpToDate
  watched := (h'.watched_iff h.toUpToDate).trans h.watched

theorem Filled.renewed (h : c.Filled l) (h' : Renewed l c c') : c'.Filled l where
  toUpToDate := h'.toUpToDate
  watched := (h'.watched_iff h.toUpToDate).2 h.watched

end Cell

/-! ## What becomes of a place -/

namespace Scene

/-- A pass over a directory finds that a place is gone: the directory itself has vanished, or there
is no such directory in it as leads to the place. -/
def Misses (sc : Scene) (y x : List Name) : Prop :=
  sc.Vanished y ∧ y <+: x ∨ sc.Listed y ∧ ∃ n, y ++ [n] <+: x ∧ ¬ sc.Stands (y ++ [n])

/-- Passes over a set of places find that a place is gone. -/
def Loses (sc : Scene) (D : Set (List Name)) (x : List Name) : Prop := ∃ y ∈ D, sc.Misses y x

theorem Loses.not_stands {D : Set (List Name)} {x : List Name} (h : sc.Loses D x)
    (hr : sc.Readable) : ¬ sc.Stands x := by
  intro hx
  obtain ⟨y, -, ⟨hv, hy⟩ | ⟨-, n, hn, hd⟩⟩ := h
  · exact hv.not_stands hr (hx.of_isPart hy)
  · exact hd (hx.of_isPart hn)

theorem loses_union {D D' : Set (List Name)} {x : List Name} :
    sc.Loses (D ∪ D') x ↔ sc.Loses D x ∨ sc.Loses D' x := by
  simp only [Loses, Set.mem_union, or_and_right, exists_or]

end Scene

namespace Engine

/-- Passes over a set of places come to an observable directory that is below an unregistered
subdirectory of a registered directory. -/
def Reaches (sc : Scene) (s : Engine σ) (D : Set (List Name)) (x : List Name) : Prop :=
  sc.Stands x ∧
    ∃ y ∈ D, s.forest y ≠ none ∧ ∃ n, y ++ [n] <+: x ∧ s.forest (y ++ [n]) = none

/-- What becomes of a place: it is emptied, brought up to date, filled, or nothing. -/
inductive Turns (sc : Scene) (watched : σ → Set (List Component)) (s : Engine σ)
    (D : Set (List Name)) (x : List Name) : Cell → Prop
  | emptied (registered : s.forest x ≠ none) (lost : sc.Loses D x) : Turns sc watched s D x .empty
  | renewed {c : Cell} (registered : s.forest x ≠ none) (there : ¬ sc.Loses D x) (visited : x ∈ D)
      (listed : sc.Listed x) (h : Cell.Renewed (sc.listing x) (s.cell watched x) c) :
      Turns sc watched s D x c
  | filled {c : Cell} (unregistered : s.forest x = none) (reached : Reaches sc s D x)
      (h : c.Filled (sc.listing x)) : Turns sc watched s D x c
  | same (registered : s.forest x ≠ none → ¬ sc.Loses D x ∧ ¬ (x ∈ D ∧ sc.Listed x))
      (unregistered : s.forest x = none → ¬ Reaches sc s D x) :
      Turns sc watched s D x (s.cell watched x)

namespace Turns

variable {s : Engine σ} {D : Set (List Name)} {x : List Name} {c : Cell}

/-- A registered directory stays registered if it is observable. -/
theorem registered (ht : Turns sc watched s D x c) (hr : sc.Readable) (hx : sc.Stands x)
    (hreg : s.forest x ≠ none) : c.directory ≠ none := by
  cases ht with
  | emptied registered lost => exact absurd hx (lost.not_stands hr)
  | renewed registered there visited listed hren => exact hren.registered
  | filled unregistered => exact absurd unregistered hreg
  | same => exact hreg

/-- What is registered afterwards was registered before or was reached. -/
theorem of_registered (ht : Turns sc watched s D x c) (hreg : c.directory ≠ none) :
    s.forest x ≠ none ∨ Reaches sc s D x := by
  cases ht with
  | emptied => exact absurd rfl hreg
  | renewed registered => exact .inl registered
  | filled unregistered reached => exact .inr reached
  | same => exact .inl hreg

end Turns

/-- Passes over a set of places have brought one state to another. -/
structure Settles (h : host.Steady sc holds watched) (D : Set (List Name)) (s s' : Engine σ) :
    Prop where
  valid : Valid h.laws s'
  strays : s'.strays watched = s.strays watched
  cells : ∀ x, Turns sc watched s D x (s'.cell watched x)

variable {h : host.Steady sc holds watched} {s s' s'' : Engine σ} {D D' : Set (List Name)}
  {x : List Name}

namespace Settles

theorem refl (hs : Valid h.laws s) : Settles h ∅ s s where
  valid := hs
  strays := rfl
  cells x := .same (fun _ => ⟨by simp [Scene.Loses], by simp⟩) (fun _ => by simp [Reaches])

theorem registered (hs : Settles h D s s') (hx : sc.Stands x) (hr : s.forest x ≠ none) :
    s'.forest x ≠ none :=
  (hs.cells x).registered h.readable hx hr

theorem of_registered (hs : Settles h D s s') (hr : s'.forest x ≠ none) :
    s.forest x ≠ none ∨ Reaches sc s D x :=
  (hs.cells x).of_registered hr

end Settles

theorem Reaches.mono (hr : Reaches sc s D x) (hD : D ⊆ D') : Reaches sc s D' x := by
  obtain ⟨hx, y, hy, hrest⟩ := hr
  exact ⟨hx, y, hD hy, hrest⟩

/-- What lies below a place that is reached is reached. -/
theorem Reaches.below {y : List Name} (hr : Reaches sc s D y) (hy : y <+: x)
    (hx : sc.Stands x) : Reaches sc s D x := by
  obtain ⟨-, z, hz, hreg, n, hn, hnone⟩ := hr
  exact ⟨hx, z, hz, hreg, n, hn.trans hy, hnone⟩

/-- What the first batch does not reach, one batch after another reaches if the second one does. -/
theorem reaches_union (hs : Settles h D s s') (hx : ¬ Reaches sc s D x) :
    Reaches sc s (D ∪ D') x ↔ Reaches sc s' D' x := by
  constructor
  · rintro ⟨hdir, y, hy | hy, hreg, n, hn', hnone⟩
    · exact absurd ⟨hdir, y, hy, hreg, n, hn', hnone⟩ hx
    · have hyx : y <+: x := Covers.of_child hn'
      refine ⟨hdir, y, hy, hs.registered (hdir.of_isPart hyx) hreg, n, hn', ?_⟩
      by_contra hne
      rcases hs.of_registered hne with hne | hr
      · exact hne hnone
      · exact hx (hr.below hn' hdir)
  · rintro ⟨hdir, y, hy, hreg, n, hn', hnone⟩
    have hyx : y <+: x := Covers.of_child hn'
    have hreg₀ : s.forest y ≠ none := by
      rcases hs.of_registered hreg with hreg | hr
      · exact hreg
      · exact absurd (hr.below hyx hdir) hx
    refine ⟨hdir, y, .inr hy, hreg₀, n, hn', ?_⟩
    by_contra hne
    exact hs.registered (hdir.of_isPart hn') hne hnone

/-- One batch after another. -/
theorem Settles.trans (hs : Settles h D s s') (hs' : Settles h D' s' s'') :
    Settles h (D ∪ D') s s'' where
  valid := hs'.valid
  strays := hs'.strays.trans hs.strays
  cells x := by
    have hc := hs.cells x
    have hc' := hs'.cells x
    generalize hcell : s'.cell watched x = c at hc
    generalize s''.cell watched x = c'' at hc'
    have hforest : s'.forest x = c.directory := congrArg Cell.directory hcell
    cases hc with
    | emptied registered lost =>
        have hn : s'.forest x = none := hforest
        cases hc' with
        | emptied => exact .emptied registered (Scene.loses_union.2 (.inl lost))
        | renewed registered' => exact absurd hn registered'
        | filled _ reached => exact absurd reached.1 (lost.not_stands h.readable)
        | same =>
            rw [hcell]
            exact .emptied registered (Scene.loses_union.2 (.inl lost))
    | renewed registered there visited listed hren =>
        have hne : s'.forest x ≠ none := hforest ▸ hren.registered
        cases hc' with
        | emptied _ lost => exact .emptied registered (Scene.loses_union.2 (.inr lost))
        | renewed _ there' _ _ hren' =>
            rw [hcell] at hren'
            exact .renewed registered (fun hl => (Scene.loses_union.1 hl).elim there there')
              (.inl visited) listed (hren.trans hren')
        | filled unregistered => exact absurd unregistered hne
        | same registered' =>
            rw [hcell]
            exact .renewed registered
              (fun hl => (Scene.loses_union.1 hl).elim there (registered' hne).1)
              (.inl visited) listed hren
    | filled unregistered reached hfill =>
        have hne : s'.forest x ≠ none := hforest ▸ hfill.registered
        have hreached : Reaches sc s (D ∪ D') x := reached.mono Set.subset_union_left
        cases hc' with
        | emptied _ lost => exact absurd reached.1 (lost.not_stands h.readable)
        | renewed _ _ _ _ hren' =>
            rw [hcell] at hren'
            exact .filled unregistered hreached (hfill.renewed hren')
        | filled unregistered' => exact absurd unregistered' hne
        | same =>
            rw [hcell]
            exact .filled unregistered hreached hfill
    | same registered unregistered =>
        have hforest : s'.forest x = s.forest x := hforest
        cases hc' with
        | emptied registered' lost =>
            exact .emptied (hforest ▸ registered') (Scene.loses_union.2 (.inr lost))
        | renewed registered' there' visited listed hren' =>
            rw [hcell] at hren'
            have hr : s.forest x ≠ none := hforest ▸ registered'
            exact .renewed hr (fun hl => (Scene.loses_union.1 hl).elim (registered hr).1 there')
              (.inr visited) listed hren'
        | filled unregistered' reached hfill =>
            have hn : s.forest x = none := hforest ▸ unregistered'
            exact .filled hn ((reaches_union hs (unregistered hn)).2 reached) hfill
        | same registered' unregistered' =>
            rw [hcell]
            refine .same (fun hr => ?_) fun hn hreach => ?_
            · have hr' : s'.forest x ≠ none := hforest ▸ hr
              refine ⟨fun hl => ?_, ?_⟩
              · exact (Scene.loses_union.1 hl).elim (registered hr).1 (registered' hr').1
              · rintro ⟨hx | hx, hlisted⟩
                · exact (registered hr).2 ⟨hx, hlisted⟩
                · exact (registered' hr').2 ⟨hx, hlisted⟩
            · exact unregistered' (hforest ▸ hn) ((reaches_union hs (unregistered hn)).1 hreach)

end Engine

end DirWatch
