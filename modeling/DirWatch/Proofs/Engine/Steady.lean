import DirWatch.Proofs.Difference
import DirWatch.Proofs.Registry.Watches
import DirWatch.Proofs.Scene

/-! # A machine that stands still

A machine that presents a scene without links and has a watch for every directory gives one answer
to each question. What it answers about a directory is what the scene shows, and whoever is told of
an entry is told what that answer says. -/

namespace DirWatch

variable {σ : Type} {host : Host σ} {sc : Scene} {holds : σ → Prop}
  {watched : σ → Set (List Component)}

namespace Scene

/-! ## The one answer -/

/-- What comes of listing a place. -/
def look (sc : Scene) (y : List Name) : Except Error (Listing Name) :=
  match (sc.root.below y).refusal? with
  | some failure => .error (.io failure)
  | none =>
    match sc.metadata (sc.root.below y) with
    | .error failure => .error (listingError (sc.root.below y) failure)
    | .ok m =>
      if !m.isDirectory then .error (.pathVanished (sc.root.below y))
      else match sc.readDirectory (sc.root.below y) with
        | .error failure => .error (listingError (sc.root.below y) failure)
        | .ok _ => .ok (sc.listing y)

/-- What comes of listing a directory by some path. -/
def answer (sc : Scene) (observed : Name → Bool) (p : Path) : Except Error (Listing Name) :=
  match p.refusal? with
  | some failure => .error (.io failure)
  | none =>
    match sc.metadata p with
    | .error failure => .error (listingError p failure)
    | .ok m =>
      if !m.isDirectory then .error (.pathVanished p)
      else match sc.readDirectory p with
        | .error failure => .error (listingError p failure)
        | .ok entries => .ok (Listing.ofEntries observed m.identity entries)

/-- A place is listed by its path below the root. -/
theorem look_eq_answer (sc : Scene) (y : List Name) :
    sc.look y = sc.answer (fun n => sc.filter.allows (.ofNames (y ++ [n]))) (sc.root.below y) := by
  unfold look answer
  rw [listing]
  cases (sc.root.below y).refusal? with
  | some failure => rfl
  | none =>
      cases sc.metadata (sc.root.below y) with
      | error failure => rfl
      | ok m => cases m.isDirectory <;> cases sc.readDirectory (sc.root.below y) <;> rfl

/-- A place that can be listed. -/
def Listed (sc : Scene) (y : List Name) : Prop := ∃ l, sc.look y = .ok l

/-- A place that is gone. -/
def Vanished (sc : Scene) (y : List Name) : Prop := ∃ p, sc.look y = .error (.pathVanished p)

/-- The root is a directory. -/
def Rooted (sc : Scene) : Prop :=
  ∃ m, sc.metadata (sc.root.below []) = .ok m ∧ m.isDirectory = true

/-- Nothing is a link, and unless the root is gone every directory can be listed. -/
structure Readable (sc : Scene) : Prop where
  linkless : sc.Linkless
  listable : sc.Rooted → sc.Listable

/-- The observable directories. There are none when the root is gone. -/
def Stands (sc : Scene) (y : List Name) : Prop := sc.Rooted ∧ sc.Directory y

variable {y z : List Name} {n : Name}

theorem Stands.of_isPart (h : sc.Stands y) (hz : z <+: y) : sc.Stands z :=
  ⟨h.1, h.2.of_isPart hz⟩

theorem Stands.parent (h : sc.Stands (y ++ [n])) : sc.Stands y :=
  h.of_isPart (List.prefix_append y [n])

theorem Listable.look_eq (h : sc.Listable) (hy : sc.Directory y) :
    sc.look y = .ok (sc.listing y) := by
  obtain ⟨m, hm, hd⟩ := h.found y hy
  obtain ⟨es, hes, -⟩ := h.shown y hy
  simp only [look, h.looked y hy, hm, hd, hes]
  rfl

theorem look_of_stands (hr : sc.Readable) (hy : sc.Stands y) :
    sc.look y = .ok (sc.listing y) :=
  (hr.listable hy.1).look_eq hy.2

theorem Stands.listed (hy : sc.Stands y) (hr : sc.Readable) : sc.Listed y :=
  ⟨_, look_of_stands hr hy⟩

/-- Above a directory is the root. -/
theorem Linkless.rooted (hk : sc.Linkless) {m : Metadata}
    (hm : sc.metadata (sc.root.below y) = .ok m) (hd : m.isDirectory = true) : sc.Rooted := by
  induction y using List.reverseRecOn generalizing m with
  | nil => exact ⟨m, hm, hd⟩
  | append_singleton y n ih =>
      obtain ⟨m', hm', hd'⟩ := hk.parent y n m hm hd
      exact ih hm' hd'

/-- A listing is taken of a directory that is there. -/
theorem of_look_eq_ok {l : Listing Name} (h : sc.look y = .ok l) :
    l = sc.listing y ∧ ∃ m, sc.metadata (sc.root.below y) = .ok m ∧ m.isDirectory = true := by
  unfold look at h
  split at h
  · cases h
  split at h
  · cases h
  next m hm =>
  split at h
  · cases h
  next hd =>
  split at h
  · cases h
  · exact ⟨(Except.ok.inj h).symm, m, hm, by simpa using hd⟩

theorem Listed.look_eq (h : sc.Listed y) : sc.look y = .ok (sc.listing y) := by
  obtain ⟨l, hl⟩ := h
  rw [hl, (of_look_eq_ok hl).1]

theorem Vanished.not_listed (h : sc.Vanished y) : ¬ sc.Listed y := by
  rintro ⟨l, hl⟩
  obtain ⟨p, hp⟩ := h
  rw [hl] at hp
  cases hp

theorem Vanished.not_stands (h : sc.Vanished y) (hr : sc.Readable) : ¬ sc.Stands y :=
  fun hy => h.not_listed (hy.listed hr)

/-- What a listing shows is observable. -/
theorem stands_of_get?_listing (hr : sc.Readable) (h : sc.Listed y) {e : ListedEntry}
    (he : (sc.listing y).entries.get? n = some e) :
    sc.Stands y ∧ ∃ m, sc.Shows y n m ∧ e = ⟨m.isDirectory, m.modified⟩ := by
  obtain ⟨l, hlook⟩ := h
  obtain ⟨-, m, hm, hd⟩ := of_look_eq_ok hlook
  have hroot := hr.linkless.rooted hm hd
  obtain ⟨hy, hshown⟩ := hr.linkless.shown_of_listing (hr.listable hroot) hm hd he
  exact ⟨⟨hroot, hy⟩, hshown⟩

/-- A listing shows the directories that are observable. -/
theorem stands_iff_listing (hr : sc.Readable) (h : sc.Listed y) :
    ((sc.listing y).entries.get? n).map (·.isDirectory) = some true ↔ sc.Stands (y ++ [n]) := by
  constructor
  · intro hn
    obtain ⟨e, he, hd⟩ := Option.map_eq_some_iff.1 hn
    obtain ⟨⟨hroot, hy⟩, m, hm, rfl⟩ := stands_of_get?_listing hr h he
    exact ⟨hroot, .child hy hm hd⟩
  · rintro ⟨hroot, hn⟩
    obtain ⟨hy, m, hm, hd⟩ := directory_concat hn
    rw [(get?_listing (hr.listable hroot) hy).2 ⟨m, hm, rfl⟩, Option.map_some, hd]

/-- What the listings show. -/
def seen (sc : Scene) : Mirror := fun y n =>
  (sc.look y).toOption.bind fun l => (l.entries.get? n).map (·.known)

theorem seen_of_look {l : Listing Name} (h : sc.look y = .ok l) (n : Name) :
    sc.seen y n = (l.entries.get? n).map (·.known) := by
  rw [seen, h]
  rfl

theorem seen_of_not_stands (hr : sc.Readable) (hy : ¬ sc.Stands y) (n : Name) :
    sc.seen y n = none := by
  cases h : sc.look y with
  | error e =>
      rw [seen, h]
      rfl
  | ok l =>
      obtain ⟨rfl, -⟩ := of_look_eq_ok h
      rw [seen_of_look h]
      cases he : (sc.listing y).entries.get? n with
      | none => rfl
      | some e => exact absurd (stands_of_get?_listing hr ⟨_, h⟩ he).1 hy

end Scene

/-! ## The machine -/

/-- A machine that answers from a scene, whatever watches are placed and removed. -/
structure Host.Displays (host : Host σ) (sc : Scene) (holds : σ → Prop) : Prop where
  metadata : ∀ p s, holds s →
    (host.metadata p s).1 = sc.metadata p ∧ holds (host.metadata p s).2
  readDirectory : ∀ p s, holds s →
    (host.readDirectory p s).1 = sc.readDirectory p ∧ holds (host.readDirectory p s).2
  watch : ∀ p s, holds s → holds (host.watch p s).2
  unwatch : ∀ p s, holds s → holds (host.unwatch p s).2

theorem Host.Presents.displays (h : host.Presents sc holds) : host.Displays sc holds where
  metadata := h.metadata
  readDirectory := h.readDirectory
  watch := h.watch
  unwatch := h.unwatch

namespace Host.Displays

/-- The machine answers from the scene. -/
theorem list_eq_answer (h : host.Displays sc holds) (observed : Name → Bool) (p : Path) {s : σ}
    (hs : holds s) : (host.list observed p s).1 = sc.answer observed p ∧
      holds (host.list observed p s).2 := by
  unfold Host.list Scene.answer
  cases hr : p.refusal? with
  | some failure => exact ⟨rfl, hs⟩
  | none =>
      obtain ⟨hm, hms⟩ := h.metadata p s hs
      rcases hmeta : host.metadata p s with ⟨e | m, s₁⟩ <;> rw [hmeta] at hm hms
      · simp only [← hm]
        exact ⟨trivial, hms⟩
      obtain ⟨hread, hrs⟩ := h.readDirectory p s₁ hms
      simp only [← hm]
      cases m.isDirectory with
      | false => exact ⟨rfl, hms⟩
      | true =>
          rcases hes : host.readDirectory p s₁ with ⟨e | es, s₂⟩ <;> rw [hes] at hread hrs <;>
            simp only [← hread]
          · exact ⟨rfl, hrs⟩
          · exact ⟨rfl, hrs⟩

/-- There is one answer to the question for a listing. -/
theorem list (h : host.Displays sc holds) (y : List Name) {s : σ} (hs : holds s) :
    (host.list (fun n => sc.filter.allows (.ofNames (y ++ [n]))) (sc.root.below y) s).1 = sc.look y ∧
      holds (host.list (fun n => sc.filter.allows (.ofNames (y ++ [n]))) (sc.root.below y) s).2 := by
  rw [Scene.look_eq_answer]
  exact h.list_eq_answer _ _ hs

/-- What is known of a machine that answers from a scene, with what is known of its watches. -/
def laws (h : host.Displays sc holds) (Watches : Except Error Unit → Prop)
    (hw : ∀ p s, holds s → Watches (host.watch p s).1) : HostLaws host sc.root sc.filter where
  tidy := False
  holds := holds
  written p := ∃ ns, p = sc.root.below ns
  lists y r := r = sc.look y
  watches _ := Watches
  written_child := sc.written_child
  list := by
    rintro r _ y hr hf ⟨ns, rfl⟩ hat hs
    obtain rfl := (Path.at_below sc.root ns).unique hat
    rw [Registry.list, Host.Presents.observes_below hr hf]
    exact h.list ns hs
  watch s p y _ _ hs := ⟨hw p s hs, h.watch p s hs⟩
  unwatch _ _ _ _ _ hs := h.unwatch _ _ hs

end Host.Displays

/-- A machine that presents a scene that can be read, and keeps its watches. No watch is refused. -/
structure Host.Steady (host : Host σ) (sc : Scene) (holds : σ → Prop)
    (watched : σ → Set (List Component)) : Prop where
  presents : host.Presents sc holds
  keeps : host.HoldsWatches watched
  readable : sc.Readable
  spare : ∀ p s, holds s → (host.watch p s).1 = .ok ()

namespace Host.Steady

theorem list (h : host.Steady sc holds watched) (y : List Name) {s : σ} (hs : holds s) :
    (host.list (fun n => sc.filter.allows (.ofNames (y ++ [n]))) (sc.root.below y) s).1 = sc.look y ∧
      holds (host.list (fun n => sc.filter.allows (.ofNames (y ++ [n]))) (sc.root.below y) s).2 :=
  h.presents.displays.list y hs

/-- What is known of a steady machine. -/
def laws (h : host.Steady sc holds watched) : HostLaws host sc.root sc.filter where
  tidy := True
  holds := holds
  written p := ∃ ns, p = sc.root.below ns
  lists y r := r = sc.look y
  watches _ r := r = .ok ()
  written_child := sc.written_child
  list := by
    rintro r _ y hr hf ⟨ns, rfl⟩ hat hs
    obtain rfl := (Path.at_below sc.root ns).unique hat
    rw [Registry.list, Host.Presents.observes_below hr hf]
    exact h.list ns hs
  watch s p y _ _ hs := ⟨h.spare p s hs, h.presents.watch p s hs⟩
  unwatch _ _ _ _ _ hs := h.presents.unwatch _ _ hs

variable {h : host.Steady sc holds watched} {y : List Name}

theorem mayFail_iff : h.laws.MayFail y ↔ ¬ sc.Listed y := by
  constructor
  · rintro (⟨e, he⟩ | ⟨e, he⟩) ⟨l, hl⟩
    · cases he
    · cases he.trans hl
  · intro hn
    cases hl : sc.look y with
    | error e => exact .inr ⟨e, hl.symm⟩
    | ok l => exact absurd ⟨l, hl⟩ hn

theorem not_mayFail (hy : sc.Stands y) : ¬ h.laws.MayFail y := fun hf =>
  mayFail_iff.1 hf (hy.listed h.readable)

/-- What is taken to be gone is not observable. -/
theorem not_stands_of_gone {t : List Name} (ht : h.laws.Gone t) : ¬ sc.Stands t := by
  intro hst
  rcases ht with hfail | ⟨y, n, l, rfl, hlist, hne⟩
  · exact not_mayFail hst hfail
  · obtain ⟨rfl, -⟩ := Scene.of_look_eq_ok hlist.symm
    exact hne ((Scene.stands_iff_listing h.readable ⟨_, hlist.symm⟩).2 hst)

/-- What has a reason tells what the listings show. -/
theorem toward_of_grounded {e : Event} (he : h.laws.Grounded e) : sc.seen.Toward e := by
  cases e with
  | created y n k =>
      obtain ⟨l, i, hlist, hi, rfl⟩ := he
      exact (Scene.seen_of_look hlist.symm n).trans (by rw [hi]; rfl)
  | updated y n t =>
      obtain ⟨l, i, hlist, hi, ht⟩ := he
      exact (Scene.seen_of_look hlist.symm n).trans (by rw [hi, ← ht]; rfl)
  | deleted y n f =>
      change (sc.seen y n).map (·.isDirectory) ≠ some f
      rcases he with ⟨l, hlist, hne⟩ | ⟨t, ht, hgone⟩
      · rw [Scene.seen_of_look hlist.symm, Option.map_map]
        simpa only [Function.comp_def, ListedEntry.isDirectory_known] using hne
      · have hy : ¬ sc.Stands y := fun hy => not_stands_of_gone hgone (hy.of_isPart ht)
        rw [Scene.seen_of_not_stands h.readable hy]
        simp

end Host.Steady

end DirWatch
