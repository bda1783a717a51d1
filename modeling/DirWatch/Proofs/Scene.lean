import DirWatch.Proofs.Engine.Laws
import DirWatch.Proofs.Filter

/-! # A file system that does not change

A scene is what a machine shows while nothing changes. Its observable directories are those that are
reached from the root through entries that are observed and are directories themselves. -/

namespace DirWatch

/-- What is shown below a root to a watcher with a filter. -/
structure Scene where
  root : Path
  filter : Filter
  metadata : Path → Except IoFailure Metadata
  readDirectory : Path → Except IoFailure (List DirectoryEntry)

namespace Scene

variable (sc : Scene)

/-- The directory at `y` shows an entry that is observed. -/
def Shows (y : List Name) (n : Name) (m : Metadata) : Prop :=
  sc.filter.allows (.ofNames (y ++ [n])) = true ∧
    ∃ es e, sc.readDirectory (sc.root.below y) = .ok es ∧ e ∈ es ∧ e.name = n ∧ e.metadata = .ok m

/-- The observable directories. A link is never a directory, so they are reached without links. -/
inductive Directory : List Name → Prop
  | root : Directory []
  | child {y : List Name} {n : Name} {m : Metadata} (parent : Directory y) (shown : sc.Shows y n m)
      (isDirectory : m.isDirectory = true) : Directory (y ++ [n])

/-- Every observable directory can be listed, and shows no name twice. -/
structure Listable : Prop where
  looked : ∀ y, sc.Directory y → (sc.root.below y).refusal? = none
  found : ∀ y, sc.Directory y →
    ∃ m, sc.metadata (sc.root.below y) = .ok m ∧ m.isDirectory = true
  shown : ∀ y, sc.Directory y →
    ∃ es, sc.readDirectory (sc.root.below y) = .ok es ∧ (es.map (·.name)).Nodup

/-- No link is on the way to a directory: what is a directory stands as one among the entries of a
directory. -/
structure Linkless : Prop where
  parent : ∀ y n m, sc.metadata (sc.root.below (y ++ [n])) = .ok m → m.isDirectory = true →
    ∃ m', sc.metadata (sc.root.below y) = .ok m' ∧ m'.isDirectory = true
  entry : ∀ y n m es, sc.metadata (sc.root.below (y ++ [n])) = .ok m → m.isDirectory = true →
    sc.readDirectory (sc.root.below y) = .ok es →
      ∃ e ∈ es, e.name = n ∧ ∃ m', e.metadata = .ok m' ∧ m'.isDirectory = true

/-- The observable entries. -/
def Observable : Set EntryView :=
  {v | ∃ y n m, sc.Directory y ∧ sc.Shows y n m ∧
    v = ((y ++ [n]).map .name, m.isDirectory, m.modified)}

/-- The listing of a place. -/
def listing (y : List Name) : Listing Name :=
  .ofEntries (fun n => sc.filter.allows (.ofNames (y ++ [n])))
    ((sc.metadata (sc.root.below y)).toOption.bind (·.identity))
    ((sc.readDirectory (sc.root.below y)).toOption.getD [])

variable {sc}

theorem directory_concat {y : List Name} {n : Name} (h : sc.Directory (y ++ [n])) :
    sc.Directory y ∧ ∃ m, sc.Shows y n m ∧ m.isDirectory = true := by
  generalize hz : y ++ [n] = z at h
  cases h with
  | root => simp at hz
  | child parent shown isDirectory =>
      obtain ⟨rfl, rfl⟩ := List.append_singleton_inj.1 hz
      exact ⟨parent, _, shown, isDirectory⟩

/-- What leads to an observable directory is observable. -/
theorem Directory.of_isPart {t y : List Name} (h : sc.Directory y) (ht : t <+: y) :
    sc.Directory t := by
  induction y using List.reverseRecOn with
  | nil => rwa [List.prefix_nil.1 ht]
  | append_singleton y n ih =>
      rcases List.prefix_concat_iff.1 ht with rfl | ht
      · exact h
      · exact ih (directory_concat h).1 ht

/-- Without links, what is a directory is observable, or nothing in it is observed. -/
theorem Linkless.directory_or_hidden (h : sc.Linkless) (hl : sc.Listable) {y : List Name}
    {m : Metadata} (hm : sc.metadata (sc.root.below y) = .ok m) (hd : m.isDirectory = true) :
    sc.Directory y ∨ ∀ n, sc.filter.allows (.ofNames (y ++ [n])) = false := by
  induction y using List.reverseRecOn generalizing m with
  | nil => exact .inl .root
  | append_singleton y n ih =>
      by_cases hobs : sc.filter.allows (.ofNames (y ++ [n])) = true
      · left
        obtain ⟨m', hm', hd'⟩ := h.parent y n m hm hd
        have hy : sc.Directory y := by
          refine (ih hm' hd').resolve_right fun hidden => ?_
          rw [hidden n] at hobs
          cases hobs
        obtain ⟨es, hes, -⟩ := hl.shown y hy
        obtain ⟨e, he, hn, m'', hm'', hd''⟩ := h.entry y n m es hm hd hes
        exact .child hy ⟨hobs, es, e, hes, he, hn, hm''⟩ hd''
      · right
        intro k
        by_contra hk
        exact hobs (Filter.allows_of_concat ((Bool.not_eq_false _).mp hk))

/-- What is kept of some entries has no name twice if they have none. -/
theorem nodup_kept {β : Type} {f : DirectoryEntry → Option (Name × β)}
    (hf : ∀ e b, f e = some b → b.1 = e.name) {es : List DirectoryEntry}
    (h : (es.map (·.name)).Nodup) : ((es.filterMap f).map (·.1)).Nodup := by
  refine h.sublist ?_
  clear h
  induction es with
  | nil => exact List.Sublist.slnil
  | cons e es ih =>
      rw [List.filterMap_cons, List.map_cons]
      split
      · exact ih.cons _
      · next b hb =>
          rw [List.map_cons, hf e b hb]
          exact ih.cons_cons _

theorem get?_ofEntries {observed : Name → Bool} {identity : Option Identity}
    {es : List DirectoryEntry} (h : (es.map (·.name)).Nodup) {n : Name} {e : ListedEntry} :
    (Listing.ofEntries observed identity es).entries.get? n = some e ↔
      ∃ a ∈ es, ∃ m, a.name = n ∧ a.metadata = .ok m ∧ observed n = true ∧
        e = ⟨m.isDirectory, m.modified⟩ := by
  rw [Listing.ofEntries]
  dsimp only
  rw [OrderedMap.get?_ofList, List.mem_filterMap]
  · constructor
    · rintro ⟨a, ha, he⟩
      split at he
      · next m hm =>
          split at he
          · next hobs =>
              obtain ⟨rfl, rfl⟩ := Prod.mk.inj (Option.some.inj he)
              exact ⟨a, ha, m, rfl, hm, hobs, rfl⟩
          · cases he
      · cases he
    · rintro ⟨a, ha, m, rfl, hm, hobs, rfl⟩
      exact ⟨a, ha, by rw [hm]; exact if_pos hobs⟩
  · refine nodup_kept ?_ h
    intro a b hb
    split at hb
    · split at hb
      · exact congrArg Prod.fst (Option.some.inj hb).symm
      · cases hb
    · cases hb

theorem observed_of_get?_ofEntries {observed : Name → Bool} {identity : Option Identity}
    {es : List DirectoryEntry} {n : Name} {e : ListedEntry}
    (h : (Listing.ofEntries observed identity es).entries.get? n = some e) : observed n = true := by
  obtain ⟨a, -, he⟩ := List.mem_filterMap.1 (OrderedMap.mem_of_get?_ofList h)
  split at he
  · split at he
    · next hobs =>
        obtain ⟨rfl, -⟩ := Prod.mk.inj (Option.some.inj he)
        exact hobs
    · cases he
  · cases he

/-- The listing of an observable directory has the entries that the directory shows. -/
theorem get?_listing (h : sc.Listable) {y : List Name} (hy : sc.Directory y) {n : Name}
    {e : ListedEntry} :
    (sc.listing y).entries.get? n = some e ↔
      ∃ m, sc.Shows y n m ∧ e = ⟨m.isDirectory, m.modified⟩ := by
  obtain ⟨es, hes, hnodup⟩ := h.shown y hy
  have htake : (sc.readDirectory (sc.root.below y)).toOption.getD [] = es := by
    rw [hes]
    rfl
  rw [listing, htake, get?_ofEntries hnodup]
  constructor
  · rintro ⟨a, ha, m, hn, hm, hobs, rfl⟩
    exact ⟨m, ⟨hobs, es, a, hes, ha, hn, hm⟩, rfl⟩
  · rintro ⟨m, ⟨hobs, es', a, hes', ha, hn, hm⟩, rfl⟩
    obtain rfl : es = es' := Except.ok.inj (hes.symm.trans hes')
    exact ⟨a, ha, m, hn, hm, hobs, rfl⟩

/-- Without links, what a listing shows is observable. -/
theorem Linkless.shown_of_listing (h : sc.Linkless) (hl : sc.Listable) {y : List Name}
    {m : Metadata} (hm : sc.metadata (sc.root.below y) = .ok m) (hd : m.isDirectory = true)
    {n : Name} {e : ListedEntry} (he : (sc.listing y).entries.get? n = some e) :
    sc.Directory y ∧ ∃ m, sc.Shows y n m ∧ e = ⟨m.isDirectory, m.modified⟩ := by
  have hy : sc.Directory y := by
    refine (h.directory_or_hidden hl hm hd).resolve_right fun hidden => ?_
    have hobs := observed_of_get?_ofEntries he
    rw [hidden n] at hobs
    cases hobs
  exact ⟨hy, (get?_listing hl hy).1 he⟩

theorem identity_listing {y : List Name} {m : Metadata}
    (h : sc.metadata (sc.root.below y) = .ok m) : (sc.listing y).identity = m.identity := by
  rw [listing, Listing.ofEntries, h]
  rfl

/-- A path that is written as the root joined with names can be joined with another one. -/
theorem written_child (sc : Scene) (p : Path) (n : Name) (hp : ∃ ns, p = sc.root.below ns) :
    ∃ ns, p.child n = sc.root.below ns := by
  obtain ⟨ns, rfl⟩ := hp
  exact ⟨ns ++ [n], (Path.below_concat sc.root ns n).symm⟩

end Scene

variable {σ : Type}

/-- What is observed of a directory depends on the names that are left of its path. -/
theorem Registry.observes_eq {r : Registry σ} {p : Path} {y : List Name}
    (h : p.stripPrefix? r.root = some (.ofNames y)) :
    r.observes p = fun n => r.filter.allows (.ofNames (y ++ [n])) := by
  funext n
  rw [observes, relative?, h, Option.getD_some, Path.ofNames, Path.ofNames, Path.below_concat]

/-- A machine presents a scene, whatever watches are placed and removed. A watch on an observable
directory succeeds, and no watch fails fatally. -/
structure Host.Presents (host : Host σ) (sc : Scene) (holds : σ → Prop) : Prop where
  metadata : ∀ p s, holds s →
    (host.metadata p s).1 = sc.metadata p ∧ holds (host.metadata p s).2
  readDirectory : ∀ p s, holds s →
    (host.readDirectory p s).1 = sc.readDirectory p ∧ holds (host.readDirectory p s).2
  watch : ∀ p s, holds s → holds (host.watch p s).2
  unwatch : ∀ p s, holds s → holds (host.unwatch p s).2
  watched : ∀ y s, holds s → sc.Directory y → (host.watch (sc.root.below y) s).1 = .ok ()
  notFatal : ∀ p s e, holds s → (host.watch p s).1 = .error e → e.isFatal = false

namespace Host.Presents

variable {host : Host σ} {sc : Scene} {holds : σ → Prop}

/-- A listing that is taken is the listing of the scene, of a directory that is there. -/
theorem list (h : host.Presents sc holds) (y : List Name) {s : σ} (hs : holds s) :
    ∃ r s', host.list (fun n => sc.filter.allows (.ofNames (y ++ [n]))) (sc.root.below y) s =
        (r, s') ∧ holds s' ∧
      (∀ l, r = .ok l → l = sc.listing y ∧
        ∃ m, sc.metadata (sc.root.below y) = .ok m ∧ m.isDirectory = true) ∧
      (sc.Listable → sc.Directory y → ∃ l, r = .ok l) := by
  rw [Host.list]
  split
  · next hr =>
      refine ⟨_, _, rfl, hs, by simp, fun hl hy => ?_⟩
      rw [hl.looked y hy] at hr
      cases hr
  obtain ⟨hm, hms⟩ := h.metadata (sc.root.below y) s hs
  rcases hmeta : host.metadata (sc.root.below y) s with ⟨e | m, s₁⟩
  · rw [hmeta] at hm hms
    refine ⟨_, _, rfl, hms, by simp, fun hl hy => ?_⟩
    obtain ⟨m, hok, -⟩ := hl.found y hy
    rw [← hm] at hok
    cases hok
  rw [hmeta] at hm hms
  dsimp only at hm hms ⊢
  by_cases hd : m.isDirectory = true
  · rw [if_neg (by simp [hd])]
    obtain ⟨hr, hrs⟩ := h.readDirectory (sc.root.below y) s₁ hms
    rcases hread : host.readDirectory (sc.root.below y) s₁ with ⟨e | es, s₂⟩
    · rw [hread] at hr hrs
      refine ⟨_, _, rfl, hrs, by simp, fun hl hy => ?_⟩
      obtain ⟨es, hok, -⟩ := hl.shown y hy
      rw [← hr] at hok
      cases hok
    · rw [hread] at hr hrs
      refine ⟨_, _, rfl, hrs, ?_, fun _ _ => ⟨_, rfl⟩⟩
      rintro l ⟨⟩
      refine ⟨?_, m, hm.symm, hd⟩
      rw [Scene.listing, ← hm, ← hr]
      rfl
  · rw [if_pos (by simp [hd])]
    refine ⟨_, _, rfl, hms, by simp, fun hl hy => ?_⟩
    obtain ⟨m', hok, hd'⟩ := hl.found y hy
    obtain rfl : m = m' := Except.ok.inj (hm.trans hok)
    exact absurd hd' hd

/-- What is observed of a directory depends on the names that lead to it. -/
theorem observes_below {r : Registry σ} (hr : r.root = sc.root) (hf : r.filter = sc.filter)
    (y : List Name) : r.observes (sc.root.below y) =
      fun n => sc.filter.allows (.ofNames (y ++ [n])) := by
  rw [← hf]
  exact Registry.observes_eq (hr ▸ Path.stripPrefix?_below sc.root y)

/-- What is known of a machine that presents a scene. -/
def laws (h : host.Presents sc holds) (hl : sc.Listable) (tidy : Prop) :
    HostLaws host sc.root sc.filter where
  tidy := tidy
  holds := holds
  written p := ∃ ns, p = sc.root.below ns
  lists y r := (∀ l, r = .ok l → l = sc.listing y ∧
    ∃ m, sc.metadata (sc.root.below y) = .ok m ∧ m.isDirectory = true) ∧
      (sc.Directory y → ∃ l, r = .ok l)
  watches y r := (sc.Directory y → r = .ok ()) ∧ ∀ e, r = .error e → e.isFatal = false
  written_child := sc.written_child
  list := by
    rintro r _ y hr hf ⟨ns, rfl⟩ hat hs
    obtain rfl := (Path.at_below sc.root ns).unique hat
    obtain ⟨a, s', ha, hs', htaken, hlisted⟩ := h.list ns hs
    rw [Registry.list, observes_below hr hf, ha]
    exact ⟨⟨htaken, hlisted hl⟩, hs'⟩
  watch := by
    rintro s _ y ⟨ns, rfl⟩ hat hs
    obtain rfl := (Path.at_below sc.root ns).unique hat
    exact ⟨⟨h.watched ns s hs, fun e => h.notFatal _ s e hs⟩, h.watch _ s hs⟩
  unwatch _ _ _ _ _ hs := h.unwatch _ _ hs

variable {h : host.Presents sc holds} {hl : sc.Listable} {tidy : Prop}

/-- An observable directory does not fail. -/
theorem not_mayFail {y : List Name} (hy : sc.Directory y) : ¬ (h.laws hl tidy).MayFail y := by
  rintro (⟨e, hw, -⟩ | ⟨e, -, hlist⟩)
  · cases hw hy
  · obtain ⟨l, hl⟩ := hlist hy
    cases hl

/-- Only the listing of the scene is ever taken. -/
theorem eq_listing {y : List Name} {l : Listing Name} (hy : (h.laws hl tidy).lists y (.ok l)) :
    l = sc.listing y := (hy.1 l rfl).1

/-- No pass fails. -/
theorem not_fatal {y : List Name} {e : Error} (he : e.isFatal = true) :
    ¬ (h.laws hl tidy).watches y (.error e) := by
  rintro ⟨-, hw⟩
  rw [hw e rfl] at he
  cases he

end Host.Presents

end DirWatch
