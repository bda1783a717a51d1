import DirWatch.Proofs.Engine.Passes

/-! # What passes change is told

Whatever a registry tracks, also if its directories do not hang together: what a completed pass
changes in it is told. An entry that is tracked no more was told to be deleted, one that is new was
told to be created, and a file with another time was told to be updated. -/

namespace DirWatch

variable {σ : Type} {host : Host σ}

/-! ## One entry -/

/-- What is told of an entry explains how it is known before and after. -/
inductive Explains (told : ChangeKind → Bool → Prop) : Option Known → Option Known → Prop
  | same (x : Option Known) : Explains told x x
  | replaced {x y : Option Known} (deleted : ∀ k, x = some k → told .deleted k.isDirectory)
      (created : ∀ k, y = some k → told .created k.isDirectory) : Explains told x y
  | updated (t t' : Option Timestamp) (updated : told .updated false) :
      Explains told (some (.file t)) (some (.file t'))

namespace Explains

variable {told told' : ChangeKind → Bool → Prop} {x y z : Option Known}

theorem mono (h : Explains told x y) (hmore : ∀ kind f, told kind f → told' kind f) :
    Explains told' x y := by
  cases h with
  | same => exact .same x
  | replaced deleted created =>
      exact .replaced (fun k hk => hmore _ _ (deleted k hk)) fun k hk => hmore _ _ (created k hk)
  | updated t t' updated => exact .updated t t' (hmore _ _ updated)

theorem trans (h : Explains told x y) (h' : Explains told y z) : Explains told x z := by
  cases h with
  | same => exact h'
  | replaced deleted created =>
      cases h' with
      | same => exact .replaced deleted created
      | replaced deleted' created' => exact .replaced deleted created'
      | updated t t' updated =>
          refine .replaced deleted fun k hk => ?_
          obtain rfl := Option.some.inj hk
          exact created (.file t) rfl
  | updated t t' updated =>
      cases h' with
      | same => exact .updated t t' updated
      | replaced deleted created =>
          refine .replaced (fun k hk => ?_) created
          obtain rfl := Option.some.inj hk
          exact deleted (.file t') rfl
      | updated t' t'' updated' => exact .updated t t'' updated'

end Explains

/-- The entries that a difference reports as changed in some way. -/
def Delta.entries {ν : Type} (delta : Delta ν) : ChangeKind → List (NamedEntry ν)
  | .created => delta.created
  | .updated => delta.updated
  | .deleted => delta.deleted

namespace TrackedDirectory

/-- What is known of an entry. -/
def known? (d : TrackedDirectory Name) (n : Name) : Option Known := (d.items.get? n).map Item.known

theorem mem_deleted_of_retyped {d : TrackedDirectory Name} {l : Listing Name} {n : Name} {i : Item}
    {e : ListedEntry} (hi : d.items.get? n = some i) (he : l.entries.get? n = some e)
    (hne : i.isDirectory ≠ e.isDirectory) : ⟨n, i.isDirectory⟩ ∈ (d.reconcile l).1.deleted := by
  refine List.mem_append_left _ (List.mem_map.2 ⟨(n, e), List.mem_filter.2 ⟨?_, ?_⟩, ?_⟩)
  · exact OrderedMap.mem_entries_iff.2 he
  · simp [isRetyped, hi, hne]
  · rw [(Bool.eq_not_of_ne hne).symm]

theorem mem_deleted_of_unlisted {d : TrackedDirectory Name} {l : Listing Name} {n : Name} {i : Item}
    (hi : d.items.get? n = some i) (hl : l.entries.get? n = none)
    (hseen : i.seen ≠ d.generation + 1) : ⟨n, i.isDirectory⟩ ∈ (d.reconcile l).1.deleted := by
  refine List.mem_append_right _ (List.mem_map.2 ⟨(n, i), List.mem_filter.2 ⟨?_, ?_⟩, rfl⟩)
  · rw [OrderedMap.mem_entries_iff, get?_stamp, hl, hi]
    rfl
  · simpa using hseen

/-- An entry that keeps its kind is the same, or a file with another time. -/
theorem explains_of_same_kind {d : TrackedDirectory Name} {l : Listing Name} {n : Name} {i : Item}
    {e : ListedEntry} (hi : d.items.get? n = some i) (he : l.entries.get? n = some e)
    (hkind : i.isDirectory = e.isDirectory) :
    Explains (fun kind f => ⟨n, f⟩ ∈ (d.reconcile l).1.entries kind)
      ((some i).map Item.known) (some e.known) := by
  rw [Option.map_some, Item.known, ListedEntry.known, hkind]
  split
  · exact .same _
  · next hf =>
      have hf := (Bool.not_eq_true _).mp hf
      by_cases ht : i.modified = e.modified
      · rw [ht]
        exact .same _
      · exact .updated _ _ (mem_updated.2 ⟨rfl, i, e, hi, he, hkind.trans hf, hf, ht⟩)

/-- The difference explains what a listing changes. -/
theorem explains_reconcile (d : TrackedDirectory Name) (l : Listing Name) (n : Name) :
    Explains (fun kind f => ⟨n, f⟩ ∈ (d.reconcile l).1.entries kind) (d.known? n)
      ((d.reconcile l).2.known? n) := by
  have hitems : (d.reconcile l).2.items.get? n =
      (((l.entries.get? n).map (·.stamped (d.generation + 1))).or (d.items.get? n)).filter
        fun i => i.seen == d.generation + 1 := by
    rw [reconcile, OrderedMap.get?_filter, get?_stamp]
  cases he : l.entries.get? n with
  | none =>
      rw [he, Option.map_none, Option.none_or] at hitems
      rw [known?, known?, hitems]
      cases hi : d.items.get? n with
      | none => exact .same none
      | some i =>
          by_cases hseen : i.seen = d.generation + 1
          · rw [Option.filter_some, if_pos (by simpa using hseen)]
            exact .same _
          · rw [Option.filter_some, if_neg (by simpa using hseen)]
            refine .replaced (fun k hk => ?_) (fun k hk => by cases hk)
            obtain rfl := Option.some.inj hk
            rw [Item.isDirectory_known]
            exact mem_deleted_of_unlisted hi he hseen
  | some e =>
      have hitem : (d.reconcile l).2.items.get? n = some (e.stamped (d.generation + 1)) := by
        rw [hitems, he]
        simp [ListedEntry.stamped]
      have hknown : (e.stamped (d.generation + 1)).known = e.known := rfl
      rw [known?, known?, hitem, Option.map_some, hknown]
      have hcreated : (d.items.get? n).map (·.isDirectory) ≠ some e.isDirectory →
          ∀ k, some e.known = some k → ⟨n, k.isDirectory⟩ ∈ (d.reconcile l).1.created := by
        rintro hne k hk
        obtain rfl := Option.some.inj hk
        rw [ListedEntry.isDirectory_known]
        exact mem_created.2 ⟨by rw [he]; rfl, hne⟩
      cases hi : d.items.get? n with
      | none => exact .replaced (fun k hk => by cases hk) (hcreated (by simp [hi]))
      | some i =>
          by_cases hkind : i.isDirectory = e.isDirectory
          · exact explains_of_same_kind hi he hkind
          · refine .replaced (fun k hk => ?_) (hcreated (by simpa [hi] using hkind))
            obtain rfl := Option.some.inj hk
            rw [Item.isDirectory_known]
            exact mem_deleted_of_retyped hi he hkind

end TrackedDirectory

/-! ## What a registry knows -/

/-- Some news tell what happened to an entry, whatever way its directory is written. -/
def Announces (root : Path) (news : List Notification) (p : Path) (n : Name) (kind : ChangeKind)
    (f : Bool) : Prop :=
  ∃ q rel : Path, q.same p = true ∧ (q.child n).stripPrefix? root = some rel ∧
    .changed ⟨kind, rel, f⟩ ∈ news

namespace Announces

variable {root p q : Path} {news more : List Notification} {n : Name} {kind : ChangeKind}
  {f : Bool}

theorem mono (h : Announces root news p n kind f) (hmore : ∀ a ∈ news, a ∈ more) :
    Announces root more p n kind f := by
  obtain ⟨q, rel, hq, hrel, hin⟩ := h
  exact ⟨q, rel, hq, hrel, hmore _ hin⟩

theorem congr (h : Announces root news p n kind f) (hs : q.same p = true) :
    Announces root news q n kind f := by
  obtain ⟨q', rel, hq, hrel, hin⟩ := h
  exact ⟨q', rel, Path.same_iff.2 ((Path.same_iff.1 hq).trans (Path.same_iff.1 hs).symm), hrel, hin⟩

end Announces

namespace Registry

/-- What is known of an entry of a directory. -/
def known? (r : Registry σ) (p : Path) (n : Name) : Option Known := (r.get? p).bind (·.known? n)

theorem known?_congr (r : Registry σ) {p q : Path} (h : q.same p = true) (n : Name) :
    r.known? q n = r.known? p n := by
  rw [known?, known?, get?, get?,
    r.directories.get?_congr (Path.compare_eq_iff.2 (Path.same_iff.1 h))]

theorem known?_of_directories {r r' : Registry σ} (h : r'.directories = r.directories) (p : Path)
    (n : Name) : r'.known? p n = r.known? p n := by
  rw [known?, known?, get?, get?, h]

/-- One registry comes from another while some news are told, and they explain what has changed in
it below the root. -/
structure Explained (r r' : Registry σ) (news : List Notification) : Prop where
  root_eq : r'.root = r.root
  notifications_eq : r'.notifications = r.notifications ++ news
  entries : ∀ p n, (p.child n).startsWith r.root = true →
    Explains (Announces r.root news p n) (r.known? p n) (r'.known? p n)

namespace Explained

variable {r r' r'' : Registry σ} {news more : List Notification}

theorem quiet (h : r.Quiet r') (hd : r'.directories = r.directories) : r.Explained r' [] where
  root_eq := h.1
  notifications_eq := by rw [h.2, List.append_nil]
  entries p n _ := by
    rw [known?_of_directories hd]
    exact .same _

theorem refl (r : Registry σ) : r.Explained r [] := quiet ⟨rfl, rfl⟩ rfl

/-- What changes before the news may be explained by them as well. -/
theorem after (h : r.Quiet r') (h' : r'.Explained r'' news)
    (hentries : ∀ p n, (p.child n).startsWith r.root = true →
      Explains (Announces r.root news p n) (r.known? p n) (r'.known? p n)) :
    r.Explained r'' news where
  root_eq := h'.root_eq.trans h.1
  notifications_eq := by rw [h'.notifications_eq, h.2]
  entries p n hp := (hentries p n hp).trans (h.1 ▸ h'.entries p n (h.1 ▸ hp))

theorem trans (h : r.Explained r' news) (h' : r'.Explained r'' more) :
    r.Explained r'' (news ++ more) where
  root_eq := h'.root_eq.trans h.root_eq
  notifications_eq := by rw [h'.notifications_eq, h.notifications_eq, List.append_assoc]
  entries p n hp := by
    have hp' := h'.entries p n (h.root_eq ▸ hp)
    rw [h.root_eq] at hp'
    refine ((h.entries p n hp).mono fun _ _ ha => ?_).trans (hp'.mono fun _ _ ha => ?_)
    · exact ha.mono fun a hin => List.mem_append_left more hin
    · exact ha.mono fun a hin => List.mem_append_right news hin

end Explained

end Registry

/-- Steps in turn that do not fail are taken one by one. -/
theorem inTurn_ok {α σ ε : Type} {step : α → σ → Except ε Unit × σ}
    {R : List α → σ → σ → Prop} (nil : ∀ s, R [] s s)
    (cons : ∀ a l s u v, step a s = (.ok (), u) → R l u v → R (a :: l) s v) {l : List α} {s v : σ}
    (h : inTurn step l s = (.ok (), v)) : R l s v := by
  induction l generalizing s with
  | nil =>
      obtain ⟨-, rfl⟩ := Prod.mk.inj h
      exact nil s
  | cons a l ih =>
      rw [inTurn] at h
      rcases hs : step a s with ⟨e | _, u⟩ <;> rw [hs] at h
      · cases h
      · exact cons a l s u v hs (ih h)

theorem inTurn_pure {α σ ε : Type} (f : σ → α → σ) (l : List α) (s : σ) :
    inTurn (fun a s => ((.ok (), f s a) : Except ε Unit × σ)) l s = (.ok (), l.foldl f s) := by
  induction l generalizing s with
  | nil => rfl
  | cons a l ih => exact ih (f s a)

namespace Engine

variable {kind : ChangeKind} {p : Path} {s u v : Engine σ}

theorem startsWith_child_congr {p q root : Path} (h : q.same p = true) (n : Name) :
    (q.child n).startsWith root = (p.child n).startsWith root := by
  rw [Path.startsWith, Path.startsWith, Path.components_child, Path.components_child,
    Path.same_iff.1 h]

/-! ## Reports -/

/-- A report of an entry of some directory: what happened to it. -/
abbrev Report := ChangeKind × NamedEntry Name

/-- Some reports of entries of a directory are made, and whatever else changes is explained. -/
structure Reported (p : Path) (reports : List Report) (s v : Engine σ) (news : List Notification) :
    Prop where
  explained : s.registry.Explained v.registry news
  announced : ∀ a ∈ reports, (p.child a.2.name).startsWith s.registry.root = true →
    Announces s.registry.root news p a.2.name a.1 a.2.isDirectory

namespace Reported

variable {reports reports' : List Report} {news more : List Notification}

theorem nil (p : Path) (s : Engine σ) : Reported p [] s s [] := ⟨.refl _, by simp⟩

theorem append (h : Reported p reports s u news) (h' : Reported p reports' u v more) :
    Reported p (reports ++ reports') s v (news ++ more) where
  explained := h.explained.trans h'.explained
  announced a ha hin := by
    rcases List.mem_append.1 ha with ha | ha
    · exact (h.announced a ha hin).mono fun b hb => List.mem_append_left more hb
    · have hb := h'.announced a ha (h.explained.root_eq ▸ hin)
      rw [h.explained.root_eq] at hb
      exact hb.mono fun b hb => List.mem_append_right news hb

theorem trans (h : Reported p reports s u news) (h' : u.registry.Explained v.registry more) :
    Reported p reports s v (news ++ more) := by
  have hnone : Reported p [] u v more := ⟨h', by simp⟩
  have hall := h.append hnone
  rwa [List.append_nil] at hall

end Reported

/-- A report of an entry, which is told if it is below the root. -/
theorem reported_emit (kind : ChangeKind) (p : Path) (e : NamedEntry Name) (s : Engine σ) :
    ∃ news, Reported p [(kind, e)] s (s.emit kind (p.child e.name) e.isDirectory) news := by
  cases hrel : s.registry.relative? (p.child e.name) with
  | none =>
      have hout := Path.not_startsWith_of_stripPrefix? hrel
      refine ⟨[], ?_, ?_⟩
      · rw [emit, hrel]
        exact .refl _
      · intro a ha hin
        rw [List.mem_singleton.1 ha, hout] at hin
        cases hin
  | some rel =>
      refine ⟨[.changed ⟨kind, rel, e.isDirectory⟩], ⟨?_, ?_, ?_⟩, ?_⟩
      · rw [emit, hrel]
        rfl
      · rw [emit, hrel]
        exact Registry.notifications_record _ _
      · intro q n _
        rw [Registry.known?_of_directories (emit_directories ..)]
        exact .same _
      · intro a ha _
        obtain rfl := List.mem_singleton.1 ha
        exact ⟨p, rel, Path.same_iff.2 rfl, hrel, List.mem_singleton_self _⟩

/-- Reports in turn. -/
theorem reported_inTurn {step : NamedEntry Name → Engine σ → Except Error Unit × Engine σ}
    (h : ∀ e s u, step e s = (.ok (), u) → ∃ news, Reported p [(kind, e)] s u news)
    {entries : List (NamedEntry Name)} (hok : inTurn step entries s = (.ok (), v)) :
    ∃ news, Reported p (entries.map (kind, ·)) s v news := by
  refine inTurn_ok (R := fun l s v => ∃ news, Reported p (l.map (kind, ·)) s v news) ?_ ?_ hok
  · exact fun s => ⟨[], .nil p s⟩
  · rintro e l s u v hs ⟨more, hmore⟩
    obtain ⟨news, hnews⟩ := h e s u hs
    exact ⟨news ++ more, hnews.append hmore⟩

theorem reported_foldl {f : Engine σ → NamedEntry Name → Engine σ}
    (h : ∀ s e, ∃ news, Reported p [(kind, e)] s (f s e) news) (entries : List (NamedEntry Name))
    (s : Engine σ) : ∃ news, Reported p (entries.map (kind, ·)) s (entries.foldl f s) news := by
  refine reported_inTurn ?_ (inTurn_pure f entries s)
  rintro e s u hs
  obtain ⟨-, rfl⟩ := Prod.mk.inj hs
  exact h s e

/-- The items of a directory as they are reported. -/
def itemReports (kind : ChangeKind) (d : TrackedDirectory Name) : List Report :=
  d.items.entries.map fun e => (kind, ⟨e.1, e.2.isDirectory⟩)

theorem reported_emitItems (kind : ChangeKind) (p : Path) (d : TrackedDirectory Name)
    (s : Engine σ) :
    ∃ news, Reported p (itemReports kind d) s (s.emitItems kind p d.items.entries) news := by
  have h := reported_foldl (fun s e => reported_emit kind p e s)
    (d.items.entries.map fun e => ⟨e.1, e.2.isDirectory⟩) s
  rwa [List.foldl_map, List.map_map] at h

/-- Once its items are reported, all that was known of a directory is told. -/
theorem Reported.of_items {d : TrackedDirectory Name} {news : List Notification} {q : Path}
    (h : Reported p (itemReports kind d) s v news) (hq : q.same p = true) {n : Name}
    (hin : (q.child n).startsWith s.registry.root = true) {k : Known} (hk : d.known? n = some k) :
    Announces s.registry.root news q n kind k.isDirectory := by
  obtain ⟨i, hi, rfl⟩ := Option.map_eq_some_iff.1 hk
  rw [Item.isDirectory_known]
  rw [startsWith_child_congr hq] at hin
  refine (h.announced (kind, ⟨n, i.isDirectory⟩) ?_ hin).congr hq
  exact List.mem_map.2 ⟨(n, i), OrderedMap.mem_entries_iff.2 hi, rfl⟩

/-! ## Retiring -/

theorem known?_cancel {d : TrackedDirectory Name} (hd : s.registry.get? p = some d) (q : Path)
    (n : Name) : (s.cancel host p).registry.known? q n =
      if q.same p then none else s.registry.known? q n := by
  have hdirs : (s.cancel host p).registry.directories = s.registry.directories.erase p := by
    rw [registry_cancel hd]
    rfl
  rw [Registry.known?, Registry.known?, Registry.get?, Registry.get?, hdirs, OrderedMap.get?_erase]
  simp only [Path.compare_eq_iff, ← Path.same_iff]
  split <;> rfl

theorem quiet_cancel {d : TrackedDirectory Name} (hd : s.registry.get? p = some d) :
    s.registry.Quiet (s.cancel host p).registry := by
  rw [registry_cancel hd]
  exact Registry.Quiet.unwatch ⟨rfl, rfl⟩ p

theorem explained_retireAll (host : Host σ) (stack : List Path) (s : Engine σ) :
    ∃ news, s.registry.Explained (retireAll host stack s).registry news := by
  induction stack, s using retireAll.induct host with
  | case1 s =>
      rw [retireAll_nil]
      exact ⟨[], .refl _⟩
  | case2 dir rest s hd ih =>
      rw [retireAll_skip hd]
      exact ih
  | case3 dir rest s d hd ih =>
      obtain ⟨more, hmore⟩ := ih
      obtain ⟨news, hnews⟩ := reported_emitItems .deleted dir d (s.cancel host dir)
      have hquiet : s.registry.Quiet (s.cancel host dir).registry := quiet_cancel hd
      have hall := hnews.trans hmore
      rw [retireAll_cons hd]
      refine ⟨news ++ more, hall.explained.after hquiet ?_⟩
      intro q n hin
      rw [known?_cancel hd]
      split
      · next hq =>
          refine .replaced (fun k hk => ?_) (fun k hk => by cases hk)
          rw [Registry.known?_congr _ hq, Registry.known?, hd] at hk
          rw [← hquiet.1] at hin ⊢
          exact hall.of_items hq hin hk
      · exact .same _

theorem explained_retire (host : Host σ) (p : Path) (s : Engine σ) :
    ∃ news, s.registry.Explained (s.retire host p).registry news :=
  explained_retireAll host [p] s

/-! ## Adopting -/

section Register

variable {r r' : Registry σ} {result : Except Error Bool}

theorem directories_of_register (h : r.register host p = (result, r')) (hn : result ≠ .ok true) :
    r'.directories = r.directories := by
  unfold Registry.register at h
  split at h
  · obtain ⟨-, rfl⟩ := Prod.mk.inj h
    rfl
  split at h
  · next hw =>
      obtain ⟨-, rfl⟩ := Prod.mk.inj h
      exact congrArg (·.2.directories) hw.symm
  next hw =>
  split at h
  · next hl =>
      obtain ⟨-, rfl⟩ := Prod.mk.inj h
      exact (congrArg (·.2.directories) hl.symm).trans (congrArg (·.2.directories) hw.symm)
  · exact absurd (Prod.mk.inj h).1.symm hn

theorem get?_of_register (h : r.register host p = (.ok true, r')) : r.get? p = none := by
  cases hp : r.get? p with
  | none => rfl
  | some d =>
      have hc : r.contains p = true := Option.isSome_of_eq_some hp
      rw [Registry.register, if_pos hc] at h
      cases h

theorem registry_register (h : s.register host p = (result, u)) :
    s.registry.register host p = (result, u.registry) := by
  rcases hr : s.registry.register host p with ⟨result', r⟩
  rw [register, hr] at h
  obtain ⟨rfl, rfl⟩ := Prod.mk.inj h
  rfl

theorem quiet_register (h : r.register host p = (result, r')) : r.Quiet r' := by
  have hquiet : r.Quiet (r.register host p).2 := .register ⟨rfl, rfl⟩ p
  rwa [h] at hquiet

end Register

/-- Registering a directory changes nothing that is known, unless the directory is new. -/
theorem explained_of_not_new {result : Except Error Bool} (h : s.register host p = (result, u))
    (hn : result ≠ .ok true) : s.registry.Explained u.registry [] :=
  have hr := registry_register h
  .quiet (quiet_register hr) (directories_of_register hr hn)

/-- A new directory is explained by the reports of its entries. -/
theorem explained_of_new (h : s.register host p = (.ok true, u)) {news : List Notification}
    (hnews : Reported p (itemReports .created ((u.registry.get? p).getD {})) u v news) :
    s.registry.Explained v.registry news := by
  have hr := registry_register h
  have hquiet := quiet_register hr
  have hnone := get?_of_register hr
  obtain ⟨l, r₁, r₂, hw, hl, hu⟩ := Registry.register_eq_true hr
  have hold : r₂.directories = s.registry.directories :=
    (congrArg (·.2.directories) hl.symm).trans (congrArg (·.2.directories) hw.symm)
  refine hnews.explained.after hquiet fun q n hin => ?_
  by_cases hq : q.same p = true
  · refine .replaced (fun k hk => ?_) (fun k hk => ?_)
    · rw [Registry.known?_congr _ hq, Registry.known?, hnone] at hk
      cases hk
    · rw [Registry.known?_congr _ hq, Registry.known?] at hk
      obtain ⟨d, hd, hk⟩ := Option.bind_eq_some_iff.1 hk
      rw [hd] at hnews
      rw [← hquiet.1] at hin ⊢
      exact hnews.of_items hq hin hk
  · have hne : compare q p ≠ .eq := fun he => hq (Path.same_iff.2 (Path.compare_eq_iff.1 he))
    rw [Registry.known?, Registry.known?, Registry.get?, Registry.get?, hu,
      OrderedMap.get?_insert, if_neg hne, hold]
    exact .same _

theorem explained_inTurn {step : Path → Engine σ → Except Error Unit × Engine σ}
    (h : ∀ q s u, step q s = (.ok (), u) → ∃ news, s.registry.Explained u.registry news)
    {paths : List Path} (hok : inTurn step paths s = (.ok (), v)) :
    ∃ news, s.registry.Explained v.registry news := by
  refine inTurn_ok (R := fun _ s v => ∃ news, s.registry.Explained v.registry news) ?_ ?_ hok
  · exact fun s => ⟨[], .refl _⟩
  · rintro q l s u v hs ⟨more, hmore⟩
    obtain ⟨news, hnews⟩ := h q s u hs
    exact ⟨news ++ more, hnews.trans hmore⟩

/-- An adoption that does not fail finds nothing new, or it reports a new directory and adopts what is
below it as long as there is room. -/
theorem adoptWithin_ok {room : Nat} (h : adoptWithin host room p s = (.ok (), v)) :
    (∃ result, s.register host p = (result, v) ∧ result ≠ .ok true) ∨
      ∃ u, s.register host p = (.ok true, u) ∧
        let d := (u.registry.get? p).getD {}
        let t := u.emitItems .created p d.items.entries
        match room with
        | 0 => t = v
        | room + 1 => inTurn (adoptWithin host room) (d.subdirectories.map p.child).reverse t =
            (.ok (), v) := by
  unfold adoptWithin at h
  rcases hr : s.register host p with ⟨e | _ | _, u⟩ <;> rw [hr] at h <;> dsimp only at h
  · split at h
    · cases h
    · obtain ⟨-, rfl⟩ := Prod.mk.inj h
      exact .inl ⟨_, rfl, by simp⟩
  · obtain ⟨-, rfl⟩ := Prod.mk.inj h
    exact .inl ⟨_, rfl, by simp⟩
  · refine .inr ⟨u, rfl, ?_⟩
    cases room with
    | zero => exact (Prod.mk.inj h).2
    | succ room => exact h

theorem explained_adoptWithin {room : Nat} (h : adoptWithin host room p s = (.ok (), v)) :
    ∃ news, s.registry.Explained v.registry news := by
  induction room generalizing p s v with
  | zero =>
      obtain ⟨result, hr, hn⟩ | ⟨u, hr, hv⟩ := adoptWithin_ok h
      · exact ⟨[], explained_of_not_new hr hn⟩
      · obtain ⟨news, hnews⟩ := reported_emitItems .created p ((u.registry.get? p).getD {}) u
        exact ⟨news, explained_of_new hr (hv ▸ hnews)⟩
  | succ room ih =>
      obtain ⟨result, hr, hn⟩ | ⟨u, hr, hbelow⟩ := adoptWithin_ok h
      · exact ⟨[], explained_of_not_new hr hn⟩
      · obtain ⟨news, hnews⟩ := reported_emitItems .created p ((u.registry.get? p).getD {}) u
        obtain ⟨more, hmore⟩ := explained_inTurn (fun q s u hq => ih hq) hbelow
        exact ⟨news ++ more, explained_of_new hr (hnews.trans hmore)⟩

theorem explained_adopt (h : adopt host p s = (.ok (), v)) :
    ∃ news, s.registry.Explained v.registry news :=
  explained_adoptWithin h

/-! ## Passes -/

theorem reported_reportDeleted (host : Host σ) (p : Path) (entries : List (NamedEntry Name))
    (s : Engine σ) :
    ∃ news, Reported p (entries.map (.deleted, ·)) s (reportDeleted host p entries s) news := by
  refine reported_foldl (fun s e => ?_) entries s
  obtain ⟨news, hnews⟩ := reported_emit .deleted p e s
  dsimp only
  split
  · obtain ⟨more, hmore⟩ := explained_retire host (p.child e.name)
      (s.emit .deleted (p.child e.name) e.isDirectory)
    exact ⟨news ++ more, hnews.trans hmore⟩
  · exact ⟨news, hnews⟩

theorem reported_reportCreated {entries : List (NamedEntry Name)}
    (h : reportCreated host p entries s = (.ok (), v)) :
    ∃ news, Reported p (entries.map (.created, ·)) s v news := by
  refine reported_inTurn (fun e s u he => ?_) h
  obtain ⟨news, hnews⟩ := reported_emit .created p e s
  dsimp only at he
  split at he
  · obtain ⟨more, hmore⟩ := explained_adopt he
    exact ⟨news ++ more, hnews.trans hmore⟩
  · obtain ⟨-, rfl⟩ := Prod.mk.inj he
    exact ⟨news, hnews⟩

theorem reported_reportUpdated (p : Path) (entries : List (NamedEntry Name)) (s : Engine σ) :
    ∃ news, Reported p (entries.map (.updated, ·)) s (reportUpdated p entries s) news :=
  reported_foldl (fun s e => reported_emit .updated p e s) entries s

/-- A listing that is taken over to the end is explained. -/
theorem explained_absorb {l : Listing Name} (h : s.absorb host p l = (.ok (), v)) :
    ∃ news, s.registry.Explained v.registry news := by
  cases hd : s.registry.get? p with
  | none =>
      rw [absorb, hd] at h
      obtain ⟨-, rfl⟩ := Prod.mk.inj h
      exact ⟨[], .refl _⟩
  | some d =>
      obtain ⟨gone, hgone⟩ := reported_reportDeleted host p (d.reconcile l).1.deleted
        (s.put p (d.reconcile l).2)
      rw [absorb, hd] at h
      dsimp only at h
      split at h
      · cases h
      next t hc =>
      obtain ⟨new, hnew⟩ := reported_reportCreated hc
      obtain ⟨changed, hchanged⟩ := reported_reportUpdated p (d.reconcile l).1.updated t
      obtain ⟨retried, hretried⟩ := explained_inTurn (fun q s u => explained_adopt) h
      have hall := hgone.append (hnew.append (hchanged.trans hretried))
      have hquiet : s.registry.Quiet (s.put p (d.reconcile l).2).registry := ⟨rfl, rfl⟩
      refine ⟨_, hall.explained.after hquiet fun q n hin => ?_⟩
      have hput : (s.put p (d.reconcile l).2).registry.known? q n =
          if q.same p then (d.reconcile l).2.known? n else s.registry.known? q n := by
        rw [Registry.known?, Registry.get?, put, OrderedMap.get?_insert]
        simp only [Path.compare_eq_iff, ← Path.same_iff]
        split <;> rfl
      rw [hput]
      split
      · next hq =>
          rw [Registry.known?_congr _ hq, Registry.known?, hd]
          refine (d.explains_reconcile l n).mono fun kind f hf => ?_
          rw [startsWith_child_congr hq] at hin
          refine (hall.announced (kind, ⟨n, f⟩) ?_ hin).congr hq
          cases kind <;> simpa [Delta.entries] using hf
      · exact .same _

theorem explained_renew {l : Listing Name} {replaced : Bool}
    (h : s.renew host p l replaced = (.ok (), v)) :
    ∃ news, s.registry.Explained v.registry news := by
  cases replaced with
  | false => exact explained_absorb h
  | true =>
      have hquiet : s.registry.Quiet (s.registry.rearm host p).2 :=
        (Registry.Quiet.unwatch ⟨rfl, rfl⟩ p).watch p
      have hrearmed : s.registry.Explained (s.registry.rearm host p).2 [] := .quiet hquiet rfl
      simp only [renew, if_true] at h
      rcases hr : s.registry.rearm host p with ⟨e | _, r⟩ <;> rw [hr] at h hrearmed
      · dsimp only at h
        split at h
        · cases h
        · obtain ⟨-, rfl⟩ := Prod.mk.inj h
          obtain ⟨news, hnews⟩ := explained_retire host p { s with registry := r }
          exact ⟨_, hrearmed.trans hnews⟩
      · obtain ⟨news, hnews⟩ := explained_absorb h
        exact ⟨_, hrearmed.trans hnews⟩

theorem explained_resume {d : TrackedDirectory Name} {result : Except Error (Listing Name)}
    (h : resume host p d s result = (.ok (), v)) :
    ∃ news, s.registry.Explained v.registry news := by
  unfold resume at h
  split at h
  · obtain ⟨-, rfl⟩ := Prod.mk.inj h
    exact explained_retire host p s
  · obtain ⟨-, rfl⟩ := Prod.mk.inj h
    exact ⟨[], .refl _⟩
  · obtain ⟨news, hnews⟩ := explained_renew h
    exact ⟨news, hnews⟩

/-- What a completed pass changes is told. -/
theorem explained_diff (h : s.diff host p = (.ok (), v)) :
    ∃ news, s.registry.Explained v.registry news := by
  have hbegan : s.registry.Quiet (s.registry.record (.began p)) :=
    ⟨rfl, (Registry.notifications_record _ _).trans (List.append_nil _)⟩
  cases hd : s.registry.get? p with
  | none =>
      rw [diff_none hd] at h
      obtain ⟨-, rfl⟩ := Prod.mk.inj h
      exact ⟨[], .quiet hbegan rfl⟩
  | some d =>
      have hlisted : s.registry.Explained ((s.registry.record (.began p)).list host p).2 [] :=
        .quiet (hbegan.list p) rfl
      rw [diff_eq hd] at h
      obtain ⟨news, hnews⟩ := explained_resume h
      exact ⟨_, hlisted.trans hnews⟩

/-- Passes over a batch that are completed, each of which tells what it changes. -/
inductive Carried (host : Host σ) : List Path → Engine σ → Engine σ → List Notification → Prop
  | nil (s : Engine σ) : Carried host [] s s []
  | cons {p : Path} {batch : List Path} {s u v : Engine σ} {news more : List Notification}
      (pass : s.diff host p = (.ok (), u)) (told : s.registry.Explained u.registry news)
      (rest : Carried host batch u v more) : Carried host (p :: batch) s v (news ++ more)

theorem Passes.carried {batch : List Path} (h : Passes host batch s v) :
    ∃ news, Carried host batch s v news := by
  induction h with
  | nil s => exact ⟨[], .nil s⟩
  | cons pass rest ih =>
      obtain ⟨news, hnews⟩ := explained_diff pass
      obtain ⟨more, hmore⟩ := ih
      exact ⟨news ++ more, .cons pass hnews hmore⟩

/-- What all of them change is told as well. -/
theorem Carried.explained {batch : List Path} {news : List Notification}
    (h : Carried host batch s v news) : s.registry.Explained v.registry news := by
  induction h with
  | nil s => exact .refl _
  | cons pass told rest ih => exact told.trans ih

end Engine

end DirWatch
