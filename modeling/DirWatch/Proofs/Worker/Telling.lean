import DirWatch.Proofs.Worker.Clock

/-! # What a worker tells

Whatever was told before, a worker tells of changes, and then of one failure at most, with which it
ends. This holds over every run, whatever the machine answers and wherever a pass is cut short. -/

namespace DirWatch

variable {σ : Type} {host : Host σ} {root : Path} {told : List Notification}

/-! ## Registries -/

namespace Registry

/-- A registry of a root that has told of nothing but changes since something was told. -/
structure Tells (root : Path) (told : List Notification) (r : Registry σ) : Prop where
  root_eq : r.root = root
  changes : ∃ cs : List Change, r.notifications = told ++ cs.map .changed

namespace Tells

variable {r r' : Registry σ}

theorem refl (r : Registry σ) : r.Tells r.root r.notifications :=
  ⟨rfl, [], (List.append_nil _).symm⟩

theorem of_eq (h : r.Tells root told) (hroot : r'.root = r.root)
    (hn : r'.notifications = r.notifications) : r'.Tells root told :=
  ⟨hroot.trans h.root_eq, by rw [hn]; exact h.changes⟩

/-- An action that is no notification is not told. -/
theorem record (h : r.Tells root told) {a : Action} (ha : a.notification? = none) :
    (r.record a).Tells root told :=
  h.of_eq rfl (by rw [notifications_record, ha]; exact List.append_nil _)

theorem watch (h : r.Tells root told) (p : Path) : (r.watch host p).2.Tells root told :=
  h.of_eq rfl (watch_notifications host r p)

theorem list (h : r.Tells root told) (p : Path) : (r.list host p).2.Tells root told :=
  h.of_eq rfl (list_notifications host r p)

theorem unwatch (h : r.Tells root told) (p : Path) : (r.unwatch host p).2.Tells root told :=
  h.of_eq rfl (unwatch_notifications host r p)

theorem register (h : r.Tells root told) (p : Path) : (r.register host p).2.Tells root told :=
  register_keeps (fun _ h => h.watch p) (fun _ h => h.list p) (fun _ h => h.unwatch p)
    (fun _ _ _ _ h _ => h.of_eq rfl rfl) h

theorem cancel (h : r.Tells root told) (p : Path) : (r.cancel host p).2.Tells root told := by
  unfold Registry.cancel
  split
  · exact h
  · next d _ =>
      have hdrop : Tells root told { r with directories := r.directories.erase p } :=
        h.of_eq rfl rfl
      exact hdrop.unwatch p

end Tells

end Registry

/-! ## Passes -/

namespace Engine

/-- The steps of a pass tell of changes. -/
theorem upkeep_tells (host : Host σ) (root : Path) (told : List Notification) :
    PassUpkeep host (fun s => s.registry.Tells root told) (fun s => s.registry.Tells root told)
      (fun _ => True) := by
  have hsteps : Upkeep host (fun s : Engine σ => s.registry.Tells root told) (fun _ => True)
      (fun _ => True) (fun _ _ _ => True) :=
    { emit := fun s kind p f hs _ => by
        unfold Engine.emit
        split
        · exact hs
        · next q hq =>
            obtain ⟨cs, hcs⟩ := hs.changes
            refine ⟨hs.root_eq, cs ++ [⟨kind, q, f⟩], ?_⟩
            rw [Registry.notifications_record, hcs, List.map_append, List.append_assoc]
            rfl
      unmark := fun s p hs _ _ => hs
      cancel := fun s p d hs _ _ => hs.cancel p
      left := fun _ _ _ _ _ _ _ _ _ => ⟨trivial, fun _ => trivial⟩
      register := fun s p hs _ => hs.register p
      entered := fun _ _ _ _ _ _ _ _ _ _ _ => ⟨trivial, fun _ => trivial⟩ }
  exact
    { toUpkeep := hsteps
      weaken := fun s hs => hs
      began := fun s p hs => hs.record rfl
      listed := fun s p hs _ => hs.list p
      counted := fun s p n hs _ => hs
      observed := fun _ _ _ _ _ _ _ _ _ => trivial
      put := fun s p d l hs _ _ _ => hs.of_eq rfl rfl
      rearmed := fun s p d hs _ _ => by
        have hr : (s.registry.rearm host p).2.Tells root told := (hs.unwatch p).watch p
        exact ⟨fun _ => hr, fun e _ => ⟨hr, fun _ => hsteps.retire trivial hr⟩⟩ }

end Engine

/-! ## Workers -/

namespace Worker

/-- A worker of a root that has told of nothing but changes since something was told, unless it has
ended with a failure, of which it has told last. -/
def Tells (root : Path) (told : List Notification) (w : Worker σ) : Prop :=
  w.registry.Tells root told ∨
    w.isRunning = false ∧ w.registry.root = root ∧
      ∃ (cs : List Change) (e : Error),
        w.registry.notifications = told ++ cs.map .changed ++ [.failed root e]

variable {w v : Worker σ}

/-- Marking directories leaves the registry as it is. -/
theorem registry_foldl {f : Worker σ → Path → Worker σ}
    (hf : ∀ w p, (f w p).registry = w.registry) (ps : List Path) (w : Worker σ) :
    (ps.foldl f w).registry = w.registry :=
  foldl_keeps (I := fun v : Worker σ => v.registry = w.registry)
    (fun p _ _ hv => (hf _ p).trans hv) rfl

theorem registry_handle (w : Worker σ) (e : NativeEvent) :
    (w.handle e).2.registry = w.registry := by
  cases e with
  | changed paths => exact registry_foldl registry_markChanged paths _
  | removed paths => exact registry_foldl registry_markRemoved paths _
  | overflow => exact congrArg Engine.registry (engine_markAll _)
  | failed message => rfl

theorem tells_flush (h : w.registry.Tells root told) (host : Host σ) :
    (w.flush host).2.registry.Tells root told := by
  rw [registry, (flush_eq w host).2]
  exact ((Engine.upkeep_tells host root told).inTurn (fun _ _ _ _ _ => trivial) h).2

theorem tells_answer (h : w.registry.Tells root told) (host : Host σ) (c : Command) :
    (w.answer host c).2.2.registry.Tells root told := by
  cases c with
  | stats | snapshot => exact h
  | rescan =>
      have hmarked : w.markAll.registry.Tells root told := by
        rw [registry, engine_markAll]
        exact h
      exact tells_flush hmarked host

/-- A failure is told last, and ends the worker. -/
theorem tells_conclude (h : v.registry.Tells root told) (result : Except Error Unit) :
    (v.conclude result).Tells root told := by
  cases result with
  | ok => exact .inl h
  | error e =>
      obtain ⟨hroot, cs, hcs⟩ := h
      refine .inr ⟨rfl, hroot, cs, e, ?_⟩
      rw [← hcs, ← hroot]
      exact Registry.notifications_record _ _

namespace Tells

theorem refl (w : Worker σ) : w.Tells w.registry.root w.registry.notifications :=
  .inl (Registry.Tells.refl w.registry)

/-- What was told stays told. -/
theorem isPrefix (h : w.Tells root told) : told <+: w.registry.notifications := by
  rcases h with ⟨-, cs, hcs⟩ | ⟨-, -, cs, e, hcs⟩ <;> rw [hcs]
  · exact List.prefix_append _ _
  · rw [List.append_assoc]
    exact List.prefix_append _ _

theorem step (h : w.Tells root told) (host : Host σ) : (w.step host).2.Tells root told := by
  rcases h with h | h
  · have hs := steps_step host w
    generalize w.step host = step at hs
    cases hs with
    | ended | cancelled | blocked => exact .inl h
    | @answered c rest reply result v running commands answer =>
        have ha := tells_answer (w := { w.awake with commands := rest }) h host c
        rw [answer] at ha
        exact tells_conclude ha _
    | flushed running flush =>
        have hf := tells_flush (w := w.awake) h host
        rw [flush] at hf
        exact tells_conclude hf _
    | @closed queue reception => exact tells_conclude (v := { w.awake with queue }) h _
    | @received e queue result v running reception handle =>
        have hr := registry_handle { w.awake with queue } e
        rw [handle] at hr
        exact tells_conclude (h.of_eq (congrArg Registry.root hr)
          (congrArg Registry.notifications hr)) _
  · rw [step_of_ended h.1]
    exact .inr h

/-- A worker that breaks off has told a part of what the step would have told. -/
theorem breakOff (h : w.Tells root told) (host : Host σ) (machine : σ) {journal : List Action}
    (before : w.registry.journal <+: journal)
    (after : journal <+: (w.step host).2.registry.journal) :
    (w.breakOff machine journal).Tells root told := by
  have hroot : (w.breakOff machine journal).registry.root = root := by
    rcases h with h | h
    · exact h.root_eq
    · exact h.2.1
  obtain ⟨news, hnews⟩ := h.isPrefix.trans (before.filterMap Action.notification?)
  have hpart : told ++ news <+: (w.step host).2.registry.notifications :=
    hnews ▸ after.filterMap Action.notification?
  have hbroken : (w.breakOff machine journal).registry.notifications = told ++ news := hnews.symm
  have hchanges : ∀ cs : List Change, news <+: cs.map .changed →
      (w.breakOff machine journal).Tells root told := by
    intro cs hcs
    refine .inl ⟨hroot, cs.take news.length, ?_⟩
    rw [hbroken, List.map_take]
    exact congrArg (told ++ ·) (List.prefix_iff_eq_take.1 hcs)
  rcases h.step host with ⟨-, cs, hcs⟩ | ⟨-, -, cs, e, hcs⟩ <;> rw [hcs] at hpart
  · exact hchanges cs ((List.prefix_append_right_inj told).1 hpart)
  · rw [List.append_assoc, List.prefix_append_right_inj] at hpart
    rcases List.prefix_concat_iff.1 hpart with heq | hshort
    · refine .inr ⟨rfl, hroot, cs, e, ?_⟩
      rw [hbroken, heq, List.append_assoc]
    · exact hchanges cs hshort

/-- What happens around a worker is not told. -/
theorem outside (h : w.Tells root told) (change : w.Outside v) : v.Tells root told := by
  cases change with
  | deliver | addSink | dropSink | ask | cancel => exact h
  | change machine => exact h.imp (fun h => h.of_eq rfl rfl) id

/-- A run in one go is made of steps. -/
theorem run (h : w.Tells root told) (host : Host σ) : (w.run host).2.Tells root told := by
  fun_induction Worker.run host w with
  | case1 w v hv =>
      have hstep := h.step host
      rwa [hv] at hstep
  | case2 w a v hv rest u hu ih =>
      have hstep := h.step host
      rw [hv] at hstep
      have hrest := ih hstep
      rwa [hu] at hrest

theorem ask (h : w.Tells root told) (host : Host σ) (c : Command) :
    (w.ask host c).2.Tells root told :=
  run (h.outside (.ask c)) host

end Tells

end Worker

end DirWatch
