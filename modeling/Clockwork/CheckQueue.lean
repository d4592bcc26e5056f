import Clockwork.Library.Runs
import Mathlib.Data.Finset.Basic

namespace Clockwork.CheckQueue

open Runs

structure Status where
  enabled : Bool
  auto : Bool
  active : Bool
  collection : Bool
  error : Bool
  needsCheck : ℕ
  actions : ℕ
  mail : ℕ
  hasWork : Bool
  pending : Bool
  runnable : Bool
deriving DecidableEq, Repr

namespace Status

variable (s : Status)

def busy : Bool := s.actions ≠ 0 || s.mail ≠ 0

def activate : Status := { s with runnable := true }

def suspend : Status := { s with runnable := false }

/-- `setNeedsCheck`; a list or reference then asks the machines that depend on it. -/
def setNeedsCheck : Status :=
  if s.enabled then
    { s with
      needsCheck := s.needsCheck + 1
      pending := s.pending || (!s.busy && s.auto) }.activate
  else s

def enqueueAction : Status :=
  { s with actions := s.actions + 1, hasWork := true }.activate

def clearAllActions : Status := { s with actions := 0, mail := 0, hasWork := false }

end Status

/-- What actions, handlers, timers and other threads do to a machine. -/
inductive Event where
  | setNeedsCheck
  | enqueueAction
  /-- `start` of an action that is the executing one already, or another one -/
  | start (executing : Bool)
  | stop (n : ℕ)
  | release (n : ℕ)
  | enqueue
  | handle
  | enable
  | disable
  /-- the two forms of `resume`; the one with a state clears the actions -/
  | resume (clear : Bool)
  | activate
  | setWork (hasWork : Bool)
  | setError (error : Bool)
deriving DecidableEq, Repr

namespace Event

def apply (s : Status) : Event → Status
  | .setNeedsCheck => s.setNeedsCheck
  | .enqueueAction => s.enqueueAction
  | .start true => s.setNeedsCheck
  | .start false => { s with actions := s.actions + 1 }.activate
  | .stop n => { s with actions := s.actions - n }.setNeedsCheck
  | .release n => { s with actions := s.actions - n }
  | .enqueue => { s with mail := s.mail + 1, hasWork := true }.setNeedsCheck
  | .handle =>
    if s.enabled then { s with mail := s.mail - 1 }.enqueueAction
    else { s with mail := s.mail - 1 }
  | .enable =>
    if s.enabled && !s.collection then s.setNeedsCheck
    else { s with enabled := true, error := false }.clearAllActions.setNeedsCheck
  | .disable => { s with enabled := false }
  | .resume clear =>
    if s.enabled then s
    else if clear then { s with enabled := true, error := false }.clearAllActions.setNeedsCheck
    else { s with enabled := true, error := false }.setNeedsCheck
  | .activate => s.activate
  | .setWork hasWork => { s with hasWork }
  | .setError error => { s with error }

def Possible (s : Status) : Event → Prop
  | .handle => s.mail ≠ 0
  | _ => True

end Event

/-- Where the loop is: between two passes, in `processAll` with the machines that are still to
come, in `idle` of a machine, in `checkStableStates`, or in `setStableState` of a machine, which
may have enqueued a change already. -/
inductive Phase (M : Type) where
  | idle
  | polling (todo : Finset M)
  | idling (m : M) (todo : Finset M)
  | checking (todo : Finset M)
  | settling (m : M) (changed : Bool) (todo : Finset M)

structure World (M : Type) where
  status : M → Status
  pendingEvents : Bool
  phase : Phase M

inductive Label (M : Type) where
  | event (m : M) (e : Event)
  | setEvents (pendingEvents : Bool)
  | poll (todo : Finset M)
  | turn (m : M) (noTrigger : Bool)
  | beginIdle (m : M)
  | endIdle (m : M) (incomplete noTrigger : Bool)
  | select (todo : Finset M)
  | pass (m : M)
  | settle (m : M)
  | change (m : M)
  | endSettle (m : M) (changed : Bool)
  | finish

namespace Status

def visited (s : Status) : Bool := s.active || s.busy

def returns (s : Status) : Bool := s.error || !s.enabled || (!s.active && s.actions = 0)

def endIdle (s : Status) : Status :=
  if s.busy then (if s.hasWork then s.activate else s) else { s with hasWork := false }

def afterTurn (noTrigger : Bool) (s : Status) : Status :=
  if !s.hasWork && s.actions = 0 then
    if s.active then { s with pending := true }.activate else s
  else if s.actions ≠ 0 && noTrigger then s.activate
  else s

def passed (s : Status) : Status :=
  if !s.busy then { s with pending := false }
  else if s.enabled then { s with pending := false }.activate
  else s

def checked (s : Status) : Bool := !s.busy && s.enabled && s.auto

end Status

variable {M : Type} [DecidableEq M]

def World.move (w : World M) (m : M) (f : Status → Status) (phase : Phase M) : World M :=
  { w with status := Function.update w.status m (f (w.status m)), phase }

def World.polled (w : World M) (m : M) : Bool :=
  (w.status m).runnable && ((w.status m).busy || w.pendingEvents)

def World.selected (w : World M) (m : M) : Bool :=
  (w.status m).runnable && (w.status m).actions = 0 && !w.pendingEvents && (w.status m).pending

inductive Step : World M → Label M → World M → Prop
  | event {w : World M} (m : M) (e : Event) (h : e.Possible (w.status m)) :
      Step w (.event m e) (w.move m e.apply w.phase)
  | setEvents (w : World M) (pendingEvents : Bool) :
      Step w (.setEvents pendingEvents) { w with pendingEvents }
  | poll {w : World M} {todo : Finset M} (hphase : w.phase = .idle)
      (h : ∀ m, m ∈ todo ↔ w.polled m = true) :
      Step w (.poll todo) { w with
        phase := .polling todo
        status := fun m =>
          if m ∈ todo ∧ (w.status m).pending = false then (w.status m).suspend else w.status m }
  | turn {w : World M} {m : M} {todo : Finset M} (hphase : w.phase = .polling todo)
      (hm : m ∈ todo) (h : (w.status m).visited = false ∨ (w.status m).returns = true)
      (noTrigger : Bool) :
      Step w (.turn m noTrigger)
        (w.move m (fun s => (if s.visited then s.suspend else s).afterTurn noTrigger)
          (.polling (todo.erase m)))
  | beginIdle {w : World M} {m : M} {todo : Finset M} (hphase : w.phase = .polling todo)
      (hm : m ∈ todo) (hvisited : (w.status m).visited = true)
      (hreturns : (w.status m).returns = false) :
      Step w (.beginIdle m) (w.move m Status.suspend (.idling m todo))
  | endIdle {w : World M} {m : M} {todo : Finset M} (hphase : w.phase = .idling m todo)
      {incomplete : Bool} (h : incomplete = true → (w.status m).actions ≠ 0) (noTrigger : Bool) :
      Step w (.endIdle m incomplete noTrigger)
        (w.move m (fun s => (if incomplete then s else s.endIdle).afterTurn noTrigger)
          (.polling (todo.erase m)))
  | select {w : World M} {todo : Finset M} (hphase : w.phase = .polling ∅)
      (h : ∀ m, m ∈ todo ↔ w.selected m = true) :
      Step w (.select todo) { w with
        phase := .checking todo
        status := fun m => if m ∈ todo then (w.status m).suspend else w.status m }
  | pass {w : World M} {m : M} {todo : Finset M} (hphase : w.phase = .checking todo)
      (hm : m ∈ todo) (h : (w.status m).checked = false) :
      Step w (.pass m) (w.move m Status.passed (.checking (todo.erase m)))
  | settle {w : World M} {m : M} {todo : Finset M} (hphase : w.phase = .checking todo)
      (hm : m ∈ todo) (h : (w.status m).checked = true) :
      Step w (.settle m)
        (w.move m (fun s => { s with needsCheck := 0 }.suspend) (.settling m false todo))
  | change {w : World M} {m : M} {todo : Finset M} (hphase : w.phase = .settling m false todo) :
      Step w (.change m) (w.move m Status.enqueueAction (.settling m true todo))
  | endSettle {w : World M} {m : M} {changed : Bool} {todo : Finset M}
      (hphase : w.phase = .settling m changed todo) :
      Step w (.endSettle m changed)
        (w.move m (fun s => { s with pending := changed && s.pending })
          (.checking (todo.erase m)))
  | finish {w : World M} (hphase : w.phase = .checking ∅) :
      Step w .finish { w with phase := .idle }

structure Status.Asked (s : Status) : Prop where
  enabled : s.enabled = true
  auto : s.auto = true
  needsCheck : s.needsCheck ≠ 0
  idle : s.busy = false

def Status.queued (s : Status) : Bool := s.runnable && s.pending

def Status.Kept (s : Status) : Prop := s.Asked → s.queued = true

def Phase.Holds (m : M) : Phase M → Prop
  | .idle => False
  | .polling todo => m ∈ todo
  | .idling x todo => m = x ∨ m ∈ todo
  | .checking todo => m ∈ todo
  | .settling x _ todo => m = x ∨ m ∈ todo

def World.Kept (w : World M) (m : M) : Prop := w.phase.Holds m ∨ (w.status m).Kept

/-- What loses the request of a machine: a check that ends without a change after the machine has
been asked again, a turn of a machine that is not active or has an error, and the release of
the last action. -/
def World.Loses (w : World M) (l : Label M) (m : M) : Prop :=
  match l with
  | .event x (.release n) => x = m ∧ ¬w.phase.Holds m ∧
      { w.status m with actions := (w.status m).actions - n }.Asked ∧
      (w.status m).queued = false
  | .turn x _ => x = m ∧ (w.status m).Asked ∧
      if (w.status m).active then (w.status m).hasWork = true else (w.status m).queued = false
  | .endIdle x _ _ => x = m ∧ (w.status m).Asked ∧ (w.status m).active = false ∧
      (w.status m).queued = false
  | .endSettle x changed => x = m ∧ (w.status m).Asked ∧
      (changed = true → (w.status m).queued = false)
  | _ => False

def Event.Restores (s : Status) : Event → Prop
  | .setNeedsCheck | .enqueueAction | .start _ | .stop _ | .enqueue | .handle | .enable
  | .disable => True
  | .activate => s.pending = true
  | .release _ | .resume _ | .setWork _ | .setError _ => False

/-- What restores a request that is lost: the machine is asked again, gets something else to do or
is disabled, or a pass begins with it because there are pending events. -/
def World.Restores (w : World M) (l : Label M) (m : M) : Prop :=
  match l with
  | .event x e => x = m ∧ e.Restores (w.status m)
  | .poll _ => w.polled m = true
  | _ => False

namespace Status

theorem Asked.congr {s t : Status} (h : s.Asked) (hena : t.enabled = s.enabled)
    (haut : t.auto = s.auto) (hnee : t.needsCheck = s.needsCheck) (hbus : t.busy = s.busy) :
    t.Asked := ⟨hena ▸ h.enabled, haut ▸ h.auto, hnee ▸ h.needsCheck, hbus ▸ h.idle⟩

theorem asked_congr {s t : Status} (hena : t.enabled = s.enabled) (haut : t.auto = s.auto)
    (hnee : t.needsCheck = s.needsCheck) (hbus : t.busy = s.busy) : t.Asked ↔ s.Asked :=
  ⟨fun h => h.congr hena.symm haut.symm hnee.symm hbus.symm, fun h => h.congr hena haut hnee hbus⟩

variable {s : Status}

theorem Asked.actions (h : s.Asked) : s.actions = 0 := by
  have hbus := h.idle
  simp only [busy, Bool.or_eq_false_iff, decide_eq_false_iff_not, not_not] at hbus
  exact hbus.1

theorem kept_of_not_enabled (h : s.enabled = false) : s.Kept := by
  intro hask
  rw [hask.enabled] at h
  cases h

theorem kept_of_busy (h : s.busy = true) : s.Kept := by
  intro hask
  rw [hask.idle] at h
  cases h

theorem kept_setNeedsCheck (s : Status) : s.setNeedsCheck.Kept := by
  unfold setNeedsCheck
  split_ifs with hena
  · intro hask
    have hbus : s.busy = false := hask.idle
    have haut : s.auto = true := hask.auto
    simp [queued, activate, hbus, haut]
  · exact kept_of_not_enabled (by simpa using hena)

theorem kept_enqueueAction (s : Status) : s.enqueueAction.Kept :=
  kept_of_busy (by simp [enqueueAction, activate, busy])

end Status

variable {e : Event} {s : Status} {t w : World M} {f : Status → Status} {phase : Phase M} {x : M}
  {todo : Finset M}

open Status

theorem Event.kept_of_restores (h : e.Restores s) : (e.apply s).Kept := by
  cases e with
  | setNeedsCheck => exact s.kept_setNeedsCheck
  | enqueueAction => exact s.kept_enqueueAction
  | start executing =>
    cases executing with
    | true => exact s.kept_setNeedsCheck
    | false => exact Status.kept_of_busy (by simp [apply, Status.activate, Status.busy])
  | stop n => exact Status.kept_setNeedsCheck _
  | enqueue => exact Status.kept_setNeedsCheck _
  | handle =>
    rw [apply]
    split_ifs with hena
    · exact Status.kept_enqueueAction _
    · exact Status.kept_of_not_enabled (by simpa using hena)
  | enable =>
    rw [apply]
    split_ifs
    · exact s.kept_setNeedsCheck
    · exact Status.kept_setNeedsCheck _
  | disable => exact Status.kept_of_not_enabled rfl
  | activate =>
    intro _
    rw [Event.Restores] at h
    simp [apply, Status.activate, Status.queued, h]
  | release n => cases h
  | resume clear => cases h
  | setWork _ | setError _ => cases h

theorem Status.not_kept_iff : ¬s.Kept ↔ s.Asked ∧ s.queued = false := by
  unfold Kept
  rw [Classical.not_imp, Bool.not_eq_true]

theorem Event.kept_apply (hs : s.Kept) (he : ∀ n, e ≠ .release n) : (e.apply s).Kept := by
  by_cases hres : e.Restores s
  · exact kept_of_restores hres
  · intro hask
    cases e with
    | release n => exact absurd rfl (he n)
    | resume clear =>
      rw [apply] at hask ⊢
      split_ifs at hask ⊢
      · exact hs hask
      · exact Status.kept_setNeedsCheck _ hask
      · exact Status.kept_setNeedsCheck _ hask
    | activate =>
      have hque := hs (hask.congr rfl rfl rfl rfl)
      exact absurd (Bool.and_eq_true_iff.mp hque).2 hres
    | setWork _ | setError _ => exact hs (hask.congr rfl rfl rfl rfl)
    | _ => exact absurd trivial hres

theorem Event.kept_apply_iff (hs : ¬s.Kept) (e : Event) : (e.apply s).Kept ↔ e.Restores s := by
  refine ⟨fun h => ?_, kept_of_restores⟩
  obtain ⟨hask, hque⟩ := not_kept_iff.mp hs
  have hlos {t : Status} (ht : t.Kept) (hask' : t.Asked) (heq : t.queued = s.queued) :
      False := by
    rw [← heq, ht hask'] at hque
    cases hque
  cases e with
  | release n =>
    refine hlos h (hask.congr rfl rfl rfl ?_) rfl
    simp [busy, apply, hask.actions]
  | resume clear =>
    rw [apply, if_pos hask.enabled] at h
    exact hlos h hask rfl
  | activate =>
    have hque' := h (hask.congr rfl rfl rfl rfl)
    exact (Bool.and_eq_true_iff.mp hque').2
  | setWork _ | setError _ => exact hlos h (hask.congr rfl rfl rfl rfl) rfl
  | _ => trivial

namespace Status

theorem exists_afterTurn (noTrigger : Bool) (s : Status) :
    ∃ pending runnable, s.afterTurn noTrigger = { s with pending, runnable } := by
  unfold afterTurn
  split_ifs
  · exact ⟨true, true, rfl⟩
  · exact ⟨s.pending, s.runnable, rfl⟩
  · exact ⟨s.pending, true, rfl⟩
  · exact ⟨s.pending, s.runnable, rfl⟩

variable {s : Status}

theorem asked_afterTurn_iff {noTrigger : Bool} : (s.afterTurn noTrigger).Asked ↔ s.Asked := by
  obtain ⟨pending, runnable, heq⟩ := exists_afterTurn noTrigger s
  rw [heq]
  exact asked_congr rfl rfl rfl rfl

theorem queued_afterTurn {noTrigger : Bool} (h : s.actions = 0) :
    (s.afterTurn noTrigger).queued = (s.active && !s.hasWork || s.queued) := by
  unfold afterTurn
  cases hwor : s.hasWork <;> cases hact : s.active <;> simp [*, queued, activate]

theorem not_kept_turn_iff (noTrigger : Bool) :
    ¬((if s.visited then s.suspend else s).afterTurn noTrigger).Kept ↔
      s.Asked ∧ if s.active then s.hasWork = true else s.queued = false := by
  have hask : (if s.visited then s.suspend else s).Asked ↔ s.Asked := by
    split_ifs
    · exact asked_congr rfl rfl rfl rfl
    · exact Iff.rfl
  rw [not_kept_iff, asked_afterTurn_iff, hask]
  apply and_congr_right
  intro h
  have hvis : s.visited = s.active := by simp [visited, h.idle]
  rw [hvis]
  cases hact : s.active with
  | true =>
    rw [if_pos rfl, queued_afterTurn (by exact h.actions)]
    simp [suspend, queued, hact]
  | false =>
    rw [if_neg Bool.false_ne_true, queued_afterTurn h.actions]
    simp [hact]

theorem not_kept_endIdle_iff {incomplete : Bool} (hinc : incomplete = true → s.actions ≠ 0)
    (noTrigger : Bool) : ¬((if incomplete then s else s.endIdle).afterTurn noTrigger).Kept ↔
      s.Asked ∧ s.active = false ∧ s.queued = false := by
  have hask : (if incomplete then s else s.endIdle).Asked ↔ s.Asked := by
    unfold endIdle
    split_ifs
    · exact Iff.rfl
    · exact asked_congr rfl rfl rfl rfl
    · exact Iff.rfl
    · exact asked_congr rfl rfl rfl rfl
  rw [not_kept_iff, asked_afterTurn_iff, hask]
  apply and_congr_right
  intro h
  rw [if_neg (fun htru => hinc htru h.actions), endIdle,
    if_neg (by rw [h.idle]; exact Bool.false_ne_true), queued_afterTurn (by exact h.actions)]
  cases s.active <;> simp [queued]

theorem kept_passed (h : s.checked = false) : s.passed.Kept := by
  intro hask
  have hs : s.Asked := by
    unfold passed at hask
    split_ifs at hask
    · exact hask.congr rfl rfl rfl rfl
    · exact hask.congr rfl rfl rfl rfl
    · exact hask
  simp [checked, hs.enabled, hs.auto, hs.idle] at h

theorem not_kept_endSettle_iff (changed : Bool) : ¬{ s with pending := changed && s.pending }.Kept ↔
      s.Asked ∧ (changed = true → s.queued = false) := by
  rw [not_kept_iff]
  refine and_congr (asked_congr rfl rfl rfl rfl) ?_
  cases changed <;> simp [queued]

end Status

/-- A step loses the request of a machine or restores it under these conditions only. -/
def World.Turns (w t : World M) (m : M) (loses restores : Prop) : Prop :=
  (w.Kept m → (¬t.Kept m ↔ loses)) ∧ (¬w.Kept m → (t.Kept m ↔ restores))

omit [DecidableEq M] in
theorem kept_stay (hpha : ∀ m, t.phase.Holds m ↔ w.phase.Holds m)
    (hoth : ∀ m, ¬w.phase.Holds m → t.status m = w.status m) (m : M) : w.Turns t m False False := by
  have hsam : t.Kept m ↔ w.Kept m := by
    unfold World.Kept
    rw [hpha]
    by_cases hm : w.phase.Holds m
    · exact iff_of_true (.inl hm) (.inl hm)
    · rw [hoth m hm]
  rw [World.Turns, hsam]
  simp

theorem World.move_of_ne {m x : M} (h : m ≠ x) : (w.move x f phase).status m = w.status m :=
  Function.update_of_ne h _ _

theorem World.move_self (w : World M) (f : Status → Status) (phase : Phase M) (m : M) :
    (w.move m f phase).status m = f (w.status m) := Function.update_self m _ _

variable {p : Phase M} (hp : w.phase = p)

include hp

theorem kept_hold (hx : p.Holds x) (hpha : ∀ m, phase.Holds m ↔ p.Holds m) (m : M) :
    w.Turns (w.move x f phase) m False False := by
  subst hp
  apply kept_stay hpha
  intro m hm
  apply World.move_of_ne
  rintro rfl
  exact hm hx

theorem kept_leave (lost : M → Prop) (hx : p.Holds x)
    (hpha : ∀ m, phase.Holds m ↔ m ≠ x ∧ p.Holds m)
    (hsel : ¬(f (w.status x)).Kept ↔ lost x) (m : M) :
    w.Turns (w.move x f phase) m (x = m ∧ lost m) False := by
  subst hp
  have hhol : (w.move x f phase).phase.Holds m ↔ m ≠ x ∧ w.phase.Holds m := hpha m
  by_cases hm : m = x
  · subst hm
    refine ⟨fun _ => ?_, fun hlos => absurd (.inl hx) hlos⟩
    rw [World.Kept, hhol, World.move_self, ← hsel]
    simp
  · have hsam : (w.move x f phase).Kept m ↔ w.Kept m := by
      rw [World.Kept, World.Kept, hhol, World.move_of_ne hm]
      simp [hm]
    rw [World.Turns, hsam]
    simp [Ne.symm hm]

omit hp

theorem kept_event (m : M) : w.Turns (w.move x e.apply w.phase) m (w.Loses (.event x e) m)
    (w.Restores (.event x e) m) := by
  by_cases hx : x = m
  · subst hx
    unfold World.Turns World.Kept
    rw [World.move_self]
    refine ⟨fun h => ?_, fun h => ?_⟩
    · by_cases hrel : ∃ n, e = .release n
      · obtain ⟨n, rfl⟩ := hrel
        rw [not_or, not_kept_iff]
        exact (and_iff_right rfl).symm
      · have hfal : ¬w.Loses (.event x e) x := by
          intro hlos
          cases e with
          | release n => exact hrel ⟨n, rfl⟩
          | _ => exact hlos
        refine iff_of_false (not_not.mpr ?_) hfal
        apply h.imp_right
        intro hs
        apply Event.kept_apply hs
        intro n hn
        exact hrel ⟨n, hn⟩
    · rw [not_or] at h
      have hpha : ¬(w.move x e.apply w.phase).phase.Holds x := h.1
      rw [or_iff_right hpha, Event.kept_apply_iff h.2]
      exact (and_iff_right rfl).symm
  · have hsam : (w.move x e.apply w.phase).Kept m ↔ w.Kept m := by
      unfold World.Kept
      rw [World.move_of_ne (Ne.symm hx)]
      exact Iff.rfl
    have hlos : ¬w.Loses (.event x e) m := by
      intro hlos
      cases e with
      | release n => exact hx hlos.1
      | _ => exact hlos
    have hres : ¬w.Restores (.event x e) m := fun hres => hx hres.1
    rw [World.Turns, hsam]
    exact ⟨fun h => iff_of_false (not_not.mpr h) hlos, fun h => iff_of_false h hres⟩

theorem kept_poll (hpha : w.phase = .idle) (htod : ∀ m, m ∈ todo ↔ w.polled m = true)
    (ht : t.phase = .polling todo) (hoth : ∀ m, m ∉ todo → t.status m = w.status m) (m : M) :
    w.Turns t m False (w.polled m = true) := by
  unfold World.Turns World.Kept
  rw [hpha, ht, ← htod]
  show (False ∨ _ → (¬(m ∈ todo ∨ _) ↔ False)) ∧ (¬(False ∨ _) → (m ∈ todo ∨ _ ↔ m ∈ todo))
  by_cases hm : m ∈ todo
  · simp [hm]
  · rw [hoth m hm]
    simp [hm]

theorem kept_select (hpha : w.phase = .polling ∅) (htod : ∀ m, m ∈ todo ↔ w.selected m = true)
    (ht : t.phase = .checking todo) (hoth : ∀ m, m ∉ todo → t.status m = w.status m) (m : M) :
    w.Turns t m False False := by
  unfold World.Turns World.Kept
  rw [hpha, ht]
  show (m ∈ ∅ ∨ _ → (¬(m ∈ todo ∨ _) ↔ False)) ∧ (¬(m ∈ ∅ ∨ _) → (m ∈ todo ∨ _ ↔ False))
  by_cases hm : m ∈ todo
  · have hkep : (w.status m).Kept := by
      intro _
      have hsel := (htod m).mp hm
      simp only [World.selected, Bool.and_eq_true] at hsel
      simp [queued, hsel.1.1.1, hsel.2]
    simp [hm, hkep]
  · rw [hoth m hm]
    simp [hm]

omit [DecidableEq M] in
theorem eq_or_mem_iff (hx : x ∈ todo) (m : M) : m = x ∨ m ∈ todo ↔ m ∈ todo :=
  or_iff_right_of_imp fun hm => hm ▸ hx

theorem mem_erase_iff (m : M) : m ∈ todo.erase x ↔ m ≠ x ∧ (m = x ∨ m ∈ todo) := by
  rw [Finset.mem_erase]
  exact and_congr_right fun hm => (or_iff_right hm).symm

theorem kept_step {l : Label M} (h : Step w l t) (m : M) :
    w.Turns t m (w.Loses l m) (w.Restores l m) := by
  cases h with
  | event x e _ => exact kept_event m
  | setEvents pendingEvents => exact kept_stay (fun _ => Iff.rfl) (fun _ _ => rfl) m
  | @poll todo hpha htod =>
    refine kept_poll hpha htod rfl (fun m hm => ?_) m
    exact if_neg fun h => hm h.1
  | @turn x todo hpha hx _ noTrigger =>
    apply kept_leave hpha
    · exact hx
    · exact fun m => Finset.mem_erase
    · exact not_kept_turn_iff noTrigger
  | @beginIdle x todo hpha hx _ _ =>
    apply kept_hold hpha
    · exact hx
    · exact eq_or_mem_iff hx
  | @endIdle x todo hpha incomplete hinc noTrigger =>
    apply kept_leave hpha
    · exact .inl rfl
    · exact mem_erase_iff
    · exact not_kept_endIdle_iff hinc noTrigger
  | @select todo hpha htod =>
    refine kept_select hpha htod rfl (fun m hm => ?_) m
    exact if_neg hm
  | @pass x todo hpha hx hche =>
    have hkep : ¬(w.status x).passed.Kept ↔ False :=
      iff_of_false (not_not.mpr (kept_passed hche)) id
    have hera (m : M) : (Phase.checking (todo.erase x)).Holds m ↔ _ := Finset.mem_erase
    have hlea := kept_leave hpha (fun _ => False) hx hera hkep m
    simp only [and_false] at hlea
    exact hlea
  | @settle x todo hpha hx hche =>
    apply kept_hold hpha
    · exact hx
    · exact eq_or_mem_iff hx
  | @change x todo hpha => exact kept_hold hpha (.inl rfl) (fun m => Iff.rfl) m
  | @endSettle x changed todo hpha =>
    apply kept_leave hpha
    · exact .inl rfl
    · exact mem_erase_iff
    · exact not_kept_endSettle_iff changed
  | finish hpha =>
    apply kept_stay
    · rw [hpha]
      simp [Phase.Holds]
    · intro m _
      rfl

/-- The request of the machine is lost, at first or by a step, and not restored to the end. -/
def Forgotten (w : World M) (ls : List (Label M)) (t : World M) (m : M) : Prop :=
  ¬w.Kept m ∧ Run (Guarded Step fun w l _ => ¬w.Restores l m) w ls t ∨
    ∃ before l after u v, ls = before ++ l :: after ∧ Run Step w before u ∧ Step u l v ∧
      u.Kept m ∧ u.Loses l m ∧ Run (Guarded Step fun w l _ => ¬w.Restores l m) v after t

/-- Between two passes every machine that is to be checked is queued exactly if no request has
been lost for good. -/
theorem kept_iff (w t : World M) (ls : List (Label M)) (run : Run Step w ls t)
    (hidle : t.phase = .idle) : (∀ m, (t.status m).Kept) ↔ ∀ m, ¬Forgotten w ls t m := by
  apply forall_congr'
  intro m
  have hkep : t.Kept m ↔ (t.status m).Kept := by
    rw [World.Kept, hidle]
    exact or_iff_right id
  have hlos (w : World M) (l : Label M) (t : World M) (h : Step w l t) :
      w.Kept m → (¬t.Kept m ↔ w.Loses l m) := (kept_step h m).1
  have hres (w : World M) (l : Label M) (t : World M) (h : Step w l t) :
      ¬w.Kept m → (t.Kept m ↔ w.Restores l m) := (kept_step h m).2
  rw [← hkep, Forgotten, ← Run.not_iff hlos hres run, not_not]

def newStatus : Status := ⟨false, true, true, false, false, 0, 0, 0, false, false, false⟩

def newWorld : World Unit := ⟨fun _ => newStatus, false, .idle⟩

/-- The machine is enabled and its stable state is checked once. -/
theorem enabled_kept :
    ∃ t : World Unit, Run Step newWorld [.event () .enable, .poll ∅, .select {()}, .settle (),
        .endSettle () false, .finish] t ∧ t.phase = .idle ∧
      ∀ m, ¬Forgotten newWorld [.event () .enable, .poll ∅, .select {()}, .settle (),
        .endSettle () false, .finish] t m := by
  have run : Run Step newWorld [.event () .enable, .poll ∅, .select {()}, .settle (),
      .endSettle () false, .finish] _ :=
    .cons (.event () .enable trivial) <| .cons (.poll rfl fun () => by decide) <|
      .cons (.select rfl fun () => by decide) <| .cons (.settle rfl (by decide) rfl) <|
      .cons (.endSettle rfl) <| .cons (.finish rfl) (.nil _)
  refine ⟨_, run, rfl, (kept_iff _ _ _ run rfl).mp ?_⟩
  intro m hask
  exact absurd rfl hask.needsCheck

/-- The machine is asked again while its stable state is checked. -/
theorem asked_again_forgotten :
    ∃ t : World Unit, Run Step newWorld [.event () .enable, .poll ∅, .select {()}, .settle (),
        .event () .setNeedsCheck, .endSettle () false, .finish] t ∧ t.phase = .idle ∧
      (t.status ()).Asked ∧ (t.status ()).pending = false := by
  refine ⟨_, .cons (.event () .enable trivial) <| .cons (.poll rfl fun () => by decide) <|
    .cons (.select rfl fun () => by decide) <| .cons (.settle rfl (by decide) rfl) <|
    .cons (.event () .setNeedsCheck trivial) <| .cons (.endSettle rfl) <|
    .cons (.finish rfl) (.nil _), rfl, ?_, rfl⟩
  exact ⟨rfl, rfl, by decide, rfl⟩

end Clockwork.CheckQueue
