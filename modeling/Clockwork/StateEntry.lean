import Clockwork.MachineCommand
import Clockwork.Value

namespace Clockwork.StateEntry

open MachineCommand (Status)

variable {F W : Type}

@[ext]
structure View (F : Type) where
  currentState : String
  stateProperty : Value F
  startTime : ℕ
deriving DecidableEq, Repr

/-- A machine in a world of others. Handlers can do anything to the world, so that they are
functions on it. -/
structure Machine (F W : Type) where
  name : String
  isShadow : Bool
  states : List String
  view : W → View F
  setView : W → View F → W
  view_setView : ∀ w v, view (setView w v) = v
  expectedAuthority : W → UInt64
  enabled : W → Bool
  getValue : W → String → Value F
  microsecs : W → ℕ
  receives : W → String → Bool
  handle : W → String → Status × W
  tell : W → String → W
  enterFunction : W → String → W

namespace Machine

variable (m : Machine F W) (w : W)

def execute (text : String) : Status × W :=
  if m.enabled w then m.handle w text else (.failed, w)

def leave (newState : String) : W :=
  let current := (m.view w).currentState
  if m.enabled w ∧ current ≠ newState ∧ current ≠ "undefined" then
    let w :=
      if m.receives w (current ++ "_leave") then (m.execute w (current ++ "_leave")).2 else w
    -- the handler may have changed the state
    m.tell w (m.name ++ "." ++ (m.view w).currentState ++ "_leave")
  else w

def change (newState : String) : W :=
  let w := m.setView w
    { m.view w with currentState := newState, startTime := m.microsecs w }
  let w := m.enterFunction w newState
  m.setView w { m.view w with stateProperty := .ofString newState }

def enterMessage (newState : String) : String := m.name ++ "." ++ newState ++ "_enter"

def enterState (newState : String) : Status × W :=
  let entered := m.execute (m.change (m.leave w newState) newState) (m.enterMessage newState)
  (entered.1, m.tell entered.2 (m.enterMessage newState))

def moveTo (newState : String) (resume : Bool) : Status × W :=
  if resume = false ∧ (m.view w).currentState = newState then (.complete, w)
  else m.enterState w newState

variable [Double F]

def setState (newState : String) (authority : UInt64) (resume : Bool) : Status × W :=
  if m.expectedAuthority w ≠ 0 ∧ authority = 0 then
    -- a shadow asks its channel for the change
    (if m.isShadow then .running else .failed, w)
  else if m.expectedAuthority w = 0 ∧ authority ≠ 0 then (.failed, w)
  else if resume = false ∧ (m.view w).currentState = newState then (.complete, w)
  else if newState ∈ m.states then m.enterState w newState
  else
    -- the name of a property that holds the name of a state
    let st := (m.getValue w newState).asString
    if st ∈ m.states then m.moveTo w st resume else (.failed, w)

/-- A change that fails leaves the state as it was. -/
def NoTrace (newState : String) (authority : UInt64) (resume : Bool) : Prop :=
  (m.setState w newState authority resume).1 = .failed →
    m.view (m.setState w newState authority resume).2 = m.view w

/-- The state that a call enters; none if it is refused or has nothing to do. -/
def entered (newState : String) (authority : UInt64) (resume : Bool) : Option String :=
  if m.expectedAuthority w ≠ 0 ∧ authority = 0 then none
  else if m.expectedAuthority w = 0 ∧ authority ≠ 0 then none
  else if resume = false ∧ (m.view w).currentState = newState then none
  else if newState ∈ m.states then some newState
  else
    let st := (m.getValue w newState).asString
    if st ∈ m.states then
      if resume = false ∧ (m.view w).currentState = st then none else some st
    else none

variable {authority : UInt64} {resume : Bool}

theorem setState_of_not_entered {w : W} {newState : String}
    (h : m.entered w newState authority resume = none) :
    (m.setState w newState authority resume).2 = w := by
  unfold entered at h
  unfold setState moveTo
  dsimp only at h ⊢
  split_ifs at h ⊢ <;> rfl

theorem setState_of_entered {w : W} {newState st : String}
    (h : m.entered w newState authority resume = some st) :
    m.setState w newState authority resume = m.enterState w st := by
  unfold entered at h
  unfold setState moveTo
  dsimp only at h ⊢
  split_ifs at h ⊢ <;> cases h <;> rfl

/-- The `_enter` message fails: the machine is disabled, or its handler fails. -/
def EnterFails (st : String) : Prop :=
  let w := m.change (m.leave w st) st
  m.enabled w = false ∨ (m.handle w (m.enterMessage st)).1 = .failed

omit [Double F] in
theorem enterState_failed_iff (st : String) :
    (m.enterState w st).1 = .failed ↔ m.EnterFails w st := by
  unfold enterState EnterFails execute
  split_ifs with hena
  · simp [hena]
  · simp [hena]

/-- No handler changes the state of the machine. -/
structure Undisturbed : Prop where
  handle : ∀ w text, m.view (m.handle w text).2 = m.view w
  tell : ∀ w text, m.view (m.tell w text) = m.view w
  enterFunction : ∀ w st, m.view (m.enterFunction w st) = m.view w

variable {m}

omit [Double F] in
theorem Undisturbed.view_execute (h : m.Undisturbed) (w : W) (text : String) :
    m.view (m.execute w text).2 = m.view w := by
  unfold execute
  split_ifs
  · exact h.handle w text
  · rfl

omit [Double F] in
theorem Undisturbed.view_enterState (h : m.Undisturbed) (w : W) (st : String) :
    m.view (m.enterState w st).2 = ⟨st, .ofString st, m.microsecs (m.leave w st)⟩ := by
  unfold enterState change
  rw [h.tell, h.view_execute, m.view_setView, h.enterFunction, m.view_setView]

theorem Undisturbed.view_of_entered (h : m.Undisturbed) {w : W} {newState st : String}
    (hent : m.entered w newState authority resume = some st) :
    m.view (m.setState w newState authority resume).2 =
      ⟨st, .ofString st, m.microsecs (m.leave w st)⟩ := by
  rw [m.setState_of_entered hent, h.view_enterState]

/-- A call leaves no trace if it enters no state or does not fail there. Unless handlers put back
what the call changed, it leaves one otherwise, but where it enters its own state again at the
same time. -/
theorem noTrace_iff (m : Machine F W) (w : W) (newState : String) (authority : UInt64)
    (resume : Bool) : ((∀ st, m.entered w newState authority resume = some st →
        ¬m.EnterFails w st) → m.NoTrace w newState authority resume) ∧
      (m.Undisturbed → (m.NoTrace w newState authority resume ↔
        ∀ st, m.entered w newState authority resume = some st → m.EnterFails w st →
          m.view w = ⟨st, .ofString st, m.microsecs (m.leave w st)⟩)) := by
  unfold NoTrace
  cases hent : m.entered w newState authority resume with
  | none => simp [m.setState_of_not_entered hent]
  | some st =>
    rw [m.setState_of_entered hent, enterState_failed_iff]
    simp only [Option.some.injEq, forall_eq']
    refine ⟨fun hnot hfai => absurd hfai hnot, fun hund => ?_⟩
    rw [hund.view_enterState, eq_comm]

/-- Nothing that the machine does changes what is seen of the world. -/
structure Keeps {α : Type} (m : Machine F W) (seen : W → α) : Prop where
  setView : ∀ w v, seen (m.setView w v) = seen w
  handle : ∀ w text, seen (m.handle w text).2 = seen w
  tell : ∀ w text, seen (m.tell w text) = seen w
  enterFunction : ∀ w st, seen (m.enterFunction w st) = seen w

theorem Keeps.seen_setState {α : Type} {seen : W → α} (h : m.Keeps seen) (w : W) (st : String)
    (authority : UInt64) (resume : Bool) : seen (m.setState w st authority resume).2 = seen w := by
  have hexe (w : W) (text : String) : seen (m.execute w text).2 = seen w := by
    unfold execute
    split_ifs
    · exact h.handle w text
    · rfl
  have hlea (w : W) (st : String) : seen (m.leave w st) = seen w := by
    unfold leave
    dsimp only
    split_ifs <;> simp only [h.tell, hexe]
  cases hent : m.entered w st authority resume with
  | none => rw [m.setState_of_not_entered hent]
  | some st' =>
    rw [m.setState_of_entered hent, enterState, change]
    simp only [h.tell, hexe, h.setView, h.enterFunction, hlea]

end Machine

def lamp : Machine ℚ (View ℚ) where
  name := "lamp"
  isShadow := false
  states := ["off", "on"]
  view := id
  setView _ v := v
  view_setView _ _ := rfl
  expectedAuthority _ := 0
  enabled _ := false
  getValue _ _ := .empty
  microsecs _ := 7
  receives _ _ := false
  handle w _ := (.complete, w)
  tell w _ := w
  enterFunction w _ := w

/-- The call fails, and the lamp is on since then. -/
theorem failed_lamp_is_on :
    let w : View ℚ := ⟨"off", .ofString "off", 3⟩
    lamp.Undisturbed ∧ lamp.setState w "on" 0 false = (.failed, ⟨"on", .ofString "on", 7⟩) ∧
      ¬lamp.NoTrace w "on" 0 false := by
  have hcal : lamp.setState ⟨"off", .ofString "off", 3⟩ "on" 0 false =
      (.failed, ⟨"on", .ofString "on", 7⟩) := rfl
  refine ⟨⟨fun _ _ => rfl, fun _ _ => rfl, fun _ _ => rfl⟩, hcal, fun h => ?_⟩
  have hvie := h (by rw [hcal])
  rw [hcal] at hvie
  exact absurd (congrArg View.currentState hvie) (by decide)

end Clockwork.StateEntry
