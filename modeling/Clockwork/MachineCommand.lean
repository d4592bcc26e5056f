import Clockwork.Library.Runs
import Mathlib.Tactic.Common

namespace Clockwork.MachineCommand

inductive Status where
  | new | running | complete | failed | suspended | needsRetry
deriving DecidableEq, Repr

/-- What an action is going to do: how many of its runs end in `NeedsRetry`, how many
calls of `checkComplete` it then takes to finish (none if it is done when `run`
returns), and whether it completes or fails. -/
structure Script where
  retries : ℕ
  polls : ℕ
  ok : Bool
deriving DecidableEq, Repr

structure ActionState extends Script where
  status : Status
deriving DecidableEq, Repr

inductive Item where
  | command
  | action (i : ℕ)
deriving DecidableEq, Repr

/-- What happens to the actions: a call of `run`, its result `NeedsRetry`, a failure. -/
inductive Event where
  | start (i : ℕ)
  | retry (i : ℕ)
  | fail (i : ℕ)
deriving DecidableEq, Repr

/-- The command and its owner. `stack` is `active_actions` with the executing action,
the back of the list, first. -/
structure State where
  size : ℕ
  /-- the actions that are `AbortAction`s: `RETURN`, `ABORT` and `THROW` -/
  aborts : ℕ → Bool
  mismatch : Bool
  actions : ℕ → ActionState
  status : Status
  savedStatus : Status
  currentStep : ℕ
  lastStep : ℕ
  stack : List Item
  trace : List Event

def initial (scripts : List Script) (mismatch : Bool) : State where
  size := scripts.length
  aborts _ := false
  mismatch := mismatch
  actions i := ⟨scripts.getD i ⟨0, 0, true⟩, .new⟩
  status := .new
  savedStatus := .running
  currentStep := 0
  lastStep := 0
  stack := []
  trace := []

/-- What `run` of an `AbortAction` does. -/
def abortScript : Script := ⟨0, 0, true⟩

/-- A command of which the actions without a script are `AbortAction`s. -/
def initialWith (steps : List (Option Script)) (mismatch : Bool) : State :=
  { initial (steps.map (·.getD abortScript)) mismatch with
    aborts := fun i => steps[i]? = some none }

namespace State

variable (s : State)

def executing : Option Item := s.stack.head?

def start (x : Item) : State :=
  if s.executing = some x then s else { s with stack := x :: s.stack }

def suspend : State :=
  if s.status = .suspended then s
  else { s with savedStatus := s.status, status := .suspended }

def resume : State :=
  { s with status := if s.savedStatus = .suspended then .running else s.savedStatus }

/-- `MachineInstance::stop`: the next action on the stack is resumed. Only the command
is ever suspended here. -/
def stop (x : Item) : State :=
  let s' := { s with stack := s.stack.filter (· ≠ x) }
  if s'.executing = some .command ∧ s'.status = .suspended then s'.resume else s'

variable (i : ℕ)

def setAction (a : ActionState) : State :=
  { s with actions := Function.update s.actions i a }

def record (es : List Event) : State := { s with trace := s.trace ++ es }

def finishAction : State :=
  if (s.actions i).ok then (s.setAction i { s.actions i with status := .complete }).stop (.action i)
  else ((s.setAction i { s.actions i with status := .failed }).record [.fail i]).stop (.action i)

/-- `Action::operator()` of an action: `run` puts it on the stack. -/
def callAction : State :=
  let s' := (s.start (.action i)).record [.start i]
  if 0 < (s.actions i).retries then
    (s'.setAction i
      { s.actions i with retries := (s.actions i).retries - 1, status := .needsRetry }).record
        [.retry i]
  else if (s.actions i).polls = 0 then s'.finishAction i
  else s'.setAction i { s.actions i with status := .running }

def completeAction : Bool × State :=
  match (s.actions i).status with
  | .running | .suspended =>
    if (s.actions i).polls ≤ 1 then (true, s.finishAction i)
    else (false, s.setAction i { s.actions i with polls := (s.actions i).polls - 1 })
  | .complete | .failed => (true, s)
  | _ => (false, s)

/-- The end of a turn in `runActions`: an action that did not remove itself is
stopped, and the next one becomes the current one. -/
def advance : State :=
  let s' := if s.executing = some (.action i) then s.stop (.action i) else s
  { s' with lastStep := i, currentStep := i + 1 }

/-- An `AbortAction` moves the current step to the end of the list. -/
def abort : State :=
  { s.stop (.action i) with lastStep := i, currentStep := s.size }

inductive Turn where
  | returned (stat : Status) (s : State)
  | next (s : State)

/-- The body of the loop in `MachineCommand::runActions`. A failed action is only
reported: `complete` holds for it, so the loop goes on. -/
def runTurn : Turn :=
  let i := s.currentStep
  let s₁ := s.suspend.callAction i
  if s.aborts i then .returned .complete (s₁.abort i)
  else
    match (s₁.actions i).status with
    | .needsRetry | .new => .returned .running { s₁.stop (.action i) with status := .running }
    | stat =>
      let r := s₁.completeAction i
      if r.1 then .next (r.2.advance i) else .returned stat r.2

/-- `MachineCommand::runActions`; its loop takes at most as many turns as there are
actions left. -/
def runActions : ℕ → State → Status × State
  | 0, s => (.complete, s)
  | fuel + 1, s =>
    if s.currentStep < s.size then
      match s.runTurn with
      | .returned stat s' => (stat, s')
      | .next s' => runActions fuel s'
    else (.complete, s)

def statusOf : Item → Status
  | .command => s.status
  | .action i => (s.actions i).status

def begin : State :=
  { s.start .command with status := .running, lastStep := 0, currentStep := 0 }

def finishRun (r : Status × State) : Status × State :=
  match r.1 with
  | .failed => (.failed, { r.2 with status := .failed }.stop .command)
  | .complete =>
    match r.2.executing with
    | some (.action i) => (r.2.statusOf (.action i), r.2)
    | _ =>
      if r.2.currentStep = r.2.size then
        (.complete, { r.2 with status := .complete }.stop .command)
      else (r.2.status, r.2)
  | _ => (r.2.status, r.2)

def run : Status × State :=
  if s.mismatch ∨ s.size = 0 then (.complete, { s.begin with status := .complete }.stop .command)
  else finishRun (s.begin.runActions s.size)

def call : State :=
  let r := { s with status := .running }.run
  { r.2 with status := r.1 }

def giveUp : Turn := .returned (s.stop .command).status (s.stop .command)

/-- `status = runActions()` from step `i` on, the end of a turn in `checkComplete`. -/
def goOn : Turn :=
  let r := { s with currentStep := i }.runActions (s.size - i)
  .next { r.2 with status := r.1 }

/-- The rest of a turn in `checkComplete`, for a current action that is not restarted
with the result `NeedsRetry`. -/
def checkAction : Turn :=
  let i := s.currentStep
  match (s.actions i).status with
  | .complete => s.goOn (i + 1)
  | .failed => s.giveUp
  | .running | .suspended =>
    let r := s.completeAction i
    if r.1 then
      if (r.2.actions i).status = .failed then r.2.giveUp else r.2.goOn (i + 1)
    else .returned (r.2.actions i).status r.2
  | _ => s.goOn i

def checkTurn : Turn :=
  let i := s.currentStep
  if (s.actions i).status = .new ∨ (s.actions i).status = .needsRetry then
    let s₁ := s.callAction i
    if (s₁.actions i).status = .needsRetry then .returned .running s₁ else s₁.checkAction
  else s.checkAction

/-- The loop of `MachineCommand::checkComplete`; every turn that does not return moves
on to a later action. -/
def checkLoop : ℕ → State → Status × State
  | 0, s => (s.status, s)
  | fuel + 1, s =>
    if s.currentStep < s.size then
      match s.checkTurn with
      | .returned stat s' => (stat, s')
      | .next s' => checkLoop fuel s'
    else (.complete, { s with status := .complete }.stop .command)

def checkComplete : Status × State :=
  let s₀ := if s.status = .suspended then s.resume else s
  if s₀.status ≠ .running then (s₀.status, s₀)
  else checkLoop (s₀.size - s₀.currentStep + 1) s₀

def drive : State :=
  if s.status = .running ∨ s.status = .suspended then
    let r := s.checkComplete
    { r.2 with status := r.1 }
  else s

/-- The owner's `idle` finds an action of the command executing: it runs or polls it,
and takes it off the stack if it is done and still there. -/
def poll : State :=
  match s.executing with
  | some (.action i) =>
    let (done, s₁) :=
      if (s.actions i).status = .new ∨ (s.actions i).status = .needsRetry then
        let s' := s.callAction i
        (decide ((s'.actions i).status = .complete ∨ (s'.actions i).status = .failed), s')
      else s.completeAction i
    if done ∧ s₁.executing = some (.action i) then s₁.stop (.action i) else s₁
  | _ => s

end State

inductive Drive where
  | checkComplete
  | idle
deriving DecidableEq, Repr

def State.step (s : State) : Drive → State
  | .checkComplete => s.drive
  | .idle => s.poll

end Clockwork.MachineCommand
