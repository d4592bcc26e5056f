import Clockwork.Library.WorkStack
import Clockwork.Names
import Clockwork.Predicate

namespace Clockwork.Messages

open WorkStack (Stack Job)

variable {α : Type}

/-- A transmitter, as the machine that receives its message tells it apart. -/
inductive Sender where
  | self
  | machine (name : String)
  | ioInterface
deriving DecidableEq, Repr

/-- A transition; `condition` is what its condition evaluates to, if it has one. -/
structure Transition where
  source : String
  dest : String
  trigger : String
  condition : Option Bool
deriving DecidableEq, Repr

structure Command where
  name : String
  stateName : String
  autoSwitch : Bool
deriving DecidableEq, Repr

structure StableState (α : Type) where
  stateName : String
  condition : Predicate α

inductive Activity (α : Type) where
  | handleMessage
  | executeMessage (message : String) (target : Sender)
  | moveState (target dest : String)
  /-- the `IfElseCommandAction` that changes to a stable state or throws `failure` -/
  | stableStateTest (dest : String) (condition : Predicate α) (failure : String)
  | command (c : Command)
  | other
deriving DecidableEq, Repr

structure Machine (α : Type) where
  name : String
  className : String
  currentState : String
  transitions : List Transition
  commands : List Command
  stableStates : List (StableState α)
  /-- the multimap of receive handlers, those of one message in the order of insertion -/
  receives : List (String × Command)

def direct (sender : Sender) (text : String) : Bool :=
  sender = .self ∨ text = shortName text

def joinCondition (found : Option (Predicate α)) (s : StableState α) : Option (Predicate α) :=
  match found with
  | none => some s.condition
  | some p => some (.binary p .opOR s.condition)

namespace Machine

variable (m : Machine α)

def hasCommand (name : String) : Bool := m.commands.any (·.name = name)

def findMatchingCommand (name : String) : Option Command :=
  m.commands.find? fun c =>
    c.name = name ∧ (c.stateName = "" ∨ c.autoSwitch ∨ m.currentState = c.stateName)

variable (sender : Sender)

/-- The transition that `findHandler` takes, in its first or its second loop. -/
def findTransition (text : String) : Option Transition :=
  if direct sender text then
    m.transitions.find? fun t =>
      t.trigger = shortName text ∧ (m.currentState = t.source ∨ t.source = "ANY") ∧
        t.condition ≠ some false
  else
    m.transitions.find? fun t =>
      (t.trigger = text ∨ t.trigger = shortName text) ∧ m.currentState = t.source

/-- The condition of the stable states called `dest`, joined by `OR`. -/
def stableStateCondition (dest : String) : Option (Predicate α) :=
  (m.stableStates.filter (·.stateName = dest)).foldl joinCondition none

def failedTransition (dest : String) : String :=
  String.ofList
    ((m.name ++ ": Failed Transition from " ++ m.currentState ++ " to " ++ dest).toList.take 99)

/-- `prepareCompletionMessage`; an I/O point is no machine and gets no response. -/
def prepareCompletionMessage (message : String) (s : Stack (Activity α)) : Stack (Activity α) :=
  match sender with
  | .ioInterface => s
  | _ => s.push (.executeMessage (m.name ++ "." ++ message ++ "_done") sender)

def respond (message : String) (responseRequired : Bool)
    (s : Stack (Activity α)) : Stack (Activity α) :=
  if responseRequired then m.prepareCompletionMessage sender message s else s

/-- The handlers that `receives_functions` has for a message. -/
def receiveHandlers (text : String) : List Command :=
  (m.receives.filter (·.1 = text)).map (·.2)

def findReceiveHandler (text : String) (responseRequired : Bool)
    (s : Stack (Activity α)) : Option (Activity α) × Stack (Activity α) :=
  let responded := m.respond sender (shortName text) responseRequired s
  match m.receiveHandlers text with
  | handler :: handlers =>
    -- the bus is told to activate or deactivate, and nothing is queued
    if m.className = "ETHERCAT_BUS" then (none, s)
    else
      (((handler :: handlers).find? fun h =>
        h.stateName = "" ∨ m.currentState = h.stateName).map .command, responded)
  | [] =>
    -- the handlers of the short name are not asked for their state
    if sender = .self ∧ shortName text ≠ text then
      ((m.receiveHandlers (shortName text)).head?.map .command, responded)
    else (none, responded)

def changeState (t : Transition) (responseRequired : Bool)
    (s : Stack (Activity α)) : Option (Activity α) × Stack (Activity α) :=
  (some (.moveState m.name t.dest), m.respond sender t.trigger responseRequired s)

/-- A transition for a message that is a command of the machine. The test of a stable
state is queued at the front, a plain state change is pushed on the response. -/
def performTransition (t : Transition) (responseRequired : Bool)
    (s : Stack (Activity α)) : Option (Activity α) × Stack (Activity α) :=
  if m.hasCommand t.trigger then
    let s' :=
      match m.stableStateCondition t.dest with
      | some p =>
        m.respond sender t.trigger responseRequired
          (s.enqueue (.stableStateTest t.dest p (m.failedTransition t.dest)))
      | none => (m.respond sender t.trigger responseRequired s).push (.moveState "SELF" t.dest)
    match m.findMatchingCommand t.trigger with
    | some c => (some (.command c), s')
    | none => m.changeState sender t responseRequired s'
  else m.changeState sender t responseRequired s

def performCommand (text : String) (responseRequired : Bool)
    (s : Stack (Activity α)) : Option (Activity α) × Stack (Activity α) :=
  if m.hasCommand (shortName text) then
    let responded := m.respond sender (shortName text) responseRequired s
    match m.findMatchingCommand (shortName text) with
    | some c => (some (.command c), responded)
    | none => m.findReceiveHandler sender text responseRequired responded
  else m.findReceiveHandler sender text responseRequired s

def findHandler (text : String) (responseRequired : Bool)
    (s : Stack (Activity α)) : Option (Activity α) × Stack (Activity α) :=
  match m.findTransition sender text with
  | some t =>
    if direct sender text then m.performTransition sender t responseRequired s
    else
      (some (.moveState "SELF" t.dest), m.respond sender (shortName text) responseRequired s)
  | none =>
    if direct sender text then m.performCommand sender text responseRequired s
    else m.findReceiveHandler sender text responseRequired s

/-- `stop(this)` of the action that was executing on the stack `s`. -/
def stopExecuting (s s' : Stack (Activity α)) : Stack (Activity α) :=
  match s.executing with
  | some j => s'.remove j
  | none => s'

/-- `HandleMessageAction::run`, executing on the stack `s`, up to the call of the
handler it found. -/
def handleMessage (text : String) (needsReceipt : Bool)
    (s : Stack (Activity α)) : Option (Job (Activity α)) × Stack (Activity α) :=
  if sender = .ioInterface then (none, m.respond sender text needsReceipt (stopExecuting s s))
  else
    match m.findHandler sender text needsReceipt s with
    | (some handler, s') => (some (s'.newJob handler), (s'.push handler).call (s'.newJob handler))
    | (none, s') => (none, stopExecuting s s')

end Machine

end Clockwork.Messages
