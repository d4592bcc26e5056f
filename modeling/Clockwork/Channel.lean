import Clockwork.Library.Link
import Clockwork.Library.Runs

namespace Clockwork.Channel

variable {M : Type}

/-- `isClient()`: the client is configured, the server is created on request. -/
inductive Role where
  | client
  | server
deriving DecidableEq, Repr

def Role.partner : Role → Role
  | client => server
  | server => client

inductive ChannelState where
  | disconnected
  | connected
  | connecting
  | waitStart
  | uploading
  | downloading
  | active
deriving DecidableEq, Repr

/-- The texts that reach `checkStateChange`. -/
inductive Event where
  | status
  | done
deriving DecidableEq, Repr

inductive Packet (M : Type) where
  | command (m : M)
  | control (event : Event) (needReply : Bool)
  | ack
deriving DecidableEq, Repr

def Packet.message : Packet M → Option M
  | command m => some m
  | control _ _ => none
  | ack => none

inductive MessageState where
  | sending
  | receiving
  | done
deriving DecidableEq, Repr

inductive ProcessState where
  | init
  | sendingMessages
  | waitingAck
deriving DecidableEq, Repr

/-- `SyncRemoteStatesActionInternals`: the iterator stays at the front of `messages`. -/
structure SyncAction (M : Type) where
  processState : ProcessState := .init
  messageState : MessageState := .sending
  messages : List M := []
deriving DecidableEq, Repr

/-- The actions a channel queues for itself. A `SetStateAction` keeps the position, among
the packets received, of the one it was queued for. -/
inductive Action (M : Type) where
  | setState (new : ChannelState) (cause : Option ℕ)
  | downloadChannelState
  | syncRemoteStates (a : SyncAction M)
deriving DecidableEq, Repr

structure Manager where
  setupDisconnected : Bool := true
  subsDisconnected : Bool := true
  waitingConnect : Bool := false
deriving DecidableEq, Repr

structure Transition where
  source : ChannelState
  target : ChannelState
  cause : Option ℕ
deriving DecidableEq, Repr

structure Endpoint (M : Type) where
  currentState : ChannelState := .disconnected
  connections : ℕ := 0
  manager : Option Manager := none
  /-- `active_actions` from its back, so that the head executes -/
  actions : List (Action M) := []
  /-- control packets that wait for the channel's thread, with their positions -/
  events : List (ℕ × Event × Bool) := []
  replies : List ℕ := []
  sent : List (Packet M) := []
  received : List (Packet M) := []
  /-- what `syncRemoteStates` has handed out to be sent -/
  collected : List M := []
  transitions : List Transition := []
deriving DecidableEq, Repr

namespace Endpoint

def send (p : Packet M) (e : Endpoint M) : Endpoint M := { e with sent := e.sent ++ [p] }

def enqueueAction (a : Action M) (e : Endpoint M) : Endpoint M :=
  { e with actions := e.actions ++ [a] }

/-- No manager, or a socket of it that is not connected. The monitor of the setup socket
exists as soon as the manager does. -/
def socketDown (r : Role) : Option Manager → Bool
  | none => true
  | some m => (r = .client ∧ m.setupDisconnected) ∨ m.subsDisconnected

def refuses (r : Role) (new : ChannelState) (e : Endpoint M) : Bool :=
  new ≠ .disconnected ∧ e.connections = 0 ∧ socketDown r e.manager

def changeState (new : ChannelState) (cause : Option ℕ) (e : Endpoint M) : Endpoint M :=
  if e.currentState = new then e
  else { e with
    currentState := new
    transitions := e.transitions ++ [⟨e.currentState, new, cause⟩] }

/-- What `Channel::setState` does for the new state. -/
def entered (r : Role) (new : ChannelState) (cause : Option ℕ) (e : Endpoint M) : Endpoint M :=
  match new, r with
  | .connected, .client => e.enqueueAction (.setState .downloading cause)
  | .uploading, _ => e.enqueueAction (.syncRemoteStates {})
  | .downloading, .client => e.send (.control .status false)
  | .downloading, .server => e.send (.control .done true)
  | _, _ => e

def setState (r : Role) (new : ChannelState) (cause : Option ℕ) (e : Endpoint M) : Endpoint M :=
  if e.refuses r new then e else (e.changeState new cause).entered r new cause

/-- `checkCommunications`; `ready` is the rate limit of the manager. -/
def checkCommunications (r : Role) (ready : Bool) (cause : Option ℕ) (e : Endpoint M) :
    Endpoint M :=
  match e.manager with
  | none => e
  | some m =>
    if !ready then e
    else if m.setupDisconnected ∨ m.subsDisconnected then
      if r = .client then
        if m.setupDisconnected ∧ e.currentState ≠ .disconnected then
          e.setState r .disconnected cause
        else if ¬m.setupDisconnected ∧ m.waitingConnect ∧ e.currentState ≠ .connecting then
          e.setState r .connecting cause
        else e
      else e
    else if e.currentState = .disconnected then e.setState r .connected cause
    else if e.currentState = .connected ∨ e.currentState = .connecting then
      match r with
      | .client => e.setState r .downloading cause
      | .server => e.setState r .uploading cause
    else e

def clientStateChange (cause : ℕ) (e : Endpoint M) : Endpoint M :=
  match e.currentState with
  | .downloading => e.setState .client .uploading (some cause)
  | .uploading => e.setState .client .active (some cause)
  | _ => e

def serverStateChange (event : Event) (cause : ℕ) (e : Endpoint M) : Endpoint M :=
  if e.currentState = .waitStart ∧ event = .status then
    e.setState .server .uploading (some cause)
  else if e.currentState = .active ∧ event = .status then e
  else if e.currentState = .uploading then e.setState .server .active (some cause)
  else if e.currentState = .downloading then e.setState .server .active (some cause)
  else e

def startConnected (event : Event) (cause : ℕ) (e : Endpoint M) : Endpoint M :=
  if e.currentState = .connected ∧ event = .status then
    e.setState .server .uploading (some cause)
  else e

def wake (r : Role) (ready : Bool) (cause : ℕ) (e : Endpoint M) : Endpoint M :=
  if e.currentState = .disconnected then e.checkCommunications r ready (some cause) else e

def checkStateChange (r : Role) (ready : Bool) (event : Event) (cause : ℕ) (e : Endpoint M) :
    Endpoint M :=
  let woken := e.wake r ready cause
  if woken.currentState = .disconnected then woken
  else
    match r with
    | .client => woken.clientStateChange cause
    | .server => (woken.startConnected event cause).serverStateChange event cause

def handleEvent (r : Role) (ready : Bool) (e : Endpoint M) : Option (Endpoint M) :=
  match e.events with
  | [] => none
  | (cause, event, needReply) :: events =>
    let changed := ({ e with events := events } : Endpoint M).checkStateChange r ready event cause
    some (if needReply ∨ r = .client then changed.send .ack else changed)

def receive (p : Packet M) (e : Endpoint M) : Endpoint M :=
  match p with
  | .command _ => { e with received := e.received ++ [p] }
  | .control event needReply =>
    { e with
      received := e.received ++ [p]
      events := e.events ++ [(e.received.length, event, needReply)] }
  | .ack =>
    { e with
      received := e.received ++ [p]
      replies := e.replies ++ [e.received.length] }

def sendMessage (a : SyncAction M) (e : Endpoint M) : SyncAction M × Endpoint M :=
  match a.messages, a.messageState with
  | [], _ => ({ a with messageState := .done }, e)
  | m :: ms, .sending => ({ a with messages := ms, messageState := .done }, e.send (.command m))
  | _ :: _, .receiving =>
    match e.replies with
    | [] => (a, e)
    | _ :: replies => ({ a with messageState := .done }, { e with replies := replies })
  | _ :: _, .done => (a, e)

def messageDone (a : SyncAction M) (e : Endpoint M) : SyncAction M × Endpoint M :=
  match a.messageState, a.messages with
  | .done, [] => ({ a with processState := .waitingAck }, e.send (.control .done true))
  | .done, _ :: _ => ({ a with messageState := .sending }, e)
  | _, _ => (a, e)

def sendMessages (a : SyncAction M) (rest : List (Action M)) (e : Endpoint M) : Endpoint M :=
  let (a, e) := sendMessage a e
  let (a, e) := messageDone a e
  { e with actions := .syncRemoteStates a :: rest }

def uploaded : Role → ChannelState
  | .client => .active
  | .server => .downloading

/-- `SyncRemoteStatesAction::execute`, with the states and properties that a first call
finds to send; it fails on a disconnected channel. -/
def executeSync (r : Role) (found : List M) (a : SyncAction M) (rest : List (Action M))
    (e : Endpoint M) : Endpoint M :=
  match a.processState with
  | .init =>
    if e.currentState = .disconnected then { e with actions := rest }
    else
      sendMessages ⟨.sendingMessages, if found = [] then .done else .sending, found⟩ rest
        { e with collected := e.collected ++ found }
  | .sendingMessages => sendMessages a rest e
  | .waitingAck =>
    match e.replies with
    | [] => e
    | cause :: replies =>
      ({ e with actions := rest, replies := replies } : Endpoint M).enqueueAction
        (.setState (uploaded r) (some cause))

/-- `SetStateAction`: a machine that is in the state already is left alone. -/
def executeSetState (r : Role) (new : ChannelState) (cause : Option ℕ) (e : Endpoint M) :
    Endpoint M :=
  if e.currentState = new then e else e.setState r new cause

def executeAction (r : Role) (found : List M) (e : Endpoint M) : Option (Endpoint M) :=
  match e.actions with
  | [] => none
  | .setState new cause :: rest =>
    some (({ e with actions := rest } : Endpoint M).executeSetState r new cause)
  | .downloadChannelState :: rest =>
    some (({ e with actions := rest } : Endpoint M).executeSetState r .connected none)
  | .syncRemoteStates a :: rest => some (executeSync r found a rest e)

/-- `addConnection` of a channel that is no publisher; a client has one connection only. -/
def addConnection (r : Role) (e : Endpoint M) : Option (Endpoint M) :=
  let added := { e with connections := e.connections + 1 }
  match r with
  | .client =>
    if added.connections = 1 then some (added.enqueueAction .downloadChannelState) else none
  | .server =>
    if added.connections = 1 ∨ added.currentState ≠ .waitStart then
      some (added.enqueueAction (.setState .waitStart none))
    else some added

def createManager (e : Endpoint M) : Option (Endpoint M) :=
  match e.manager with
  | none => some { e with manager := some {} }
  | some _ => none

def connectSetup (r : Role) (waiting : Bool) (e : Endpoint M) : Option (Endpoint M) :=
  match r, e.manager with
  | .client, some m =>
    some { e with manager := some { m with setupDisconnected := false, waitingConnect := waiting } }
  | _, _ => none

def connectSubs (r : Role) (e : Endpoint M) : Option (Endpoint M) :=
  match e.manager with
  | none => none
  | some m =>
    if m.subsDisconnected ∧ (r = .client → ¬m.setupDisconnected) then
      ({ e with manager := some { m with subsDisconnected := false } } : Endpoint M).addConnection r
    else none

end Endpoint

inductive Move (M : Type) where
  | createManager
  | connectSetup (waiting : Bool)
  | connectSubs
  | checkCommunications
  | executeAction (found : List M)
  | deliver
  | handleEvent (ready : Bool)
deriving DecidableEq, Repr

def Endpoint.move (r : Role) (incoming : Option (Packet M)) (e : Endpoint M) :
    Move M → Option (Endpoint M)
  | .createManager => e.createManager
  | .connectSetup waiting => e.connectSetup r waiting
  | .connectSubs => e.connectSubs r
  | .checkCommunications => some (e.checkCommunications r true none)
  | .executeAction found => e.executeAction r found
  | .deliver => incoming.map e.receive
  | .handleEvent ready => e.handleEvent r ready

/-- Both endpoints; the link is given by what was sent and what was received. -/
abbrev System (M : Type) := Role → Endpoint M

def start : System M := fun _ => {}

def next (s : System M) (l : Role × Move M) : Option (System M) :=
  ((s l.1).move l.1 (Link.next (s l.1.partner).sent (s l.1).received) l.2).map
    (Function.update s l.1)

def Step (s : System M) (l : Role × Move M) (t : System M) : Prop := next s l = some t

end Clockwork.Channel
