import Clockwork.Channel

namespace Clockwork.Channel

variable {M : Type}

def Action.Fits : Role → Action M → Prop
  | .client, setState new _ => new = .downloading ∨ new = .active
  | .server, setState new _ => new = .waitStart ∨ new = .downloading
  | .client, downloadChannelState => True
  | .server, downloadChannelState => False
  | _, syncRemoteStates _ => True

def Packet.Fits : Role → Packet M → Prop
  | _, command _ => True
  | .client, control .status _ => True
  | .server, control .status _ => False
  | _, control .done needReply => needReply = true
  | _, ack => True

namespace Endpoint

def SetupUp (e : Endpoint M) : Prop := ∃ m, e.manager = some m ∧ m.setupDisconnected = false

structure Sound (r : Role) (e : Endpoint M) : Prop where
  actions : ∀ a ∈ e.actions, a.Fits r
  packets : ∀ p ∈ e.sent, p.Fits r
  events : ∀ x ∈ e.events, .control x.2.1 x.2.2 ∈ e.received
  links : e.connections = 0 ↔ ∀ m, e.manager = some m → m.subsDisconnected = true
  idle : e.connections = 0 → e.currentState = .disconnected ∧ e.actions = []

/-- A client leaves `DISCONNECTED` once, after its sockets are connected, and sends
nothing before. -/
structure ClientInvariant (e : Endpoint M) : Prop extends Sound .client e where
  setup : e.connections ≠ 0 → e.SetupUp
  quiet : e.currentState = .disconnected →
    e.sent = [] ∧ ∀ a, .syncRemoteStates a ∉ e.actions

/-- A server is never `CONNECTED`, as its setup socket is not, and does nothing before the
client's first packet but wait for it. -/
structure ServerInvariant (e : Endpoint M) : Prop extends Sound .server e where
  setup : ∀ m, e.manager = some m → m.setupDisconnected = true
  state : e.currentState ≠ .connected
  lobby : e.currentState = .disconnected → e.connections ≠ 0 →
    e.actions = [.setState .waitStart none]
  started : e.currentState ≠ .disconnected → ∀ cause, .setState .waitStart cause ∉ e.actions
  asleep : e.received = [] → e.sent = [] ∧ e.events = [] ∧ e.replies = [] ∧
    (e.currentState = .disconnected ∨ e.currentState = .waitStart ∧ e.actions = [])

variable {r : Role} {e : Endpoint M}

theorem checkCommunications_server (hset : ∀ m, e.manager = some m → m.setupDisconnected = true)
    (ready : Bool) (cause : Option ℕ) : e.checkCommunications .server ready cause = e := by
  unfold checkCommunications
  cases hm : e.manager with
  | none => rfl
  | some m => cases ready <;> simp [hset m hm]

theorem setState_connecting {m : Manager} {cause : Option ℕ} (hcon : e.connections = 0)
    (hm : e.manager = some m) (hsub : m.subsDisconnected = true) :
    e.setState r .connecting cause = e := by
  simp [setState, refuses, hcon, socketDown, hm, hsub]

theorem Sound.connected (h : e.Sound r) (hsta : e.currentState ≠ .disconnected) :
    e.connections ≠ 0 :=
  fun hzer => hsta (h.idle hzer).1

theorem Sound.connected_of_mem {a : Action M} (h : e.Sound r) (ha : a ∈ e.actions) :
    e.connections ≠ 0 := by
  intro hzer
  rw [(h.idle hzer).2] at ha
  cases ha

theorem checkCommunications_client (h : e.ClientInvariant) (cause : Option ℕ) :
    e.checkCommunications .client true cause = e ∨ e.connections ≠ 0 ∧
      ∃ new, e.checkCommunications .client true cause = e.setState .client new cause ∧
        (new = .connected ∧ e.currentState = .disconnected ∨
          new = .downloading ∧ (e.currentState = .connected ∨ e.currentState = .connecting)) := by
  unfold checkCommunications
  cases hm : e.manager with
  | none => exact .inl rfl
  | some m =>
    -- both sockets come up before the first connection is counted
    by_cases hsub : m.subsDisconnected = true
    · have hzer : e.connections = 0 := by
        apply h.links.mpr
        intro m' hm'
        rw [hm, Option.some.injEq] at hm'
        exact hm' ▸ hsub
      simp [hsub, (h.idle hzer).1, setState_connecting hzer hm hsub]
    · have hcon : e.connections ≠ 0 := fun hzer => hsub (h.links.mp hzer m hm)
      obtain ⟨m', hm', hset⟩ := h.setup hcon
      rw [hm, Option.some.injEq] at hm'
      subst hm'
      simp only [hset, hsub, Bool.not_true, Bool.false_eq_true, or_self, if_false]
      split
      · exact .inr ⟨hcon, _, rfl, .inl ⟨rfl, ‹_›⟩⟩
      · split
        · exact .inr ⟨hcon, _, rfl, .inr ⟨rfl, ‹_›⟩⟩
        · exact .inl rfl

theorem checkStateChange_client (hsta : e.currentState ≠ .disconnected) (ready : Bool)
    (event : Event) (cause : ℕ) :
    e.checkStateChange .client ready event cause = e.clientStateChange cause := by
  simp [checkStateChange, wake, hsta]

theorem checkStateChange_server (h : e.ServerInvariant) (ready : Bool) (event : Event) (cause : ℕ) :
    e.checkStateChange .server ready event cause = e.serverStateChange event cause := by
  have hwak : e.wake .server ready cause = e := by
    unfold wake
    split
    · exact checkCommunications_server h.setup ready _
    · rfl
  -- the first chain of tests never applies, so one change at most is left
  have hcon : e.startConnected event cause = e := if_neg fun hc => h.state hc.1
  unfold checkStateChange
  rw [hwak]
  by_cases hsta : e.currentState = .disconnected
  · simp [hsta, serverStateChange]
  · simp [hsta, hcon]

inductive EventChange : Role → Event → ChannelState → ChannelState → Prop
  | clientUploads (event : Event) : EventChange .client event .downloading .uploading
  | clientActive (event : Event) : EventChange .client event .uploading .active
  | serverUploads : EventChange .server .status .waitStart .uploading
  | serverUploaded (event : Event) : EventChange .server event .uploading .active
  | serverDownloaded (event : Event) : EventChange .server event .downloading .active

theorem clientStateChange_cases (e : Endpoint M) (event : Event) (cause : ℕ) :
    e.clientStateChange cause = e ∨ ∃ new, EventChange .client event e.currentState new ∧
      e.clientStateChange cause = e.setState .client new (some cause) := by
  unfold clientStateChange
  cases hsta : e.currentState with
  | downloading => exact .inr ⟨_, .clientUploads event, rfl⟩
  | uploading => exact .inr ⟨_, .clientActive event, rfl⟩
  | _ => exact .inl rfl

theorem serverStateChange_cases (e : Endpoint M) (event : Event) (cause : ℕ) :
    e.serverStateChange event cause = e ∨ ∃ new, EventChange .server event e.currentState new ∧
      e.serverStateChange event cause = e.setState .server new (some cause) := by
  unfold serverStateChange
  cases hsta : e.currentState with
  | waitStart =>
    cases event with
    | status => exact .inr ⟨_, .serverUploads, by simp⟩
    | done => simp
  | uploading => exact .inr ⟨_, .serverUploaded event, by simp⟩
  | downloading => exact .inr ⟨_, .serverDownloaded event, by simp⟩
  | _ => simp

structure SameSockets (e e' : Endpoint M) : Prop where
  manager : e'.manager = e.manager
  connections : e'.connections = e.connections
  events : e'.events = e.events
  replies : e'.replies = e.replies
  received : e'.received = e.received
  collected : e'.collected = e.collected

theorem setState_cases (r : Role) (new : ChannelState) (cause : Option ℕ) (e : Endpoint M) :
    e.setState r new cause = e ∧ e.connections = 0 ∨
      e.setState r new cause = (e.changeState new cause).entered r new cause := by
  unfold setState
  split
  · have href : e.connections = 0 := by
      rename_i h
      simp only [refuses, decide_eq_true_eq] at h
      exact h.2.1
    exact .inl ⟨rfl, href⟩
  · exact .inr rfl

theorem sameSockets_changeState (new : ChannelState) (cause : Option ℕ) (e : Endpoint M) :
    SameSockets e (e.changeState new cause) := by
  unfold changeState
  split <;> exact ⟨rfl, rfl, rfl, rfl, rfl, rfl⟩

theorem sameSockets_setState (r : Role) (new : ChannelState) (cause : Option ℕ)
    (e : Endpoint M) : SameSockets e (e.setState r new cause) := by
  have hcha := sameSockets_changeState new cause e
  rcases setState_cases r new cause e with ⟨h, -⟩ | h
  · rw [h]
    exact ⟨rfl, rfl, rfl, rfl, rfl, rfl⟩
  · rw [h]
    cases new <;> cases r <;> exact
      ⟨hcha.manager, hcha.connections, hcha.events, hcha.replies, hcha.received, hcha.collected⟩

theorem changeState_spec (new : ChannelState) (cause : Option ℕ) (e : Endpoint M) :
    (e.changeState new cause).currentState = new ∧
      (e.changeState new cause).actions = e.actions ∧ (e.changeState new cause).sent = e.sent := by
  unfold changeState
  split
  · exact ⟨‹_›, rfl, rfl⟩
  · exact ⟨rfl, rfl, rfl⟩

theorem setState_spec (r : Role) (new : ChannelState) (cause : Option ℕ) (e : Endpoint M)
    (h : e.connections ≠ 0) : (e.setState r new cause).currentState = new ∧
      (e.setState r new cause).actions = e.actions ++
        (if new = .uploading then [.syncRemoteStates {}]
        else if new = .connected ∧ r = .client then [.setState .downloading cause] else []) ∧
      (e.setState r new cause).sent = e.sent ++ (if new = .downloading then
          [if r = .client then .control .status false else .control .done true]
        else []) := by
  obtain ⟨href, hnon⟩ | hset := setState_cases r new cause e
  · exact absurd hnon h
  · obtain ⟨hsta, hact, hsen⟩ := changeState_spec new cause e
    rw [hset]
    cases new <;> cases r <;> simp [entered, enqueueAction, send, hsta, hact, hsen]

/-- What one call of the action sends: some messages from the front and, when none are left,
the `done`. -/
theorem sendMessages_spec (a : SyncAction M) (rest : List (Action M)) (e : Endpoint M) :
    ∃ (a' : SyncAction M) (ms : List M) (finished : Bool) (replies : List ℕ),
      sendMessages a rest e = { e with
        actions := .syncRemoteStates a' :: rest
        sent := e.sent ++ (ms.map .command ++ if finished then [.control .done true] else [])
        replies := replies } ∧
      replies.Sublist e.replies ∧ a.messages = ms ++ a'.messages ∧
      if finished then a'.processState = .waitingAck ∧ a'.messages = []
      else a'.processState = a.processState := by
  obtain ⟨ps, st, messages⟩ := a
  -- nothing left, or a first message: it is sent unless a reply is awaited
  cases messages with
  | nil => exact ⟨_, [], true, e.replies, rfl, .refl _, rfl, rfl, rfl⟩
  | cons m ms =>
    cases st with
    | sending =>
      cases ms with
      | nil =>
        exact ⟨_, [m], true, e.replies, by simp [sendMessages, sendMessage, messageDone, send]; rfl,
          .refl _, rfl, rfl, rfl⟩
      | cons m' ms => exact ⟨_, [m], false, e.replies, rfl, .refl _, rfl, rfl⟩
    | receiving =>
      cases hrep : e.replies with
      | nil =>
        refine ⟨⟨ps, .receiving, m :: ms⟩, [], false, [], ?_, .refl _, rfl, rfl⟩
        simp [sendMessages, sendMessage, messageDone, hrep]
      | cons i replies =>
        refine ⟨⟨ps, .sending, m :: ms⟩, [], false, replies, ?_, .cons _ (.refl _), rfl, rfl⟩
        simp [sendMessages, sendMessage, messageDone, hrep]
    | done =>
      refine ⟨⟨ps, .sending, m :: ms⟩, [], false, e.replies, ?_, .refl _, rfl, rfl⟩
      simp [sendMessages, sendMessage, messageDone]

inductive SyncStep (r : Role) (found : List M) (a : SyncAction M) (rest : List (Action M))
    (e : Endpoint M) : Endpoint M → Prop
  | failed (hinit : a.processState = .init) (hstate : e.currentState = .disconnected) :
      SyncStep r found a rest e { e with actions := rest }
  | sends {a' : SyncAction M} {collected ms : List M} {finished : Bool} {replies : List ℕ}
      (hprocess : a.processState = .init ∧ e.currentState ≠ .disconnected ∧ collected = found ∧
          found = ms ++ a'.messages ∨
        a.processState = .sendingMessages ∧ collected = [] ∧ a.messages = ms ++ a'.messages)
      (hreplies : replies.Sublist e.replies)
      (hfinished : if finished then a'.processState = .waitingAck ∧ a'.messages = []
        else a'.processState = .sendingMessages) :
      SyncStep r found a rest e { e with
        actions := .syncRemoteStates a' :: rest
        sent := e.sent ++ (ms.map .command ++ if finished then [.control .done true] else [])
        replies := replies
        collected := e.collected ++ collected }
  | waits (hwaiting : a.processState = .waitingAck) : SyncStep r found a rest e e
  | acknowledged {cause : ℕ} {replies : List ℕ} (hwaiting : a.processState = .waitingAck)
      (hreplies : e.replies = cause :: replies) :
      SyncStep r found a rest e { e with
        actions := rest ++ [.setState (uploaded r) (some cause)]
        replies := replies }

theorem executeSync_step (r : Role) (found : List M) (a : SyncAction M)
    (rest : List (Action M)) (e : Endpoint M) :
    SyncStep r found a rest e (executeSync r found a rest e) := by
  unfold executeSync
  cases hp : a.processState with
  | init =>
    by_cases hsta : e.currentState = .disconnected
    · exact (if_pos hsta).symm ▸ .failed hp hsta
    · obtain ⟨a', ms, finished, replies, heq, hrep, hms, hfin⟩ := sendMessages_spec
        ⟨.sendingMessages, if found = [] then .done else .sending, found⟩ rest
        { e with collected := e.collected ++ found }
      rw [if_neg hsta, heq]
      exact .sends (.inl ⟨hp, hsta, rfl, hms⟩) hrep hfin
  | sendingMessages =>
    obtain ⟨a', ms, finished, replies, heq, hrep, hms, hfin⟩ := sendMessages_spec a rest e
    have hste : SyncStep r found a rest e _ :=
      .sends (.inr ⟨hp, rfl, hms⟩) hrep (hp ▸ hfin)
    rw [List.append_nil] at hste
    exact heq ▸ hste
  | waitingAck =>
    cases hrep : e.replies with
    | nil => exact .waits hp
    | cons cause replies => exact .acknowledged hp hrep

def firstAction : Role → Action M
  | .client => .downloadChannelState
  | .server => .setState .waitStart none

def Sets : Action M → ChannelState → Option ℕ → Prop
  | .setState new cause, new', cause' => new' = new ∧ cause' = cause
  | .downloadChannelState, new', cause' => new' = .connected ∧ cause' = none
  | .syncRemoteStates _, _, _ => False

inductive Moved (r : Role) (incoming : Option (Packet M)) (e : Endpoint M) :
    Move M → Endpoint M → Prop
  | same (l : Move M) : Moved r incoming e l e
  | creates (h : e.manager = none) :
      Moved r incoming e .createManager { e with manager := some {} }
  | connectsSetup {m : Manager} (h : e.manager = some m) (hr : r = .client) (waiting : Bool) :
      Moved r incoming e (.connectSetup waiting)
        { e with manager := some { m with setupDisconnected := false, waitingConnect := waiting } }
  | connectsSubs {m : Manager} (h : e.manager = some m) (hconnections : e.connections = 0)
      (hclient : r = .client → m.setupDisconnected = false) :
      Moved r incoming e .connectSubs { e with
        connections := 1
        manager := some { m with subsDisconnected := false }
        actions := e.actions ++ [firstAction r] }
  | connects {new : ChannelState} (hr : r = .client) (hconnections : e.connections ≠ 0)
      (hnew : new = .connected ∧ e.currentState = .disconnected ∨
        new = .downloading ∧ (e.currentState = .connected ∨ e.currentState = .connecting)) :
      Moved r incoming e .checkCommunications (e.setState r new none)
  | sets {a : Action M} {rest : List (Action M)} {new : ChannelState} {cause : Option ℕ}
      (hactions : e.actions = a :: rest) (hsets : Sets a new cause) (found : List M) :
      Moved r incoming e (.executeAction found)
        (({ e with actions := rest } : Endpoint M).executeSetState r new cause)
  | syncs {a : SyncAction M} {rest : List (Action M)} {found : List M} {e' : Endpoint M}
      (hactions : e.actions = .syncRemoteStates a :: rest) (h : SyncStep r found a rest e e') :
      Moved r incoming e (.executeAction found) e'
  | receives {p : Packet M} (h : incoming = some p) :
      Moved r incoming e .deliver (e.receive p)
  | handles {cause : ℕ} {event : Event} {needReply : Bool} {events : List (ℕ × Event × Bool)}
      {changed : Endpoint M} (ready : Bool)
      (hevents : e.events = (cause, event, needReply) :: events)
      (hchanged : changed = { e with events := events } ∨
        ∃ new, EventChange r event e.currentState new ∧
          changed = ({ e with events := events } : Endpoint M).setState r new (some cause)) :
      Moved r incoming e (.handleEvent ready)
        (if needReply ∨ r = .client then changed.send .ack else changed)

variable {e' : Endpoint M} {incoming : Option (Packet M)}

theorem executeAction_moved {found : List M} (h : e.executeAction r found = some e') :
    Moved r incoming e (.executeAction found) e' := by
  unfold executeAction at h
  cases hact : e.actions with
  | nil => rw [hact] at h; cases h
  | cons a rest =>
    rw [hact] at h
    cases a with
    | setState new cause =>
      cases h
      exact .sets hact ⟨rfl, rfl⟩ found
    | downloadChannelState =>
      cases h
      exact .sets hact ⟨rfl, rfl⟩ found
    | syncRemoteStates a =>
      cases h
      exact .syncs hact (executeSync_step r found a rest e)

theorem connectSubs_moved (hr : e.Sound r) (h : e.connectSubs r = some e') :
    Moved r incoming e .connectSubs e' := by
  unfold connectSubs at h
  cases hm : e.manager with
  | none => rw [hm] at h; cases h
  | some m =>
    simp only [hm] at h
    split at h
    · rename_i hdow
      have hzer : e.connections = 0 := by
        apply hr.links.mpr
        intro m' hm'
        rw [hm, Option.some.injEq] at hm'
        exact hm' ▸ hdow.1
      have he' : e' = { e with
          connections := 1
          manager := some { m with subsDisconnected := false }
          actions := e.actions ++ [firstAction r] } := by
        cases r <;>
          simpa [addConnection, hzer, enqueueAction, firstAction, eq_comm] using h
      rw [he']
      exact .connectsSubs hm hzer fun hc => by simpa using hdow.2 hc
    · cases h

theorem createManager_moved (h : e.createManager = some e') :
    Moved r incoming e .createManager e' := by
  unfold createManager at h
  cases hm : e.manager with
  | none =>
    rw [hm] at h
    cases h
    exact .creates hm
  | some m => rw [hm] at h; cases h

theorem connectSetup_moved {waiting : Bool} (h : e.connectSetup r waiting = some e') :
    Moved r incoming e (.connectSetup waiting) e' := by
  unfold connectSetup at h
  cases r with
  | client =>
    cases hm : e.manager with
    | none => rw [hm] at h; cases h
    | some m =>
      rw [hm] at h
      cases h
      exact .connectsSetup hm rfl waiting
  | server => cases h

theorem receive_moved (h : incoming.map e.receive = some e') : Moved r incoming e .deliver e' := by
  obtain ⟨p, hp, rfl⟩ := Option.map_eq_some_iff.mp h
  exact .receives hp

theorem handleEvent_moved {ready : Bool} (hcha : ∀ cause event needReply events taken,
      e.events = (cause, event, needReply) :: events → taken = { e with events := events } →
      taken.checkStateChange r ready event cause = taken ∨
        ∃ new, EventChange r event e.currentState new ∧
          taken.checkStateChange r ready event cause = taken.setState r new (some cause))
    (h : e.handleEvent r ready = some e') : Moved r incoming e (.handleEvent ready) e' := by
  unfold handleEvent at h
  cases heve : e.events with
  | nil => rw [heve] at h; cases h
  | cons x events =>
    obtain ⟨cause, event, needReply⟩ := x
    rw [heve] at h
    cases h
    exact .handles ready heve (hcha cause event needReply events _ heve rfl)

theorem ClientInvariant.moved {l : Move M} (h : e.ClientInvariant)
    (hawa : e.events ≠ [] → e.currentState ≠ .disconnected)
    (hmov : e.move .client incoming l = some e') : Moved .client incoming e l e' := by
  cases l with
  | createManager => exact createManager_moved hmov
  | connectSetup waiting => exact connectSetup_moved hmov
  | connectSubs => exact connectSubs_moved h.toSound hmov
  | checkCommunications =>
    cases hmov
    rcases checkCommunications_client h none with hsam | ⟨hcon, new, hnew, htab⟩
    · rw [hsam]
      exact .same _
    · rw [hnew]
      exact .connects rfl hcon htab
  | executeAction found => exact executeAction_moved hmov
  | deliver => exact receive_moved hmov
  | handleEvent ready =>
    refine handleEvent_moved (fun cause event needReply events taken heve htak => ?_) hmov
    have hsta : taken.currentState ≠ .disconnected := htak ▸ hawa (by simp [heve])
    rw [checkStateChange_client hsta ready event cause, show e.currentState = taken.currentState
      from htak ▸ rfl]
    exact clientStateChange_cases taken event cause

theorem ServerInvariant.taken (h : e.ServerInvariant) {x : ℕ × Event × Bool}
    {events : List (ℕ × Event × Bool)} (heve : e.events = x :: events) :
    ServerInvariant { e with events := events } := by
  have hrec : e.received ≠ [] := fun hr => by simp [(h.asleep hr).2.1] at heve
  exact ⟨⟨h.actions, h.packets, fun y hy => h.events y (heve ▸ List.mem_cons_of_mem x hy),
    h.links, h.idle⟩, h.setup, h.state, h.lobby, h.started, fun hr => absurd hr hrec⟩

theorem ServerInvariant.moved {l : Move M} (h : e.ServerInvariant)
    (hmov : e.move .server incoming l = some e') : Moved .server incoming e l e' := by
  cases l with
  | createManager => exact createManager_moved hmov
  | connectSetup waiting => exact connectSetup_moved hmov
  | connectSubs => exact connectSubs_moved h.toSound hmov
  | checkCommunications =>
    cases hmov
    rw [checkCommunications_server h.setup]
    exact .same _
  | executeAction found => exact executeAction_moved hmov
  | deliver => exact receive_moved hmov
  | handleEvent ready =>
    refine handleEvent_moved (fun cause event needReply events taken heve htak => ?_) hmov
    rw [checkStateChange_server (htak ▸ h.taken heve) ready event cause,
      show e.currentState = taken.currentState from htak ▸ rfl]
    exact serverStateChange_cases taken event cause

end Endpoint

end Clockwork.Channel
