import Clockwork.ChannelRuns

namespace Clockwork.Channel

open List Clockwork.Channel.Action Packet

variable {M : Type}

abbrev Packet.done : Packet M := control .done true

def Action.upload : Action M → Option (SyncAction M)
  | syncRemoteStates a => some a
  | setState _ _ => none
  | downloadChannelState => none

structure Outbox (M : Type) where
  uploads : List (SyncAction M)
  sent : List (Packet M)
  collected : List M

def Endpoint.outbox (e : Endpoint M) : Outbox M :=
  ⟨e.actions.filterMap Action.upload, e.sent, e.collected⟩

namespace Outbox

def Quiet (o : Outbox M) : Prop := ∀ a ∈ o.uploads, a.processState = .waitingAck

instance (o : Outbox M) : Decidable o.Quiet :=
  inferInstanceAs (Decidable (∀ a ∈ o.uploads, a.processState = .waitingAck))

structure Fresh (o : Outbox M) : Prop where
  uploads : o.uploads = []
  collected : o.collected = []
  messages : o.sent.filterMap Packet.message = []
  pending : .done ∉ o.sent

structure Busy (o : Outbox M) (a : SyncAction M) : Prop where
  uploads : o.uploads = [a]
  unsent : a.processState ≠ .waitingAck
  first : a.processState = .init → a.messages = []
  messages : o.sent.filterMap Packet.message ++ a.messages = o.collected
  pending : .done ∉ o.sent

structure Finished (o : Outbox M) : Prop where
  quiet : o.Quiet
  messages : o.sent.filterMap Packet.message = o.collected
  done : .done ∈ o.sent
  closes : Link.Closes Packet.message .done o.sent

end Outbox

inductive Stage where
  | before
  | during
  | after
deriving DecidableEq, Repr

def stage : Role → ChannelState → Stage
  | _, .uploading => .during
  | _, .active => .after
  | .server, .downloading => .after
  | _, _ => .before

namespace Outbox

def At : Stage → Outbox M → Prop
  | .before, o => o.Fresh
  | .during, o => (∃ a, o.Busy a) ∨ o.Finished
  | .after, o => o.Finished

variable {o : Outbox M} {st : Stage}

theorem At.finished (h : o.At st) (hdon : .done ∈ o.sent) : o.Finished := by
  cases st with
  | before => exact absurd hdon h.pending
  | during =>
    rcases h with ⟨a, h⟩ | h
    · exact absurd hdon h.pending
    · exact h
  | after => exact h

theorem At.busy (h : o.At st) {a : SyncAction M} (ha : a ∈ o.uploads)
    (huns : a.processState ≠ .waitingAck) : st = .during ∧ o.Busy a := by
  cases st with
  | before =>
    rw [h.uploads] at ha
    cases ha
  | during =>
    rcases h with ⟨b, h⟩ | h
    · rw [h.uploads, mem_singleton] at ha
      exact ⟨rfl, ha ▸ h⟩
    · exact absurd (h.quiet a ha) huns
  | after => exact absurd (h.quiet a ha) huns

theorem At.finished_of_waiting (h : o.At st) {a : SyncAction M} (ha : a ∈ o.uploads)
    (hwai : a.processState = .waitingAck) : o.Finished := by
  cases st with
  | before =>
    rw [h.uploads] at ha
    cases ha
  | during =>
    rcases h with ⟨b, h⟩ | h
    · rw [h.uploads, mem_singleton] at ha
      exact absurd (ha ▸ hwai) h.unsent
    · exact h
  | after => exact h

theorem messages_send (ps : List (Packet M)) {p : Packet M} (hp : p.message = none) :
    (ps ++ [p]).filterMap message = ps.filterMap message := by
  rw [filterMap_append, filterMap_cons_none hp, filterMap_nil, append_nil]

theorem At.send (h : o.At st) {p : Packet M} (hp : p.message = none) (hdon : p ≠ .done) :
    Outbox.At st { o with sent := o.sent ++ [p] } := by
  have hmes := messages_send o.sent hp
  have hpen : .done ∉ o.sent → .done ∉ o.sent ++ [p] := fun hs hmem =>
    (mem_append.mp hmem).elim hs fun hmem => hdon (mem_singleton.mp hmem).symm
  have hfin : o.Finished → Outbox.Finished { o with sent := o.sent ++ [p] } := fun h =>
    ⟨h.quiet, hmes.trans h.messages, mem_append_left _ h.done, h.closes.concat fun _ => hp⟩
  cases st with
  | before => exact ⟨h.uploads, h.collected, hmes.trans h.messages, hpen h.pending⟩
  | during =>
    rcases h with ⟨a, h⟩ | h
    · exact .inl ⟨a, h.uploads, h.unsent, h.first, by rw [hmes]; exact h.messages,
        hpen h.pending⟩
    · exact .inr (hfin h)
  | after => exact hfin h

theorem Finished.sendDone (h : o.Finished) : Outbox.Finished { o with sent := o.sent ++ [.done] } :=
  ⟨h.quiet, (messages_send o.sent rfl).trans h.messages, mem_append_left _ h.done,
    h.closes.concat fun _ => rfl⟩

theorem Finished.dequeue (h : o.Finished) {uploads : List (SyncAction M)}
    (hsub : uploads ⊆ o.uploads) : Outbox.Finished { o with uploads := uploads } :=
  ⟨fun a ha => h.quiet a (hsub ha), h.messages, h.done, h.closes⟩

theorem At.of_finished {o' : Outbox M} (h : o.At st) (hold : o.Finished) (hnew : o'.Finished) :
    o'.At st := by
  cases st with
  | before => exact absurd hold.done h.pending
  | during => exact .inr hnew
  | after => exact hnew

theorem Busy.sends {a a' : SyncAction M} {ms collected : List M} {finished : Bool}
    (h : o.Busy a) (hmes : a.messages ++ collected = ms ++ a'.messages)
    (hfin : if finished then a'.processState = .waitingAck ∧ a'.messages = []
      else a'.processState = .sendingMessages) :
    Outbox.At .during ⟨[a'], o.sent ++ (ms.map .command ++ if finished then [.done] else []),
      o.collected ++ collected⟩ := by
  have hcom : (ms.map command).filterMap message = ms := by
    rw [filterMap_map]
    exact filterMap_some
  have hsen : (o.sent ++ ms.map command).filterMap message ++ a'.messages =
      o.collected ++ collected := by
    rw [filterMap_append, hcom, ← h.messages, append_assoc, append_assoc, hmes]
  have hpen : .done ∉ o.sent ++ ms.map command := by
    intro hmem
    rcases mem_append.mp hmem with hmem | hmem
    · exact h.pending hmem
    · obtain ⟨m, -, hm⟩ := mem_map.mp hmem
      cases hm
  rw [← append_assoc]
  -- the `done` follows only when no message is left
  cases finished with
  | false =>
    refine .inl ⟨a', rfl, by simp_all, by simp_all, ?_, ?_⟩
    · simpa using hsen
    · simpa using hpen
  | true =>
    obtain ⟨hwai, hnon⟩ := hfin
    rw [hnon, append_nil] at hsen
    refine .inr ⟨fun b hb => ?_, (messages_send _ rfl).trans hsen, by simp, ?_⟩
    · rw [mem_singleton.mp hb]
      exact hwai
    · exact (Link.closes_of_not_mem hpen).concat fun _ => rfl

theorem Fresh.begin (h : o.Fresh) : Outbox.Busy { o with uploads := o.uploads ++ [{}] } {} :=
  ⟨by simp [h.uploads], nofun, fun _ => rfl, by simp [h.messages, h.collected], h.pending⟩

end Outbox

def Action.restarts : Action M → Bool
  | setState new _ => new = .downloading
  | downloadChannelState => true
  | syncRemoteStates _ => false

namespace Endpoint

/-- An endpoint that is uploading takes an event only after its own `done`, a server takes no
`status` between the start of its upload and its activation, and a client that is uploading or
active is not taken back by an action that was queued earlier. -/
def Orderly (r : Role) (e : Endpoint M) : Move M → Prop
  | .handleEvent _ =>
    (e.currentState = .uploading → e.outbox.Quiet) ∧
      (r = .server → e.currentState = .uploading ∨ e.currentState = .downloading →
        ∀ x ∈ e.events.head?, x.2.1 = .done)
  | .executeAction _ =>
    r = .client → e.currentState = .uploading ∨ e.currentState = .active →
      ∀ a ∈ e.actions.head?, a.restarts = false
  | _ => True

instance (r : Role) (e : Endpoint M) (l : Move M) : Decidable (e.Orderly r l) :=
  match l with
  | .handleEvent _ => inferInstanceAs (Decidable ((_ → _) ∧ (_ → _ → ∀ x ∈ e.events.head?, _)))
  | .executeAction _ => inferInstanceAs (Decidable (_ → _ → ∀ a ∈ e.actions.head?, _))
  | .createManager | .connectSetup _ | .connectSubs | .checkCommunications | .deliver =>
    inferInstanceAs (Decidable True)

def HasHeard : Role → ChannelState → Prop
  | .client, st => st = .uploading ∨ st = .active
  | .server, st => st = .active

structure Handshake (r : Role) (e : Endpoint M) : Prop where
  stage : e.outbox.At (stage r e.currentState)
  queued : ∀ cause, .setState (uploaded r) cause ∈ e.actions → e.outbox.Finished
  heard : HasHeard r e.currentState → .done ∈ e.received

variable {r : Role} {e e' : Endpoint M} {l : Move M} {incoming : Option (Packet M)}

theorem Handshake.congr (h : e.Handshake r) (hsta : e'.currentState = e.currentState)
    (hact : e'.actions = e.actions) (hsen : e'.sent = e.sent)
    (hcol : e'.collected = e.collected) (hrec : e.received <+: e'.received) : e'.Handshake r := by
  have hout : e'.outbox = e.outbox := by rw [outbox, outbox, hact, hsen, hcol]
  refine ⟨?_, fun cause hc => ?_, fun hh => ?_⟩
  · rw [hout, hsta]
    exact h.stage
  · rw [hout]
    exact h.queued cause (hact ▸ hc)
  · exact hrec.subset (h.heard (hsta ▸ hh))

theorem Handshake.sendAck (h : e.Handshake r) : (e.send .ack).Handshake r where
  stage := h.stage.send rfl nofun
  queued cause hc :=
    (show Outbox.At .after e.outbox from h.queued cause hc).send rfl nofun
  heard := h.heard

theorem outbox_setState (r : Role) (new : ChannelState) (cause : Option ℕ) (e : Endpoint M)
    (h : e.connections ≠ 0) : (e.setState r new cause).outbox =
      ⟨e.outbox.uploads ++ (if new = .uploading then [({} : SyncAction M)] else []),
        e.outbox.sent ++ (if new = .downloading then
          [if r = .client then .control .status false else .done] else []),
        e.outbox.collected⟩ := by
  obtain ⟨-, hact, hsen⟩ := setState_spec r new cause e h
  rw [outbox, hact, hsen, (sameSockets_setState r new cause e).collected]
  cases new <;> cases r <;> simp [outbox, upload]

variable {new : ChannelState} {cause : Option ℕ} {rest : List (Action M)} {a : Action M}

theorem queued_setState {cause c : Option ℕ} (hcon : e.connections ≠ 0)
    (h : .setState (uploaded r) c ∈ (e.setState r new cause).actions) :
    .setState (uploaded r) c ∈ e.actions := by
  rw [(setState_spec r new cause e hcon).2.1] at h
  rcases mem_append.mp h with h | h
  · exact h
  · cases r <;> cases new <;> simp [uploaded] at h

theorem Handshake.setState_before (h : e.Handshake r) (hfre : e.outbox.Fresh)
    (hcon : e.connections ≠ 0) (hnew : Channel.stage r new = .before) :
    (e.setState r new cause).Handshake r := by
  have hsta := (setState_spec r new cause e hcon).1
  have hout := outbox_setState r new cause e hcon
  have hsen : Outbox.At .before (e.setState r new cause).outbox := by
    have hbef : e.outbox.At .before := hfre
    rw [hout]
    cases new with
    | uploading => cases r <;> cases hnew
    | active => cases r <;> cases hnew
    | downloading =>
      cases r with
      | client => simpa using hbef.send (p := .control .status false) rfl nofun
      | server => cases hnew
    | _ => simpa using hbef
  refine ⟨?_, fun c hc => ?_, fun hh => ?_⟩
  · rw [hsta, hnew]
    exact hsen
  · exact absurd (h.queued c (queued_setState hcon hc)).done hfre.pending
  · cases r <;> cases new <;> simp_all [HasHeard, Channel.stage]

theorem Handshake.setState_uploading (h : e.Handshake r) (hfre : e.outbox.Fresh)
    (hcon : e.connections ≠ 0) (hhea : HasHeard r .uploading → .done ∈ e.received) :
    (e.setState r .uploading cause).Handshake r := by
  have hsta := (setState_spec r .uploading cause e hcon).1
  have hout := outbox_setState r .uploading cause e hcon
  refine ⟨?_, fun c hc => ?_, fun hh => ?_⟩
  · rw [hsta, hout]
    exact .inl ⟨{}, by simpa using hfre.begin⟩
  · exact absurd (h.queued c (queued_setState hcon hc)).done hfre.pending
  · rw [(sameSockets_setState r .uploading cause e).received]
    exact hhea (hsta ▸ hh)

theorem Handshake.setState_after (hfin : e.outbox.Finished)
    (hcon : e.connections ≠ 0) (hnew : Channel.stage r new = .after)
    (hhea : HasHeard r new → .done ∈ e.received) : (e.setState r new cause).Handshake r := by
  have hsta := (setState_spec r new cause e hcon).1
  have hsen : (e.setState r new cause).outbox.Finished := by
    rw [outbox_setState r new cause e hcon]
    cases new with
    | downloading =>
      cases r with
      | client => cases hnew
      | server => simpa using hfin.sendDone
    | active => simpa using hfin
    | _ => cases r <;> cases hnew
  refine ⟨?_, fun _ _ => hsen, fun hh => ?_⟩
  · rw [hsta, hnew]
    exact hsen
  · rw [(sameSockets_setState r new cause e).received]
    exact hhea (hsta ▸ hh)

theorem uploads_cons {a : SyncAction M} (hact : e.actions = .syncRemoteStates a :: rest) :
    e.outbox.uploads = a :: rest.filterMap upload := by
  rw [outbox, hact]
  rfl

theorem Handshake.syncStep {found : List M} {a : SyncAction M} (h : e.Handshake r)
    (hact : e.actions = .syncRemoteStates a :: rest) (hste : SyncStep r found a rest e e') :
    e'.Handshake r := by
  have hupl := uploads_cons hact
  have ha : a ∈ e.outbox.uploads := hupl ▸ mem_cons_self
  cases hste with
  | waits => exact h
  | failed hini hstt =>
    obtain ⟨hsta, -⟩ := h.stage.busy ha (by simp [hini])
    rw [hstt] at hsta
    cases r <;> cases hsta
  | @acknowledged cause replies hwai hrep =>
    have hfin := h.stage.finished_of_waiting ha hwai
    have hres : Outbox.Finished ⟨rest.filterMap upload, e.sent, e.collected⟩ :=
      hfin.dequeue fun b hb => hupl ▸ mem_cons_of_mem a hb
    have hnew : Outbox.Finished
        ⟨(rest ++ [Action.setState (uploaded r) (some cause)]).filterMap Action.upload, e.sent,
          e.collected⟩ := by
      rw [filterMap_append, filterMap_cons_none rfl, filterMap_nil, append_nil]
      exact hres
    exact ⟨h.stage.of_finished hfin hnew, fun _ _ => hnew, h.heard⟩
  | @sends a' collected ms finished replies hpro hrep hfin =>
    have huns : a.processState ≠ .waitingAck := by
      rcases hpro with ⟨hp, -⟩ | ⟨hp, -⟩ <;> simp [hp]
    obtain ⟨hsta, hbus⟩ := h.stage.busy ha huns
    have hmes : a.messages ++ collected = ms ++ a'.messages := by
      rcases hpro with ⟨hp, -, rfl, hms⟩ | ⟨-, rfl, hms⟩
      · rw [hbus.first hp, nil_append, hms]
      · rw [append_nil, hms]
    have hnon : rest.filterMap upload = [] := by
      have hone := hbus.uploads
      rw [hupl] at hone
      exact (cons.inj hone).2
    have hsen := hbus.sends hmes hfin
    -- no state change can be waiting for this upload yet
    refine ⟨?_, fun c hc => ?_, h.heard⟩
    · change Outbox.At (Channel.stage r e.currentState)
        ⟨a' :: rest.filterMap upload, _, _⟩
      rw [hsta, hnon]
      exact hsen
    · have hold : .setState (uploaded r) c ∈ e.actions := by
        rcases mem_cons.mp hc with hc | hc
        · cases hc
        · exact hact ▸ mem_cons_of_mem _ hc
      exact absurd (h.queued c hold).done hbus.pending

theorem Handshake.sets (h : e.Handshake r) (hsou : e.Sound r) (hact : e.actions = a :: rest)
    (hset : Sets a new cause) (hbac : Channel.stage r new = .before → e.outbox.Fresh)
    (hon : Channel.stage r new ≠ .before → Channel.stage r new = .after ∧ e.outbox.Finished ∧
      (HasHeard r new → .done ∈ e.received)) :
    (({ e with actions := rest } : Endpoint M).executeSetState r new cause).Handshake r := by
  have hcon := hsou.connected_of_mem (hact ▸ mem_cons_self)
  have hnon : a.upload = none := by
    cases a with
    | syncRemoteStates a => cases hset
    | _ => rfl
  have hout : ({ e with actions := rest } : Endpoint M).outbox = e.outbox := by
    rw [outbox, outbox, hact, filterMap_cons_none hnon]
  have hres : Handshake r { e with actions := rest } := by
    refine ⟨?_, fun c hc => ?_, h.heard⟩
    · rw [hout]
      exact h.stage
    · rw [hout]
      exact h.queued c (hact ▸ mem_cons_of_mem a hc)
  rcases (executeSetState_spec r new cause { e with actions := rest } hcon).2 with hs | hs
  · rw [hs]
    exact hres
  · rw [hs]
    by_cases hnew : Channel.stage r new = .before
    · exact hres.setState_before (hout ▸ hbac hnew) hcon hnew
    · obtain ⟨haft, hfin, hhea⟩ := hon hnew
      exact Handshake.setState_after (hout ▸ hfin) hcon haft hhea

theorem done_mem {ps : List (Packet M)} {needReply : Bool}
    (hmem : .control .done needReply ∈ ps) (hfis : ∀ p ∈ ps, p.Fits r) : .done ∈ ps := by
  have hnee : needReply = true := by
    have hfit := hfis _ hmem
    cases r <;> exact hfit
  subst hnee
  exact hmem

theorem Handshake.finished_of_quiet (h : e.Handshake r) (hstt : e.currentState = .uploading)
    (hqui : e.outbox.Quiet) : e.outbox.Finished := by
  have hdur : Channel.stage r e.currentState = .during := by
    rw [hstt]
    cases r <;> rfl
  have hsta := h.stage
  rw [hdur] at hsta
  rcases hsta with ⟨a, hbus⟩ | hfin
  · exact absurd (hqui a (hbus.uploads ▸ mem_singleton_self a)) hbus.unsent
  · exact hfin

theorem Handshake.changes {event : Event} {needReply : Bool} {old new : ChannelState}
    (h : e.Handshake r) (hcon : e.connections ≠ 0) (hold : e.currentState = old)
    (hcha : EventChange r event old new) (hqui : old = .uploading → e.outbox.Quiet)
    (hser : r = .server → old = .uploading ∨ old = .downloading → event = .done)
    (heve : .control event needReply ∈ e.received) (hfit : ∀ p ∈ e.received, p.Fits r.partner) :
    (e.setState r new cause).Handshake r := by
  have hsta := h.stage
  have hhea := h.heard
  rw [hold] at hsta hhea
  cases hcha with
  | clientUploads =>
    refine h.setState_uploading hsta hcon fun _ => ?_
    -- a server sends no `status`
    cases event with
    | status => exact absurd (hfit _ heve) id
    | done => exact done_mem heve hfit
  | clientActive =>
    exact setState_after (h.finished_of_quiet hold (hqui rfl)) hcon rfl
      fun _ => hhea (.inl rfl)
  | serverUploads => exact h.setState_uploading hsta hcon nofun
  | serverUploaded =>
    obtain rfl := hser rfl (.inl rfl)
    exact setState_after (h.finished_of_quiet hold (hqui rfl)) hcon rfl
      fun _ => done_mem heve hfit
  | serverDownloaded =>
    obtain rfl := hser rfl (.inr rfl)
    exact setState_after hsta hcon rfl fun _ => done_mem heve hfit

theorem Handshake.sets_client (h : e.Handshake .client) (hsou : e.Sound .client)
    (hact : e.actions = a :: rest) (hset : Sets a new cause)
    (hord : e.currentState = .uploading ∨ e.currentState = .active → a.restarts = false) :
    (({ e with actions := rest } : Endpoint M).executeSetState .client new cause).Handshake
      .client := by
  have hmem : a ∈ e.actions := hact ▸ mem_cons_self
  -- this is where a change that was queued at connection time would start a second upload
  have hbef : a.restarts = true → e.outbox.Fresh := by
    intro hres
    have hstg := h.stage
    cases hsta : e.currentState with
    | uploading => simp [hord (.inl hsta)] at hres
    | active => simp [hord (.inr hsta)] at hres
    | _ => simpa [hsta, Channel.stage, Outbox.At] using hstg
  cases a with
  | downloadChannelState =>
    obtain ⟨rfl, rfl⟩ := hset
    exact h.sets hsou hact ⟨rfl, rfl⟩ (fun _ => hbef rfl) fun hne => absurd rfl hne
  | syncRemoteStates a => cases hset
  | setState new' cause' =>
    obtain ⟨rfl, rfl⟩ := hset
    rcases hsou.actions _ hmem with rfl | rfl
    · exact h.sets hsou hact ⟨rfl, rfl⟩ (fun _ => hbef rfl) fun hne => absurd rfl hne
    · have hfin := h.queued _ hmem
      refine h.sets hsou hact ⟨rfl, rfl⟩ nofun fun _ => ⟨rfl, hfin, fun _ => ?_⟩
      apply h.heard
      have hstg := h.stage
      cases hsta : e.currentState with
      | uploading => exact .inl rfl
      | active => exact .inr rfl
      | _ =>
        rw [hsta] at hstg
        exact absurd hfin.done hstg.pending

theorem Handshake.sets_server (h : e.Handshake .server) (hinv : e.ServerInvariant)
    (hact : e.actions = a :: rest) (hset : Sets a new cause) :
    (({ e with actions := rest } : Endpoint M).executeSetState .server new cause).Handshake
      .server := by
  have hmem : a ∈ e.actions := hact ▸ mem_cons_self
  rcases hinv.sets_cases hact hset with ⟨rfl, hstt, -⟩ | ⟨rfl, -⟩
  · have hsta := h.stage
    rw [hstt] at hsta
    exact h.sets hinv.toSound hact hset (fun _ => hsta) fun hne => absurd rfl hne
  · have hfin : e.outbox.Finished := by
      cases a with
      | setState new' cause' =>
        obtain ⟨rfl, rfl⟩ := hset
        exact h.queued _ hmem
      | downloadChannelState => exact absurd (hinv.actions _ hmem) id
      | syncRemoteStates a => cases hset
    exact h.sets hinv.toSound hact hset nofun fun _ => ⟨rfl, hfin, nofun⟩

end Endpoint

variable {s t : System M} {r : Role} {l : Move M}

theorem Invariant.fits (h : Invariant s) (r : Role) : ∀ p ∈ (s r).received, p.Fits r.partner :=
  fun p hp => (h.sound r.partner).packets p ((h.link r).subset hp)

theorem handshake_moved {e' : Endpoint M} {incoming : Option (Packet M)} (hinv : Invariant s)
    (h : (s r).Handshake r) (hmov : Endpoint.Moved r incoming (s r) l e')
    (hord : (s r).Orderly r l) : e'.Handshake r := by
  have hsou := hinv.sound r
  cases hmov with
  | same => exact h
  | creates | connectsSetup => exact h.congr rfl rfl rfl rfl (prefix_refl _)
  | @connectsSubs m hm hzer =>
    have hout : ((s r).actions ++ [Endpoint.firstAction r]).filterMap upload =
        (s r).actions.filterMap upload := by
      cases r <;> simp [Endpoint.firstAction, upload]
    refine ⟨?_, fun c hc => ?_, h.heard⟩
    · have hstg := h.stage
      rw [Endpoint.outbox, ← hout] at hstg
      exact hstg
    · rcases mem_append.mp hc with hc | hc
      · rw [(hsou.idle hzer).2] at hc
        cases hc
      · cases r <;> cases mem_singleton.mp hc
  | @connects new hr hcon hnew =>
    subst hr
    have hstg := h.stage
    rcases hnew with ⟨rfl, hsta⟩ | ⟨rfl, hsta | hsta⟩ <;> rw [hsta] at hstg <;>
      exact h.setState_before hstg hcon rfl
  | sets hact hset =>
    cases r with
    | client =>
      refine h.sets_client hsou hact hset fun hsta => ?_
      exact hord rfl hsta _ (by rw [hact]; rfl)
    | server => exact h.sets_server hinv.server hact hset
  | syncs hact hste => exact h.syncStep hact hste
  | @receives p =>
    have hrec : (s r).received <+: ((s r).receive p).received :=
      received_receive (s r) p ▸ prefix_append _ _
    cases p <;> exact h.congr rfl rfl rfl rfl hrec
  | @handles cause event needReply events changed ready heve hcha =>
    obtain ⟨hqui, hser⟩ := hord
    have htak : Endpoint.Handshake r { s r with events := events } :=
      h.congr rfl rfl rfl rfl (prefix_refl _)
    have hcha : changed.Handshake r := by
      rcases hcha with rfl | ⟨new, hchn, rfl⟩
      · exact htak
      · refine htak.changes (hsou.connected hchn.source_ne) rfl hchn hqui ?_
          (hsou.events (cause, event, needReply) (heve ▸ mem_cons_self)) (hinv.fits r)
        intro hr hsta
        exact hser hr hsta _ (by rw [heve]; rfl)
    split
    · exact hcha.sendAck
    · exact hcha

def Orderly (s : System M) (l : Role × Move M) : Prop := (s l.1).Orderly l.1 l.2

instance (s : System M) (l : Role × Move M) : Decidable (Orderly s l) :=
  inferInstanceAs (Decidable ((s l.1).Orderly l.1 l.2))

structure Shaken (s : System M) : Prop where
  invariant : Invariant s
  handshake : ∀ r, (s r).Handshake r

theorem start_shaken : Shaken (start : System M) where
  invariant := start_invariant
  handshake r := by
    refine ⟨?_, nofun, ?_⟩
    · cases r <;> exact ⟨rfl, rfl, rfl, nofun⟩
    · cases r <;> intro h
      · rcases h with h | h <;> cases h
      · cases h

theorem Shaken.step (h : Shaken s) (hste : Step s (r, l) t) (hord : Orderly s (r, l)) :
    Shaken t := by
  refine ⟨h.invariant.step hste, fun r' => ?_⟩
  obtain ⟨e', hmov, rfl⟩ := h.invariant.moved hste
  by_cases hr : r' = r
  · subst hr
    rw [Function.update_self]
    exact handshake_moved h.invariant (h.handshake r') hmov hord
  · rw [Function.update_of_ne hr]
    exact h.handshake r'

/-- The endpoint has sent all its messages and then its `done`, and has received all those of
its partner and then the partner's `done`. -/
structure Synchronised (s : System M) (r : Role) : Prop where
  quiet : (s r).outbox.Quiet
  sent : Link.Completes Packet.message .done (s r).collected (s r).sent
  partner_quiet : (s r.partner).outbox.Quiet
  received : Link.Completes Packet.message .done (s r.partner).collected (s r).received

theorem Shaken.synchronised (h : Shaken s) (hact : (s r).currentState = .active) :
    Synchronised s r := by
  have hown : (s r).outbox.Finished := by
    have hsta := (h.handshake r).stage
    rw [hact] at hsta
    cases r <;> exact hsta
  have hdon : .done ∈ (s r).received := by
    apply (h.handshake r).heard
    rw [hact]
    cases r
    · exact .inr rfl
    · exact rfl
  have hlin := h.invariant.link r
  -- who has sent a `done` has finished its upload
  have hpar := (h.handshake r.partner).stage.finished (hlin.subset hdon)
  refine ⟨hown.quiet, ?_, hpar.quiet, ?_⟩
  · have hsen := hown.closes.completes rfl (prefix_refl _) hown.done
    rwa [hown.messages] at hsen
  · have hrec := hpar.closes.completes rfl hlin hdon
    rwa [hpar.messages] at hrec

/-- In every run in which events and actions come in order, an endpoint is active only after
both sides have sent and received everything, and no packet causes two transitions. -/
theorem active_after_handshake {ls : List (Role × Move M)}
    (run : Runs.Run (Runs.Guarded Step fun s l _ => Orderly s l) start ls t) (r : Role) :
    ((t r).currentState = .active → Synchronised t r) ∧
      ((t r).transitions.filterMap Transition.cause).Nodup := by
  have hsha : Shaken t :=
    run.invariant (fun s l t h hste => h.step hste.1 hste.2) start_shaken
  exact ⟨hsha.synchronised, transitions_nodup run.of_guarded r⟩

def serverUpload : List (Role × Move ℕ) :=
  [(.client, .createManager), (.server, .createManager), (.client, .connectSetup false),
    (.client, .connectSubs), (.server, .connectSubs), (.server, .executeAction []),
    (.client, .executeAction []), (.client, .executeAction []),
    (.server, .deliver), (.server, .handleEvent true), (.server, .executeAction [7]),
    (.client, .deliver), (.client, .deliver), (.client, .handleEvent true)]

def secondDone : List (Role × Move ℕ) :=
  [(.server, .deliver), (.server, .executeAction []), (.server, .executeAction []),
    (.client, .deliver), (.client, .handleEvent true)]

/-- The client sends its messages `8` and `9` first, and the server takes them. -/
def orderlyRun : List (Role × Move ℕ) :=
  serverUpload ++ [(.client, .executeAction [8, 9]), (.client, .executeAction [])] ++ secondDone ++
    [(.server, .deliver), (.server, .deliver), (.server, .deliver), (.server, .handleEvent true)]

theorem both_active_after_handshake :
    ∃ t, Runs.Run (Runs.Guarded Step fun s l _ => Orderly s l) start orderlyRun t ∧
      (t .client).currentState = .active ∧ (t .server).currentState = .active ∧
      Synchronised t .client ∧ Synchronised t .server := by
  have hact : (Runs.execute (Runs.guardedNext next Orderly) start orderlyRun).any (fun t =>
      (t .client).currentState = .active ∧ (t .server).currentState = .active) = true := by decide
  obtain ⟨t, ht, hsta⟩ := (Option.any_eq_true _ _).mp hact
  obtain ⟨hcli, hser⟩ := of_decide_eq_true hsta
  have hrun := Runs.run_guarded_of_execute ht
  exact ⟨t, hrun, hcli, hser, (active_after_handshake hrun .client).1 hcli,
    (active_after_handshake hrun .server).1 hser⟩

/-- The second `done` makes the client active before its upload has sent anything. -/
theorem client_active_before_upload :
    ∃ t, Runs.Run Step (start : System ℕ) (serverUpload ++ secondDone) t ∧
      (t .client).currentState = .active ∧ .done ∉ (t .client).sent ∧ ¬Synchronised t .client := by
  have hact : (Runs.execute next start (serverUpload ++ secondDone)).any (fun t =>
      (t .client).currentState = .active ∧ .done ∉ (t .client).sent) = true := by decide
  obtain ⟨t, ht, hsta⟩ := (Option.any_eq_true _ _).mp hact
  obtain ⟨hcli, hsen⟩ := of_decide_eq_true hsta
  refine ⟨t, Runs.run_of_execute ht, hcli, hsen, fun h => ?_⟩
  obtain ⟨n, -, hn, -⟩ := h.sent
  exact hsen (mem_of_getElem? hn)

end Clockwork.Channel
