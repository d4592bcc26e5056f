import Clockwork.ChannelMoves
import Mathlib.Data.List.Nodup

namespace Clockwork.Channel

open List Option Function

variable {M : Type}

def Action.cause : Action M → Option ℕ
  | setState _ cause => cause
  | downloadChannelState => none
  | syncRemoteStates _ => none

namespace Endpoint

variable (r : Role) (i : ℕ) (e : Endpoint M)

def causes : List ℕ :=
  e.events.map Prod.fst ++ e.replies ++ e.actions.filterMap Action.cause ++
    e.transitions.filterMap Transition.cause

def uses : ℕ := e.causes.count i

theorem uses_eq : e.uses i = (e.events.map Prod.fst).count i + e.replies.count i +
    (e.actions.filterMap Action.cause).count i +
    (e.transitions.filterMap Transition.cause).count i := by
  simp only [uses, causes, count_append]

theorem uses_send (p : Packet M) : (e.send p).uses i = e.uses i := rfl

theorem uses_enqueueAction (a : Action M) :
    (e.enqueueAction a).uses i = e.uses i + a.cause.toList.count i := by
  cases ha : a.cause <;>
    simp only [uses_eq, enqueueAction, filterMap_append, count_append,
      filterMap_cons, ha, filterMap_nil, toList] <;> omega

theorem uses_changeState (new : ChannelState) (cause : Option ℕ) :
    (e.changeState new cause).uses i ≤ e.uses i + cause.toList.count i := by
  unfold changeState
  split
  · exact Nat.le_add_right _ _
  · cases cause <;>
      simp only [uses_eq, filterMap_append, count_append, filterMap_cons,
        filterMap_nil, toList] <;> omega

theorem uses_setState {new : ChannelState} (cause : Option ℕ) (h : new ≠ .connected) :
    (e.setState r new cause).uses i ≤ e.uses i + cause.toList.count i := by
  unfold setState
  split
  · exact Nat.le_add_right _ _
  · have hcha := e.uses_changeState i new cause
    cases new <;> cases r <;> first
      | exact absurd rfl h
      | simpa [entered, uses_enqueueAction, uses_send, Action.cause] using hcha

theorem uses_setState_none (new : ChannelState) : (e.setState r new none).uses i ≤ e.uses i := by
  unfold setState
  split
  · exact Nat.le_refl _
  · have hcha := e.uses_changeState i new none
    cases new <;> cases r <;>
      simpa [entered, uses_enqueueAction, uses_send, Action.cause] using hcha

end Endpoint

namespace Endpoint

variable {r : Role} {e : Endpoint M}

theorem Sound.setState (h : e.Sound r) (hcon : e.connections ≠ 0) (new : ChannelState)
    (cause : Option ℕ) : (e.setState r new cause).Sound r := by
  obtain ⟨-, hact, hsen⟩ := setState_spec r new cause e hcon
  have hsam := sameSockets_setState r new cause e
  refine ⟨fun a ha => ?_, fun p hp => ?_, ?_, ?_, fun hzer => ?_⟩
  · rw [hact, mem_append] at ha
    rcases ha with ha | ha
    · exact h.actions a ha
    · split at ha
      · obtain rfl := mem_singleton.mp ha
        cases r <;> trivial
      · split at ha
        · rename_i hc
          obtain rfl := mem_singleton.mp ha
          obtain ⟨-, rfl⟩ := hc
          exact .inl rfl
        · cases ha
  · rw [hsen, mem_append] at hp
    rcases hp with hp | hp
    · exact h.packets p hp
    · split at hp
      · obtain rfl := mem_singleton.mp hp
        cases r
        · trivial
        · exact rfl
      · cases hp
  · rw [hsam.events, hsam.received]
    exact h.events
  · rw [hsam.connections, hsam.manager]
    exact h.links
  · exact absurd (hsam.connections ▸ hzer) hcon

theorem Sound.send (h : e.Sound r) {p : Packet M} (hp : p.Fits r) : (e.send p).Sound r := by
  refine ⟨h.actions, fun q hq => ?_, h.events, h.links, h.idle⟩
  rcases mem_append.mp hq with hq | hq
  · exact h.packets q hq
  · exact mem_singleton.mp hq ▸ hp

variable {a : Action M} {rest : List (Action M)} {found : List M} (i : ℕ)

theorem Sound.dequeued (h : e.Sound r) (hact : e.actions = a :: rest) :
    Sound r { e with actions := rest } := by
  have hcon := h.connected_of_mem (hact ▸ mem_cons_self)
  exact ⟨fun b hb => h.actions b (hact ▸ mem_cons_of_mem a hb), h.packets, h.events,
    h.links, fun hzer => absurd hzer hcon⟩

variable {events : List (ℕ × Event × Bool)} {x : ℕ × Event × Bool}

theorem Sound.taken (h : e.Sound r)
    (heve : e.events = x :: events) : Sound r { e with events := events } :=
  ⟨h.actions, h.packets, fun y hy => h.events y (heve ▸ mem_cons_of_mem x hy), h.links,
    h.idle⟩

theorem Sound.receive (h : e.Sound r) (p : Packet M) : (e.receive p).Sound r := by
  have hold : ∀ x ∈ e.events, .control x.2.1 x.2.2 ∈ e.received ++ [p] :=
    fun x hx => mem_append_left _ (h.events x hx)
  cases p with
  | command m => exact ⟨h.actions, h.packets, hold, h.links, h.idle⟩
  | control event needReply =>
    refine ⟨h.actions, h.packets, fun x hx => ?_, h.links, h.idle⟩
    rcases mem_append.mp hx with hx | hx
    · exact hold x hx
    · obtain rfl := mem_singleton.mp hx
      exact mem_append_right _ mem_cons_self
  | ack => exact ⟨h.actions, h.packets, hold, h.links, h.idle⟩

theorem Sound.syncStep {a : SyncAction M} {e' : Endpoint M} (h : e.Sound r)
    (hact : e.actions = .syncRemoteStates a :: rest) (hste : SyncStep r found a rest e e') :
    e'.Sound r := by
  have hres := h.dequeued hact
  have hcon := h.connected_of_mem (hact ▸ mem_cons_self)
  cases hste with
  | failed => exact hres
  | waits => exact h
  | @sends a' collected ms finished replies =>
    refine ⟨fun b hb => ?_, fun p hp => ?_, h.events, h.links, fun hzer => absurd hzer hcon⟩
    · rcases mem_cons.mp hb with rfl | hb
      · cases r <;> trivial
      · exact hres.actions b hb
    · rcases mem_append.mp hp with hp | hp
      · exact h.packets p hp
      · rcases mem_append.mp hp with hp | hp
        · obtain ⟨m, -, rfl⟩ := mem_map.mp hp
          cases r <;> trivial
        · cases finished
          · cases hp
          · obtain rfl := mem_singleton.mp hp
            cases r <;> exact rfl
  | acknowledged =>
    refine ⟨fun b hb => ?_, h.packets, h.events, h.links, fun hzer => absurd hzer hcon⟩
    rcases mem_append.mp hb with hb | hb
    · exact hres.actions b hb
    · obtain rfl := mem_singleton.mp hb
      cases r
      · exact .inr rfl
      · exact .inr rfl

variable {old new : ChannelState}

theorem EventChange.source_ne {event : Event}
    (h : EventChange r event old new) : old ≠ .disconnected := by
  cases h <;> exact ChannelState.noConfusion

theorem EventChange.target {event : Event}
    (h : EventChange r event old new) : new = .uploading ∨ new = .active := by
  cases h
  · exact .inl rfl
  · exact .inr rfl
  · exact .inl rfl
  · exact .inr rfl
  · exact .inr rfl

theorem executeSetState_spec (r : Role) (new : ChannelState) (cause : Option ℕ)
    (e : Endpoint M) (h : e.connections ≠ 0) : (e.executeSetState r new cause).currentState = new ∧
      (e.executeSetState r new cause = e ∨
        e.executeSetState r new cause = e.setState r new cause) := by
  unfold executeSetState
  split
  · exact ⟨‹_›, .inl rfl⟩
  · exact ⟨(setState_spec r new cause e h).1, .inr rfl⟩

theorem sameSockets_executeSetState (r : Role) (new : ChannelState) (cause : Option ℕ)
    (e : Endpoint M) : SameSockets e (e.executeSetState r new cause) := by
  unfold executeSetState
  split
  · exact ⟨rfl, rfl, rfl, rfl, rfl, rfl⟩
  · exact sameSockets_setState r new cause e

theorem actions_executeSetState (r : Role) (new : ChannelState) (cause : Option ℕ)
    (e : Endpoint M) (hcon : e.connections ≠ 0) (hconn : new ≠ .connected)
    (hupl : new ≠ .uploading) : (e.executeSetState r new cause).actions = e.actions := by
  unfold executeSetState
  split
  · rfl
  · rw [(setState_spec r new cause e hcon).2.1]
    simp [hconn, hupl]

theorem sent_executeSetState (r : Role) (new : ChannelState) (cause : Option ℕ)
    (e : Endpoint M) (hcon : e.connections ≠ 0) (hdow : new ≠ .downloading) :
    (e.executeSetState r new cause).sent = e.sent := by
  unfold executeSetState
  split
  · rfl
  · rw [(setState_spec r new cause e hcon).2.2]
    simp [hdow]

variable {incoming : Option (Packet M)} {l : Move M} {e' : Endpoint M}

theorem Sound.step (h : e.Sound r) (hmov : Moved r incoming e l e') : e'.Sound r := by
  cases hmov with
  | same => exact h
  | creates hm =>
    exact ⟨h.actions, h.packets, h.events, by simpa [hm] using h.links, h.idle⟩
  | connectsSetup hm =>
    exact ⟨h.actions, h.packets, h.events, by simpa [hm] using h.links, h.idle⟩
  | connectsSubs hm hzer =>
    refine ⟨fun a ha => ?_, h.packets, h.events, by simp, fun hone => absurd hone Nat.one_ne_zero⟩
    rcases mem_append.mp ha with ha | ha
    · exact h.actions a ha
    · obtain rfl := mem_singleton.mp ha
      cases r
      · trivial
      · exact .inl rfl
  | connects _ hcon => exact h.setState hcon _ _
  | @sets a rest new cause hact hset =>
    have hcon := h.connected_of_mem (hact ▸ mem_cons_self)
    have hres := h.dequeued hact
    rcases (executeSetState_spec r new cause { e with actions := rest } hcon).2 with hs | hs
    · rw [hs]
      exact hres
    · rw [hs]
      exact hres.setState hcon new cause
  | syncs hact hste => exact h.syncStep hact hste
  | receives => exact h.receive _
  | @handles cause event needReply events changed ready heve hcha =>
    have hsou : changed.Sound r := by
      rcases hcha with rfl | ⟨new, hchn, rfl⟩
      · exact h.taken heve
      · exact (h.taken heve).setState (h.connected hchn.source_ne) _ _
    split
    · exact hsou.send (by cases r <;> trivial)
    · exact hsou

theorem handled_frame (changed : Endpoint M) (condition : Prop) [Decidable condition] :
    (if condition then changed.send .ack else changed).currentState = changed.currentState ∧
      (if condition then changed.send .ack else changed).actions = changed.actions ∧
      SameSockets changed (if condition then changed.send .ack else changed) := by
  split <;> exact ⟨rfl, rfl, rfl, rfl, rfl, rfl, rfl, rfl⟩

theorem Moved.links (h : e.Sound .client) (hmov : Moved .client incoming e l e') :
    e'.manager = e.manager ∧ e'.connections = e.connections ∨ e'.connections = 0 ∨ e'.SetupUp := by
  cases hmov with
  | creates hm => exact .inr (.inl (h.links.mpr (by simp [hm])))
  | connectsSetup => exact .inr (.inr ⟨_, rfl, rfl⟩)
  | connectsSubs _ _ hcli => exact .inr (.inr ⟨_, rfl, hcli rfl⟩)
  | same => exact .inl ⟨rfl, rfl⟩
  | @connects new =>
    have hsam := sameSockets_setState .client new none e
    exact .inl ⟨hsam.manager, hsam.connections⟩
  | @sets a rest new cause =>
    have hsam := sameSockets_executeSetState .client new cause { e with actions := rest }
    exact .inl ⟨hsam.manager, hsam.connections⟩
  | syncs _ hste => cases hste <;> exact .inl ⟨rfl, rfl⟩
  | @receives p => cases p <;> exact .inl ⟨rfl, rfl⟩
  | @handles cause event needReply events changed ready heve hcha =>
    have hsam := (handled_frame changed (needReply = true ∨ Role.client = .client)).2.2
    rw [hsam.manager, hsam.connections]
    rcases hcha with rfl | ⟨new, -, rfl⟩
    · exact .inl ⟨rfl, rfl⟩
    · have hset := sameSockets_setState .client new (some cause) { e with events := events }
      exact .inl ⟨hset.manager, hset.connections⟩

theorem ClientInvariant.step (h : e.ClientInvariant)
    (hawa : e.events ≠ [] → e.currentState ≠ .disconnected)
    (hmov : Moved .client incoming e l e') : e'.ClientInvariant := by
  refine ⟨h.toSound.step hmov, fun hcon => ?_, ?_⟩
  · rcases hmov.links h.toSound with ⟨hm, hc⟩ | hc | hup
    · obtain ⟨m, hsom, hup⟩ := h.setup (hc ▸ hcon)
      exact ⟨m, hm.trans hsom, hup⟩
    · exact absurd hc hcon
    · exact hup
  · cases hmov with
    | same | creates | connectsSetup => exact h.quiet
    | connectsSubs =>
      intro hsta
      obtain ⟨hsen, hact⟩ := h.quiet hsta
      refine ⟨hsen, fun a ha => ?_⟩
      rcases mem_append.mp ha with ha | ha
      · exact hact a ha
      · cases mem_singleton.mp ha
    | @connects new _ hcon hnew =>
      intro hsta
      rw [(setState_spec .client new none e hcon).1] at hsta
      rcases hnew with ⟨rfl, -⟩ | ⟨rfl, -⟩ <;> cases hsta
    -- the queue holds no change to `DISCONNECTED`
    | @sets a rest new cause hact hset =>
      intro hsta
      have hcon := h.connected_of_mem (hact ▸ mem_cons_self)
      have hnew :=
        (executeSetState_spec .client new cause { e with actions := rest } hcon).1
      have hfit := h.actions a (hact ▸ mem_cons_self)
      rw [hnew] at hsta
      subst hsta
      cases a with
      | setState new' cause' =>
        obtain ⟨rfl, -⟩ := hset
        rcases hfit with hfit | hfit <;> cases hfit
      | downloadChannelState => cases hset.1
      | syncRemoteStates a => cases hset
    -- an upload is queued by an event, and so only after the client has left `DISCONNECTED`
    | syncs hact hste =>
      intro hsta
      have hmem : .syncRemoteStates _ ∈ e.actions := hact ▸ mem_cons_self
      cases hste <;> exact absurd hmem ((h.quiet hsta).2 _)
    | @receives p => cases p <;> exact h.quiet
    | @handles cause event needReply events changed ready heve hcha =>
      intro hsta
      have hold := hawa (by simp [heve])
      rw [(handled_frame changed (needReply = true ∨ Role.client = .client)).1] at hsta
      rcases hcha with rfl | ⟨new, hchn, rfl⟩
      · exact absurd hsta hold
      · rw [(setState_spec .client new (some cause) { e with events := events }
          (h.connected hold)).1] at hsta
        subst hsta
        rcases hchn.target with htar | htar <;> cases htar

section

variable (h : e.ServerInvariant)

include h

theorem ServerInvariant.actions_ne {a : SyncAction M}
    (ha : .syncRemoteStates a ∈ e.actions) : e.currentState ≠ .disconnected := by
  intro hsta
  rw [h.lobby hsta (h.connected_of_mem ha)] at ha
  cases mem_singleton.mp ha

variable {new : ChannelState} {cause : Option ℕ}

theorem ServerInvariant.sets_cases (hact : e.actions = a :: rest) (hset : Sets a new cause) :
    new = .waitStart ∧ e.currentState = .disconnected ∧ rest = [] ∨
      new = .downloading ∧ e.currentState ≠ .disconnected := by
  have hmem : a ∈ e.actions := hact ▸ mem_cons_self
  by_cases hsta : e.currentState = .disconnected
  · have hlob := h.lobby hsta (h.connected_of_mem hmem)
    rw [hact, cons.injEq] at hlob
    obtain ⟨rfl, rfl⟩ := hlob
    exact .inl ⟨hset.1, hsta, rfl⟩
  · cases a with
    | setState new' cause' =>
      obtain ⟨rfl, rfl⟩ := hset
      rcases h.actions _ hmem with rfl | rfl
      · exact absurd hmem (h.started hsta _)
      · exact .inr ⟨rfl, hsta⟩
    | downloadChannelState => exact absurd (h.actions _ hmem) id
    | syncRemoteStates a => cases hset

theorem ServerInvariant.setState (hold : e.currentState ≠ .disconnected)
    (hnew : new = .uploading ∨ new = .active) (hrec : e.received ≠ []) :
    (e.setState .server new cause).ServerInvariant := by
  obtain ⟨hsta, hact, -⟩ := setState_spec .server new cause e (h.connected hold)
  have hsam := sameSockets_setState .server new cause e
  refine ⟨h.toSound.setState (h.connected hold) new cause, ?_, ?_, fun hd => ?_, fun _ c hc => ?_,
    fun hr => absurd (hsam.received ▸ hr) hrec⟩
  · rw [hsam.manager]
    exact h.setup
  · rcases hnew with rfl | rfl <;> simp [hsta]
  · rcases hnew with rfl | rfl <;> simp [hsta] at hd
  · rw [hact] at hc
    rcases mem_append.mp hc with hc | hc
    · exact h.started hold c hc
    · rcases hnew with rfl | rfl <;> simp at hc

theorem ServerInvariant.received_ne (ha : a ∈ e.actions)
    (hsta : e.currentState ≠ .disconnected) : e.received ≠ [] := by
  intro hr
  rcases (h.asleep hr).2.2.2 with hd | ⟨-, hnil⟩
  · exact hsta hd
  · rw [hnil] at ha
    cases ha

theorem ServerInvariant.sets (hact : e.actions = a :: rest) (hses : Sets a new cause)
    (hsou : (executeSetState .server new cause { e with actions := rest }).Sound .server) :
    (executeSetState .server new cause { e with actions := rest }).ServerInvariant := by
  have hmem : a ∈ e.actions := hact ▸ mem_cons_self
  have hcon := h.connected_of_mem hmem
  have hsta :=
    (executeSetState_spec .server new cause { e with actions := rest } hcon).1
  have hsam := sameSockets_executeSetState .server new cause { e with actions := rest }
  have hset : ∀ m, (executeSetState .server new cause { e with actions := rest }).manager =
      some m → m.setupDisconnected = true := by
    rw [hsam.manager]
    exact h.setup
  rcases h.sets_cases hact hses with ⟨rfl, hold, rfl⟩ | ⟨rfl, hold⟩
  · have hnil := actions_executeSetState .server .waitStart cause
      { e with actions := [] } hcon (by decide) (by decide)
    have hkep := sent_executeSetState .server .waitStart cause
      { e with actions := [] } hcon (by decide)
    refine ⟨hsou, hset, by simp [hsta], by simp [hsta], by simp [hnil], fun hr => ?_⟩
    obtain ⟨hsen, heve, hrep, -⟩ := h.asleep (hsam.received ▸ hr)
    exact ⟨hkep.trans hsen, hsam.events.trans heve, hsam.replies.trans hrep, .inr ⟨hsta, hnil⟩⟩
  · have hres := actions_executeSetState .server .downloading cause
      { e with actions := rest } hcon (by decide) (by decide)
    refine ⟨hsou, hset, by simp [hsta], by simp [hsta], fun _ c hc => ?_, fun hr => ?_⟩
    · rw [hres] at hc
      exact h.started hold c (hact ▸ mem_cons_of_mem a hc)
    · exact absurd (hsam.received ▸ hr) (h.received_ne hmem hold)

theorem ServerInvariant.syncStep {a : SyncAction M} (hact : e.actions = .syncRemoteStates a :: rest)
    (hste : SyncStep .server found a rest e e') : e'.ServerInvariant := by
  have hsou := h.toSound.syncStep hact hste
  have hmem : .syncRemoteStates a ∈ e.actions := hact ▸ mem_cons_self
  have hsta := h.actions_ne hmem
  have hawa := h.received_ne hmem hsta
  have hres : ∀ c, .setState .waitStart c ∉ rest := fun c hc =>
    h.started hsta c (hact ▸ mem_cons_of_mem _ hc)
  cases hste with
  | failed _ hd => exact absurd hd hsta
  | waits => exact h
  | sends =>
    refine ⟨hsou, h.setup, h.state, fun hd => absurd hd hsta, fun _ c hc => ?_,
      fun hr => absurd hr hawa⟩
    rcases mem_cons.mp hc with hc | hc
    · cases hc
    · exact hres c hc
  | acknowledged =>
    refine ⟨hsou, h.setup, h.state, fun hd => absurd hd hsta, fun _ c hc => ?_,
      fun hr => absurd hr hawa⟩
    rcases mem_append.mp hc with hc | hc
    · exact hres c hc
    · cases mem_singleton.mp hc

theorem ServerInvariant.step (hmov : Moved .server incoming e l e') : e'.ServerInvariant := by
  have hsou := h.toSound.step hmov
  cases hmov with
  | same => exact h
  | creates =>
    refine ⟨hsou, fun m hm => ?_, h.state, h.lobby, h.started, h.asleep⟩
    exact some.inj hm ▸ rfl
  | connectsSetup _ hr => cases hr
  | @connectsSubs m hm hzer =>
    obtain ⟨hsta, hact⟩ := h.idle hzer
    refine ⟨hsou, fun m' hm' => ?_, h.state, fun _ _ => ?_, fun hne => absurd hsta hne,
      fun hr => ?_⟩
    · cases hm'
      exact h.setup m hm
    · simp [hact, firstAction]
    · obtain ⟨hsen, heve, hrep, -⟩ := h.asleep hr
      exact ⟨hsen, heve, hrep, .inl hsta⟩
  | connects hr => cases hr
  | sets hact hset => exact h.sets hact hset hsou
  | syncs hact hste => exact h.syncStep hact hste
  | @receives p =>
    have hne : e.received ++ [p] ≠ [] := by simp
    cases p <;> exact ⟨hsou, h.setup, h.state, h.lobby, h.started, fun hr => absurd hr hne⟩
  | @handles cause event needReply events changed ready heve hcha =>
    have hawa : e.received ≠ [] := fun hr => by simp [(h.asleep hr).2.1] at heve
    have hcha : changed.ServerInvariant ∧ changed.received ≠ [] := by
      rcases hcha with rfl | ⟨new, hchn, rfl⟩
      · exact ⟨h.taken heve, hawa⟩
      · have hsam := sameSockets_setState .server new (some cause) { e with events := events }
        refine ⟨(h.taken heve).setState hchn.source_ne hchn.target hawa, ?_⟩
        rw [hsam.received]
        exact hawa
    split
    · obtain ⟨hinv, hrec⟩ := hcha
      exact ⟨hinv.toSound.send trivial, hinv.setup, hinv.state, hinv.lobby, hinv.started,
        fun hr => absurd hr hrec⟩
    · exact hcha.1

end

theorem uses_dequeued (hact : e.actions = a :: rest) :
    ({ e with actions := rest } : Endpoint M).uses i + a.cause.toList.count i = e.uses i := by
  cases ha : a.cause <;>
    simp only [uses_eq, hact, filterMap_cons, ha, toList, count_cons, count_nil] <;> omega

theorem uses_taken (heve : e.events = x :: events) :
    ({ e with events := events } : Endpoint M).uses i + [x.1].count i = e.uses i := by
  simp only [uses_eq, heve, map_cons, count_cons, count_nil]
  omega

theorem uses_syncStep {a : SyncAction M} (hact : e.actions = .syncRemoteStates a :: rest)
    (hste : SyncStep r found a rest e e') : e'.uses i ≤ e.uses i := by
  have hres := uses_dequeued i hact
  cases hste with
  | failed => omega
  | waits => exact Nat.le_refl _
  -- replies may be dropped, and what is sent has no cause
  | sends _ hrep =>
    have hcou := hrep.count_le i
    simp only [uses_eq, Action.cause, filterMap_cons, hact] at *
    omega
  | acknowledged _ hrep =>
    simp only [uses_eq, Action.cause, filterMap_append, filterMap_cons, filterMap_nil, count_append,
      count_cons, count_nil, hrep, hact] at *
    omega

theorem uses_receive (e : Endpoint M) (p : Packet M) (i : ℕ) :
    (e.receive p).uses i ≤ e.uses i + [e.received.length].count i := by
  cases p <;>
    simp only [uses_eq, receive, map_append, map_cons, map_nil, count_append] <;>
    omega

theorem uses_executeSetState (r : Role) (new : ChannelState) (cause : Option ℕ)
    (e : Endpoint M) (i : ℕ) (h : new = .connected → cause = none) :
    (e.executeSetState r new cause).uses i ≤ e.uses i + cause.toList.count i := by
  unfold executeSetState
  split
  · exact Nat.le_add_right _ _
  · by_cases hnew : new = .connected
    · rw [h hnew]
      exact uses_setState_none r i e new
    · exact uses_setState r i e cause hnew

theorem Moved.uses_le (h : e.Sound r) (hmov : Moved r incoming e l e') :
    (e'.received = e.received ∧ ∀ i, e'.uses i ≤ e.uses i) ∨
      ∃ p, incoming = some p ∧ e' = e.receive p := by
  cases hmov with
  | same | creates | connectsSetup => exact .inl ⟨rfl, fun i => Nat.le_refl _⟩
  | connectsSubs =>
    refine .inl ⟨rfl, fun i => ?_⟩
    have hfir := uses_enqueueAction i e (firstAction r)
    have hnon : (firstAction r : Action M).cause = none := by cases r <;> rfl
    rw [hnon] at hfir
    exact hfir.le
  | @connects new =>
    exact .inl ⟨(sameSockets_setState r new none e).received, fun i => uses_setState_none r i e new⟩
  | @sets a rest new cause hact hses =>
    refine .inl ⟨(sameSockets_executeSetState r new cause _).received, fun i => ?_⟩
    have hres := uses_dequeued i hact
    have hfit := h.actions a (hact ▸ mem_cons_self)
    have hset := uses_executeSetState r new cause { e with actions := rest } i
    cases a with
    | setState new' cause' =>
      obtain ⟨rfl, rfl⟩ := hses
      refine (hset fun hnew => ?_).trans hres.le
      subst hnew
      cases r <;> rcases hfit with hfit | hfit <;> cases hfit
    | downloadChannelState =>
      obtain ⟨rfl, rfl⟩ := hses
      exact (hset fun _ => rfl).trans hres.le
    | syncRemoteStates a => cases hses
  | syncs hact hste =>
    refine .inl ⟨?_, fun i => uses_syncStep i hact hste⟩
    cases hste <;> rfl
  | @receives p hp => exact .inr ⟨p, hp, rfl⟩
  | @handles cause event needReply events changed ready heve hcha =>
    have hcha : changed.received = e.received ∧ ∀ i, changed.uses i ≤ e.uses i := by
      rcases hcha with rfl | ⟨new, hchn, rfl⟩
      · refine ⟨rfl, fun i => ?_⟩
        have htak := uses_taken i heve
        omega
      · refine ⟨(sameSockets_setState r new (some cause) _).received, fun i => ?_⟩
        have htak := uses_taken i heve
        have hne : new ≠ .connected := by
          rcases hchn.target with rfl | rfl <;> decide
        exact (uses_setState r i _ (some cause) hne).trans htak.le
    split <;> exact .inl hcha

theorem sent_setState (r : Role) (new : ChannelState) (cause : Option ℕ) (e : Endpoint M) :
    e.sent <+: (e.setState r new cause).sent := by
  rcases setState_cases r new cause e with ⟨h, -⟩ | h
  · rw [h]
  · have hsen := (changeState_spec new cause e).2.2
    rw [h]
    cases new <;> cases r <;> simp [entered, enqueueAction, send, hsen]

theorem Moved.sent_prefix (hmov : Moved r incoming e l e') : e.sent <+: e'.sent := by
  cases hmov with
  | same | creates | connectsSetup | connectsSubs => exact prefix_refl _
  | @connects new => exact sent_setState r new none e
  | @sets a rest new cause =>
    unfold executeSetState
    split
    · exact prefix_refl _
    · exact sent_setState r new cause { e with actions := rest }
  | syncs hact hste =>
    cases hste with
    | sends => exact prefix_append _ _
    | _ => exact prefix_refl _
  | @receives p => cases p <;> exact prefix_refl _
  | @handles cause event needReply events changed ready heve hcha =>
    have hcha : e.sent <+: changed.sent := by
      rcases hcha with rfl | ⟨new, -, rfl⟩
      · exact prefix_refl _
      · exact sent_setState r new (some cause) { e with events := events }
    split
    · exact hcha.trans (prefix_append _ _)
    · exact hcha

end Endpoint

structure Invariant (s : System M) : Prop where
  client : (s .client).ClientInvariant
  server : (s .server).ServerInvariant
  link : ∀ r, (s r).received <+: (s r.partner).sent
  causes : ∀ r i, (s r).uses i ≤ if i < (s r).received.length then 1 else 0

theorem Role.partner_ne (r : Role) : r.partner ≠ r := by
  cases r <;> exact nofun

theorem Role.partner_of_ne {r r' : Role} (h : r' ≠ r) : r'.partner = r := by
  cases r <;> cases r'
  · exact absurd rfl h
  · rfl
  · rfl
  · exact absurd rfl h

variable {s t : System M} {r : Role} {l : Move M}

theorem start_invariant : Invariant (start : System M) where
  client :=
    ⟨⟨nofun, nofun, nofun, by simp [start], by simp [start]⟩, by simp [start], by simp [start]⟩
  server :=
    ⟨⟨nofun, nofun, nofun, by simp [start], by simp [start]⟩, by simp [start], by simp [start],
      by simp [start], by simp [start], by simp [start]⟩
  link r := prefix_refl _
  causes r i := by simp [start, Endpoint.uses_eq]

theorem Invariant.awake (h : Invariant s) (heve : (s .client).events ≠ []) :
    (s .client).currentState ≠ .disconnected := by
  intro hsta
  obtain ⟨x, hx⟩ := exists_mem_of_ne_nil _ heve
  -- event at the client, packet from the server, packet from the client: none is there before
  -- the client is connected
  have hser : (s .server).sent ≠ [] :=
    ne_nil_of_mem ((h.link .client).subset (h.client.events x hx))
  have hrec : (s .server).received ≠ [] := fun hr => hser (h.server.asleep hr).1
  obtain ⟨p, hp⟩ := exists_mem_of_ne_nil _ hrec
  exact ne_nil_of_mem ((h.link .server).subset hp) (h.client.quiet hsta).1

theorem Invariant.sound (h : Invariant s) (r : Role) : (s r).Sound r := by
  cases r
  · exact h.client.toSound
  · exact h.server.toSound

theorem Invariant.moved (h : Invariant s) (hste : Step s (r, l) t) :
    ∃ e', Endpoint.Moved r (Link.next (s r.partner).sent (s r).received) (s r) l e' ∧
      t = update s r e' := by
  obtain ⟨e', hmov, rfl⟩ := map_eq_some_iff.mp hste
  refine ⟨e', ?_, rfl⟩
  cases r
  · exact h.client.moved h.awake hmov
  · exact h.server.moved hmov

theorem received_receive (e : Endpoint M) (p : Packet M) :
    (e.receive p).received = e.received ++ [p] := by
  cases p <;> rfl

theorem Invariant.step (h : Invariant s) (hste : Step s (r, l) t) : Invariant t := by
  obtain ⟨e', hmov, rfl⟩ := h.moved hste
  have hhis := hmov.uses_le (h.sound r)
  refine ⟨?_, ?_, fun r' => ?_, fun r' i => ?_⟩
  · cases r with
    | client => exact h.client.step h.awake hmov
    | server => exact h.client
  · cases r with
    | client => exact h.server
    | server => exact h.server.step hmov
  · by_cases hr : r' = r
    · subst hr
      rw [update_self, update_of_ne r'.partner_ne]
      rcases hhis with ⟨hrec, -⟩ | ⟨p, hp, rfl⟩
      · rw [hrec]
        exact h.link r'
      · rw [received_receive]
        exact Link.prefix_of_next (h.link r') hp
    -- the other endpoint received nothing new, and the mover only sent more
    · have hoth := Role.partner_of_ne hr
      rw [update_of_ne hr, hoth, update_self]
      exact (hoth ▸ h.link r').trans hmov.sent_prefix
  · by_cases hr : r' = r
    · subst hr
      rw [update_self]
      have hold := h.causes r' i
      rcases hhis with ⟨hrec, huse⟩ | ⟨p, -, rfl⟩
      · rw [hrec]
        exact (huse i).trans hold
      · have hnew := Endpoint.uses_receive (s r') p i
        rw [received_receive, length_append]
        grind
    · rw [update_of_ne hr]
      exact h.causes r' i

theorem transitions_nodup {ls : List (Role × Move M)} (run : Runs.Run Step start ls t) (r : Role) :
    ((t r).transitions.filterMap Transition.cause).Nodup := by
  have hinv : Invariant t := run.invariant (fun s l t h => h.step) start_invariant
  rw [nodup_iff_count_le_one]
  intro i
  have huse := hinv.causes r i
  rw [Endpoint.uses_eq] at huse
  split at huse <;> omega

end Clockwork.Channel
