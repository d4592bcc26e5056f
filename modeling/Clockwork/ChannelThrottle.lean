import Clockwork.Library.NestedMap

namespace Clockwork.ChannelThrottle

open Std List Option NestedMap

inductive ChannelState where
  | active | disconnected
  | other
deriving DecidableEq, Repr

structure Manager where
  setupDone : Bool
  disconnected : Bool
deriving DecidableEq, Repr

structure Status where
  state : ChannelState
  manager : Option Manager
  mif : Bool
deriving DecidableEq, Repr

structure MachineClass where
  localProperties : String → Bool
  propertyNames : String → Bool

/-- A channel and what it sees of the machines, which are numbered. -/
structure Channel where
  reportPropertyChanges : Bool
  reportLocalPropertyChanges : Bool
  reportModbusUpdates : Bool
  isPublisher : Bool
  isClient : Bool
  authority : ℕ
  throttleTime : ℕ
  interfaceFor : ℕ → Option (String → Bool)
  member : ℕ → Bool
  filtersAllow : ℕ → Bool
  stateMachine : ℕ → Option MachineClass
  isShadow : ℕ → Bool
  owned : ℕ → Bool
  needsThrottle : ℕ → Bool

/-- A `PROPERTY` message; a publisher sends no authority. -/
structure Message (V : Type) where
  machine : ℕ
  key : String
  value : V
  authority : Option ℕ
deriving DecidableEq, Repr

structure State (V : Type) where
  items : NestedMap ℕ String V
  sent : List (Message V)

inductive Event (V : Type) where
  | sendPropertyChange (st : Status) (machine : ℕ) (key : String) (val : V) (authority : ℕ)
  /-- `Channel::sendModbusUpdate`, which shares the records -/
  | sendModbusUpdate (st : Status) (machine : ℕ) (name : String) (val : V)
  | sendThrottledUpdates (st : Status)
  | sendPropertyChanges (st : Status) (machine : ℕ)

namespace Channel

variable {V : Type} (c : Channel)

def propertyIsLocal (m : ℕ) (key : String) : Bool :=
  (c.stateMachine m).any fun k => k.localProperties key

def ready (manager : Manager) : Bool := !c.isClient || manager.setupDone

variable (st : Status)

/-- What is sent where the assertion on the interface does not fail (see `stops`). -/
def sendPropertyChangeMessage (m : ℕ) (key : String) (val : V) (auth : ℕ) : Option (Message V) :=
  if c.reportLocalPropertyChanges || c.propertyIsLocal m key then none
  else
    match st.manager with
    | some manager =>
      if c.isPublisher then
        if c.ready manager then some ⟨m, key, val, none⟩ else none
      else if c.isShadow m && c.owned m then
        -- authorised changes are not reflected to the owner
        if auth ≠ 0 then none
        else if !(c.stateMachine m).any fun k => k.propertyNames key then none
        else if c.ready manager then some ⟨m, key, val, some auth⟩ else none
      else if (c.interfaceFor m).any fun names => !names key then none
      else if c.ready manager then some ⟨m, key, val, some c.authority⟩ else none
    | none => if st.mif then some ⟨m, key, val, none⟩ else none

def reports (m : ℕ) (key : String) : Bool :=
  c.reportLocalPropertyChanges || (c.stateMachine m).any fun k => !k.localProperties key

def report (m : ℕ) (key : String) (val : V) (auth : ℕ) : Option (Message V) :=
  if c.reports m key then c.sendPropertyChangeMessage st m key val auth else none

def accepts (m : ℕ) (key : String) : Bool :=
  !c.propertyIsLocal m key && c.reportPropertyChanges && st.state == .active && c.member m &&
    c.filtersAllow m

def throttled (m : ℕ) : Bool := c.throttleTime != 0 && c.needsThrottle m

def flush (entries : List (ℕ × String × V)) : List (Message V) :=
  if c.reportPropertyChanges then entries.filterMap fun e => c.report st e.1 e.2.1 e.2.2 0 else []

def flushesAll : Bool :=
  st.state == .active && st.manager.any fun manager => !manager.disconnected

def flushesMachine (m : ℕ) : Bool :=
  st.state != .disconnected && (c.reportModbusUpdates || c.reportPropertyChanges) && c.member m &&
    c.throttleTime != 0 && c.filtersAllow m

def record (items : NestedMap ℕ String V) (m : ℕ) : List (ℕ × String × V) :=
  items.entries.filter fun e => e.1 == m

def step (s : State V) : Event V → State V
  | .sendPropertyChange st m key val auth =>
    if c.accepts st m key then
      if c.throttled m then { s with items := s.items.insert (m, key, val) }
      else { s with sent := s.sent ++ (c.report st m key val auth).toList }
    else s
  | .sendModbusUpdate st m name val =>
    if st.state ≠ .disconnected ∧ c.reportModbusUpdates ∧ c.throttled m then
      { s with items := s.items.insert (m, name, val) }
    else s
  | .sendThrottledUpdates st =>
    if flushesAll st then ⟨∅, s.sent ++ c.flush st s.items.entries⟩ else s
  | .sendPropertyChanges st m =>
    if c.flushesMachine st m then
      ⟨TreeMap.erase s.items m, s.sent ++ c.flush st (record s.items m)⟩
    else s

def run (events : List (Event V)) : State V := events.foldl c.step ⟨∅, []⟩

/-- The assertion of `sendPropertyChangeMessage` fails: a machine that only monitors name or
pattern brought to the channel has no interface. -/
def stops (m : ℕ) (key : String) : Bool :=
  !(c.reportLocalPropertyChanges || c.propertyIsLocal m key) && st.manager.isSome &&
    !c.isPublisher && !(c.isShadow m && c.owned m) && (c.interfaceFor m).isNone

def stopsFlush (entries : List (ℕ × String × V)) : Bool :=
  c.reportPropertyChanges && entries.any fun e => c.reports e.1 e.2.1 && c.stops st e.1 e.2.1

def stopsAt (s : State V) : Event V → Bool
  | .sendPropertyChange st m key _ _ =>
    c.accepts st m key && !c.throttled m && c.reports m key && c.stops st m key
  | .sendModbusUpdate _ _ _ _ => false
  | .sendThrottledUpdates st => flushesAll st && c.stopsFlush st s.items.entries
  | .sendPropertyChanges st m => c.flushesMachine st m && c.stopsFlush st (record s.items m)

/-- A call, which does not return if it meets a failing assertion. -/
def call (s : State V) (e : Event V) : Option (State V) :=
  if c.stopsAt s e then none else some (c.step s e)

def calls (events : List (Event V)) : Option (State V) := events.foldlM c.call ⟨∅, []⟩

def unthrottled : Channel := { c with throttleTime := 0 }

end Channel

def lastMessage {V : Type} (sent : List (Message V)) (m : ℕ) (key : String) : Option (Message V) :=
  (sent.filter fun msg => msg.machine == m && msg.key == key).getLast?

section Property

variable {V : Type} (c : Channel) (m : ℕ) (key : String)

def flushMessage (st : Status) (val : V) : Option (Message V) :=
  if c.reportPropertyChanges then c.report st m key val 0 else none

theorem lastMessage_append (a b : List (Message V)) :
    lastMessage (a ++ b) m key = (lastMessage b m key).or (lastMessage a m key) := by
  unfold lastMessage
  rw [filter_append, getLast?_append]

open Channel

theorem message_key {st : Status} {val : V} {auth : ℕ} {msg : Message V}
    (h : c.sendPropertyChangeMessage st m key val auth = some msg) :
    msg.machine = m ∧ msg.key = key := by
  unfold sendPropertyChangeMessage at h
  cases hman : st.manager with
  | none =>
    simp only [hman] at h
    split_ifs at h
    cases h
    exact ⟨rfl, rfl⟩
  | some manager =>
    simp only [hman] at h
    split_ifs at h
    all_goals
      cases h
      exact ⟨rfl, rfl⟩

theorem report_key {st : Status} {val : V} {auth : ℕ} {msg : Message V}
    (h : c.report st m key val auth = some msg) : msg.machine = m ∧ msg.key = key := by
  unfold report at h
  split_ifs at h
  exact message_key c m key h

theorem lastMessage_toList {m' : ℕ} {key' : String} (st : Status) (val : V) (auth : ℕ) :
    lastMessage (c.report st m' key' val auth).toList m key =
      if m' = m ∧ key' = key then c.report st m key val auth else none := by
  cases h : c.report st m' key' val auth with
  | none =>
    split_ifs with hkey
    · obtain ⟨rfl, rfl⟩ := hkey
      exact h.symm
    · rfl
  | some msg =>
    obtain ⟨hm, hk⟩ := report_key c m' key' h
    unfold lastMessage
    by_cases hkey : m' = m ∧ key' = key
    · obtain ⟨rfl, rfl⟩ := hkey
      simp [hm, hk, h]
    · rw [if_neg hkey]
      simp [hm, hk, hkey]

theorem lastMessage_flush (st : Status) {entries : List (ℕ × String × V)} (waiting : Option V)
    (h : ∀ val, (m, key, val) ∈ entries ↔ waiting = some val) :
    lastMessage (c.flush st entries) m key = waiting.bind (flushMessage c m key st) := by
  unfold flushMessage flush
  by_cases hrep : c.reportPropertyChanges = true
  · simp only [hrep, if_true]
    have hmem (msg : Message V) :
        msg ∈ (entries.filterMap fun e => c.report st e.1 e.2.1 e.2.2 0).filter
            (fun msg => msg.machine == m && msg.key == key) ↔
          waiting.bind (fun val => c.report st m key val 0) = some msg := by
      rw [mem_filter, mem_filterMap, bind_eq_some_iff]
      constructor
      · rintro ⟨⟨⟨m', key', val⟩, hent, hsen⟩, hkey⟩
        obtain ⟨hm, hk⟩ := report_key c m' key' hsen
        simp only [hm, hk, Bool.and_eq_true, beq_iff_eq] at hkey
        obtain ⟨rfl, rfl⟩ := hkey
        exact ⟨val, (h val).mp hent, hsen⟩
      · rintro ⟨val, hval, hsen⟩
        obtain ⟨hm, hk⟩ := report_key c m key hsen
        exact ⟨⟨(m, key, val), (h val).mpr hval, hsen⟩, by simp [hm, hk]⟩
    unfold lastMessage
    ext msg
    rw [← hmem]
    constructor
    · exact fun hlas => mem_of_getLast? hlas
    · intro hmsg
      obtain ⟨last, hlas⟩ := isSome_iff_exists.mp
        (getLast?_isSome.mpr (ne_nil_of_mem hmsg))
      have hbot := ((hmem last).mp (mem_of_getLast? hlas)).symm.trans ((hmem msg).mp hmsg)
      rw [hlas, hbot]
  · simp [hrep, lastMessage]

theorem mem_record_iff (items : NestedMap ℕ String V) (m' : ℕ) (val : V) :
    (m, key, val) ∈ record items m' ↔ m = m' ∧ items.value? m key = some val := by
  unfold record
  rw [mem_filter, mem_entries_iff, beq_iff_eq, and_comm]

end Property

namespace Channel

variable {V : Type} (c : Channel)

/-- The channel is active and connected, and its subscriber is set up. -/
def Up (st : Status) : Prop :=
  st.state = .active ∧ ∃ manager, st.manager = some manager ∧ manager.disconnected = false ∧
    c.ready manager = true

def OwnShadow (m : ℕ) : Prop := c.isPublisher = false ∧ c.isShadow m = true ∧ c.owned m = true

def Defined (m : ℕ) : Prop :=
  c.isPublisher = true ∨ c.OwnShadow m ∨ (c.interfaceFor m).isSome = true

/-- A change that is accepted is made while the channel is up, of a machine with an interface, and
if it is throttled not by the owner of the shadow. No value is recorded for Modbus only, and what
flushes does so while the channel is up. -/
def Calm : Event V → Prop
  | .sendPropertyChange st m key _ auth => c.accepts st m key = true →
      c.Up st ∧ c.Defined m ∧ (c.throttled m = true → c.OwnShadow m → auth = 0)
  | .sendModbusUpdate st m _ _ =>
      ¬(st.state ≠ .disconnected ∧ c.reportModbusUpdates = true ∧ c.throttled m = true)
  | .sendThrottledUpdates st => flushesAll st = true → c.Up st
  | .sendPropertyChanges st m => c.flushesMachine st m = true → c.Up st

variable {c} {V : Type} {st st' : Status} {m : ℕ} {key : String}

theorem stops_of_defined (h : c.Defined m) : c.stops st m key = false := by
  rcases h with h | ⟨-, hsha, hown⟩ | h
  · simp [stops, h]
  · simp [stops, hsha, hown]
  · simp [stops, isNone_eq_false_iff.mpr h]

theorem stopsFlush_of_defined {entries : List (ℕ × String × V)}
    (h : ∀ e ∈ entries, c.Defined e.1) : c.stopsFlush st entries = false := by
  unfold stopsFlush
  rw [Bool.and_eq_false_iff, List.any_eq_false]
  refine .inr fun e he => ?_
  simp [stops_of_defined (h e he)]

/-- While the channel is up the message depends on the authority only for a shadow of its own. -/
theorem report_of_up (h : c.Up st) (h' : c.Up st') {auth : ℕ} (hauth : c.OwnShadow m → auth = 0)
    (val : V) : c.report st m key val auth = c.report st' m key val 0 := by
  obtain ⟨-, manager, hman, -, hrea⟩ := h
  obtain ⟨-, manager', hman', -, hrea'⟩ := h'
  unfold OwnShadow at hauth
  unfold report sendPropertyChangeMessage
  grind

theorem report_eq_none (val val' : V) (auth : ℕ) (h : c.report st m key val auth = none) :
    c.report st m key val' auth = none := by
  unfold report sendPropertyChangeMessage at *
  cases hman : st.manager <;> simp only [hman] at h ⊢ <;> grind

end Channel

section Runs

open Channel

variable {V : Type} {c : Channel} {s t : State V}

/-- What waits in the records of the channel is all that it has not sent yet of what it sends
without throttling. -/
structure Behind (c : Channel) (up : Status) (s t : State V) : Prop where
  waiting : ∀ m key, (s.items.value? m key).isSome = true → c.throttled m = true ∧ c.Defined m
  empty : t.items = ∅
  last : ∀ m key, lastMessage t.sent m key =
    ((s.items.value? m key).bind (flushMessage c m key up)).or (lastMessage s.sent m key)

theorem flushMessage_of_up {st up : Status} (h : c.Up st) (hup : c.Up up) (m : ℕ) (key : String) :
    (flushMessage c m key st : V → Option (Message V)) = flushMessage c m key up := by
  funext val
  rw [flushMessage, flushMessage, report_of_up h hup fun _ => rfl]

theorem Behind.change {up st : Status} (h : Behind c up s t) (hup : c.Up up) {m : ℕ} {key : String}
    {val : V} {auth : ℕ} (hacc : c.accepts st m key = true) (hst : c.Up st) (hdef : c.Defined m)
    (haut : c.throttled m = true → c.OwnShadow m → auth = 0) :
    Behind c up (c.step s (.sendPropertyChange st m key val auth))
      { t with sent := t.sent ++ (c.report st m key val auth).toList } := by
  have hrep : c.reportPropertyChanges = true := by
    unfold accepts at hacc
    grind
  by_cases hthr : c.throttled m = true
  · have hflu : c.report st m key val auth = flushMessage c m key up val := by
      rw [flushMessage, if_pos hrep, report_of_up hst hup (haut hthr)]
    rw [step, if_pos hacc, if_pos hthr]
    refine ⟨fun m' key' hsom => ?_, h.empty, fun m' key' => ?_⟩
    · rw [value?_insert] at hsom
      split_ifs at hsom with heq
      · exact heq.1 ▸ ⟨hthr, hdef⟩
      · exact h.waiting m' key' hsom
    · rw [lastMessage_append, lastMessage_toList, h.last, value?_insert]
      split_ifs with heq
      · obtain ⟨rfl, rfl⟩ := heq
        rw [hflu, bind_some]
        cases hmes : flushMessage c m key up val with
        | some msg => rfl
        | none =>
          -- what the record held for the property would not be sent either
          have hnon : (s.items.value? m key).bind (flushMessage c m key up) = none := by
            rw [bind_eq_none_iff]
            intro val' _
            rw [flushMessage, if_pos hrep] at hmes ⊢
            exact report_eq_none val val' 0 hmes
          rw [hnon, none_or]
      · rw [none_or]
  · rw [step, if_pos hacc, if_neg hthr]
    refine ⟨h.waiting, h.empty, fun m' key' => ?_⟩
    rw [lastMessage_append, lastMessage_append, lastMessage_toList, h.last]
    split_ifs with heq
    · obtain ⟨rfl, rfl⟩ := heq
      have hnon : s.items.value? m key = none := by
        by_contra hsom
        exact hthr (h.waiting m key (isSome_iff_ne_none.mpr hsom)).1
      rw [hnon, bind_none, none_or, none_or]
    · rw [none_or, none_or]

theorem Behind.flush {up st : Status} (h : Behind c up s t) (hup : c.Up up) (hst : c.Up st)
    {items : NestedMap ℕ String V} {entries : List (ℕ × String × V)}
    (hent : ∀ m key val, (m, key, val) ∈ entries ↔
      s.items.value? m key = some val ∧ items.value? m key = none)
    (hite : ∀ m key val, items.value? m key = some val → s.items.value? m key = some val) :
    Behind c up ⟨items, s.sent ++ c.flush st entries⟩ t := by
  refine ⟨fun m key hsom => ?_, h.empty, fun m key => ?_⟩
  · obtain ⟨val, hval⟩ := isSome_iff_exists.mp hsom
    exact h.waiting m key (by rw [hite m key val hval]; rfl)
  · rw [h.last, lastMessage_append]
    cases hval : items.value? m key with
    | none =>
      rw [lastMessage_flush c m key st (s.items.value? m key) fun val => by simp [hent, hval],
        flushMessage_of_up hst hup, bind_none, none_or]
    | some val =>
      rw [lastMessage_flush c m key st none fun val => by simp [hent, hval], bind_none, none_or,
        hite m key val hval]

variable {up : Status}

theorem Behind.defined (h : Behind c up s t) (entries : List (ℕ × String × V))
    (hent : ∀ m key val, (m, key, val) ∈ entries → s.items.value? m key = some val) :
    ∀ e ∈ entries, c.Defined e.1 := by
  rintro ⟨m, key, val⟩ he
  exact (h.waiting m key (by rw [hent m key val he]; rfl)).2

/-- A calm call returns with and without throttling. -/
theorem Behind.call (h : Behind c up s t) (hup : c.Up up) {e : Event V} (he : c.Calm e) :
    ∃ s' t', c.call s e = some s' ∧ c.unthrottled.call t e = some t' ∧ Behind c up s' t' := by
  obtain ⟨items, sent⟩ := t
  obtain rfl : items = ∅ := h.empty
  cases e with
  | sendPropertyChange st m key val auth =>
    by_cases hacc : c.accepts st m key = true
    · obtain ⟨hst, hdef, haut⟩ := he hacc
      have hsto : c.stops st m key = false := stops_of_defined hdef
      have hunt : c.unthrottled.stopsAt ⟨∅, sent⟩ (.sendPropertyChange st m key val auth) =
          (c.accepts st m key && true && c.reports m key && c.stops st m key) := rfl
      refine ⟨_, _, if_neg (by simp [stopsAt, hsto]), ?_, h.change hup hacc hst hdef haut⟩
      rw [Channel.call, hunt, hsto, Bool.and_false]
      exact congrArg some (if_pos hacc)
    · refine ⟨s, ⟨∅, sent⟩, ?_, ?_, h⟩
      · rw [Channel.call, if_neg (by simp [stopsAt, hacc]), step, if_neg hacc]
      · have hacc' : ¬c.unthrottled.accepts st m key = true := hacc
        rw [Channel.call, if_neg (by simp [stopsAt, hacc']), step, if_neg hacc']
  | sendModbusUpdate st m name val =>
    refine ⟨s, ⟨∅, sent⟩, congrArg some (if_neg he), congrArg some (if_neg fun hmod => ?_), h⟩
    exact absurd hmod.2.2 Bool.false_ne_true
  | sendThrottledUpdates st =>
    have hent : (∅ : NestedMap ℕ String V).entries = [] := by simp [entries]
    have hunt : c.unthrottled.call ⟨∅, sent⟩ (.sendThrottledUpdates st) = some ⟨∅, sent⟩ := by
      rw [Channel.call, stopsAt, step]
      simp [hent, stopsFlush, Channel.flush]
    by_cases hflu : flushesAll st = true
    · have hdef := h.defined s.items.entries fun m key val => mem_entries_iff.mp
      refine ⟨⟨∅, s.sent ++ c.flush st s.items.entries⟩, _, ?_, hunt, h.flush hup (he hflu)
        (fun m key val => ?_) (by simp [value?_empty])⟩
      · rw [Channel.call, stopsAt, stopsFlush_of_defined hdef, Bool.and_false,
          if_neg Bool.false_ne_true, step, if_pos hflu]
      · rw [mem_entries_iff, and_iff_left (value?_empty m key)]
    · refine ⟨s, _, ?_, hunt, h⟩
      rw [Channel.call, stopsAt, if_neg (by simp [hflu]), step, if_neg hflu]
  | sendPropertyChanges st m =>
    have hunt : c.unthrottled.call ⟨∅, sent⟩ (.sendPropertyChanges st m) = some ⟨∅, sent⟩ := by
      simp [Channel.call, stopsAt, step, flushesMachine, unthrottled]
    by_cases hflu : c.flushesMachine st m = true
    · have hdef := h.defined (record s.items m) fun m' key val hmem =>
        ((mem_record_iff m' key s.items m val).mp hmem).2
      refine ⟨⟨TreeMap.erase s.items m, s.sent ++ c.flush st (record s.items m)⟩, _, ?_, hunt,
        h.flush hup (he hflu) (fun m' key val => ?_) fun m' key val hval => ?_⟩
      · rw [Channel.call, stopsAt, stopsFlush_of_defined hdef, Bool.and_false,
          if_neg Bool.false_ne_true, step, if_pos hflu]
      · rw [mem_record_iff, value?_erase]
        grind
      · rw [value?_erase] at hval
        grind
    · refine ⟨s, _, ?_, hunt, h⟩
      rw [Channel.call, stopsAt, if_neg (by simp [hflu]), step, if_neg hflu]

theorem Behind.calls (h : Behind c up s t) (hup : c.Up up) {events : List (Event V)}
    (hcal : ∀ e ∈ events, c.Calm e) :
    ∃ s' t', events.foldlM c.call s = some s' ∧ events.foldlM c.unthrottled.call t = some t' ∧
      Behind c up s' t' := by
  induction events generalizing s t with
  | nil => exact ⟨s, t, rfl, rfl, h⟩
  | cons e events ih =>
    obtain ⟨he, hcal⟩ := forall_mem_cons.mp hcal
    obtain ⟨s₁, t₁, hs₁, ht₁, h₁⟩ := h.call hup he
    obtain ⟨s', t', hs', ht', h'⟩ := ih h₁ hcal
    refine ⟨s', t', ?_, ?_, h'⟩
    · rw [foldlM_cons, hs₁]
      exact hs'
    · rw [foldlM_cons, ht₁]
      exact ht'

end Runs

def shadowChannel : Channel where
  reportPropertyChanges := true
  reportLocalPropertyChanges := false
  reportModbusUpdates := false
  isPublisher := false
  isClient := false
  authority := 9
  throttleTime := 100
  interfaceFor _ := none
  member _ := true
  filtersAllow _ := true
  stateMachine _ := some ⟨fun _ => false, fun _ => true⟩
  isShadow _ := true
  owned _ := true
  needsThrottle _ := true

def connected : Status := ⟨.active, some ⟨true, false⟩, false⟩

theorem up_connected : shadowChannel.Up connected := ⟨rfl, ⟨true, false⟩, rfl, rfl, rfl⟩

namespace Channel

variable {V : Type} (c : Channel)

def inInterface (m : ℕ) (key : String) : Bool :=
  if c.isShadow m && c.owned m then (c.stateMachine m).any fun k => k.propertyNames key
  else (c.interfaceFor m).any fun names => names key

def Connected (st : Status) : Prop :=
  (∃ manager, st.manager = some manager ∧ manager.disconnected = false ∧ c.ready manager = true) ∨
    st.manager = none ∧ st.mif = true

/-- An active, connected channel that reports property changes, lists the machine and does not
throttle it, and a property of the interface. -/
structure Reporting (st : Status) (m : ℕ) (key : String) : Prop where
  active : st.state = .active
  connected : c.Connected st
  reports : c.reportPropertyChanges = true
  listed : c.member m = true
  unthrottled : c.throttled m = false
  interface : c.inInterface m key = true

/-- The change of a shadow that its owner has sent. -/
def echo (st : Status) (m : ℕ) (auth : ℕ) : Bool :=
  st.manager.isSome && !c.isPublisher && c.isShadow m && c.owned m && auth != 0

def Sends (s : State V) (st : Status) (m : ℕ) (key : String) (val : V) (auth : ℕ) : Prop :=
  ∃ authority, (c.step s (.sendPropertyChange st m key val auth)).sent =
    s.sent ++ [⟨m, key, val, authority⟩]

end Channel

variable {V : Type} {c : Channel} {st : Status} {m : ℕ} {key : String}

open Channel

theorem message_of_reporting (h : c.Reporting st m key)
    (hfea : c.reportLocalPropertyChanges = false) (hloc : c.propertyIsLocal m key = false)
    (val : V) (auth : ℕ) :
    (∃ authority, c.sendPropertyChangeMessage st m key val auth = some ⟨m, key, val, authority⟩) ↔
      c.echo st m auth = false := by
  have hint := h.interface
  unfold sendPropertyChangeMessage echo
  rw [if_neg (by simp [hfea, hloc])]
  rcases h.connected with ⟨manager, hman, -, hrea⟩ | ⟨hman, hmif⟩
  · simp only [hman, Option.isSome_some, Bool.true_and]
    by_cases hpub : c.isPublisher = true
    · simp [hpub, hrea]
    rw [if_neg hpub]
    by_cases hsha : (c.isShadow m && c.owned m) = true
    · -- the shadow is reported by the names of its class
      rw [inInterface, if_pos hsha] at hint
      obtain ⟨hs, ho⟩ := Bool.and_eq_true_iff.mp hsha
      by_cases haut : auth = 0
      · simp [hpub, hs, ho, haut, hint, hrea]
      · simp [hpub, hs, ho, haut]
    · rw [inInterface, if_neg hsha] at hint
      obtain ⟨names, hnam, hkey⟩ : ∃ names, c.interfaceFor m = some names ∧ names key = true := by
        simpa [Option.any_eq_true] using hint
      have hech : (c.isShadow m && c.owned m && auth != 0) = false := by
        simp only [Bool.not_eq_true] at hsha
        rw [hsha, Bool.false_and]
      rw [if_neg hsha]
      simp [hnam, hkey, hrea, hpub, hech]
  · simp [hman, hmif]

theorem report_of_held (h : (c.reportLocalPropertyChanges || c.propertyIsLocal m key) = true)
    (val : V) (auth : ℕ) : c.report st m key val auth = none := by
  have hmes : c.sendPropertyChangeMessage st m key val auth = none := by
    rw [sendPropertyChangeMessage, if_pos h]
  rw [report, hmes, ite_self]

theorem report_of_reporting (h : c.Reporting st m key) (val : V) (auth : ℕ) :
    (∃ authority, c.report st m key val auth = some ⟨m, key, val, authority⟩) ↔
      c.reportLocalPropertyChanges = false ∧ c.propertyIsLocal m key = false ∧
        (c.stateMachine m).isSome ∧ c.echo st m auth = false := by
  by_cases hhel : c.reportLocalPropertyChanges = false ∧ c.propertyIsLocal m key = false
  · obtain ⟨hfea, hloc⟩ := hhel
    have hrep : c.reports m key = (c.stateMachine m).isSome := by
      unfold propertyIsLocal at hloc
      rw [reports, hfea]
      cases hcla : c.stateMachine m with
      | none => rfl
      | some k =>
        rw [hcla] at hloc
        simpa using hloc
    rw [report, hrep]
    by_cases hcla : (c.stateMachine m).isSome
    · rw [if_pos hcla, message_of_reporting h hfea hloc]
      simp [hfea, hloc, hcla]
    · simp [hcla]
  · have hor : (c.reportLocalPropertyChanges || c.propertyIsLocal m key) = true := by
      rw [Bool.or_eq_true]
      exact (not_and_or.mp hhel).imp eq_true_of_ne_false eq_true_of_ne_false
    rw [report_of_held hor]
    constructor
    · rintro ⟨_, h⟩
      cases h
    · exact fun h => absurd ⟨h.1, h.2.1⟩ hhel

theorem sends_iff (h : c.Reporting st m key) (s : State V) (val : V) (auth : ℕ) :
    c.Sends s st m key val auth ↔
      c.reportLocalPropertyChanges = false ∧ c.propertyIsLocal m key = false ∧
        c.filtersAllow m = true ∧ (c.stateMachine m).isSome ∧ c.echo st m auth = false := by
  have hacc : c.accepts st m key = (!c.propertyIsLocal m key && c.filtersAllow m) := by
    simp [accepts, h.reports, h.active, h.listed]
  unfold Channel.Sends step
  dsimp only
  rw [hacc, h.unthrottled]
  by_cases hloc : c.propertyIsLocal m key = true
  · simp [hloc]
  by_cases hfil : c.filtersAllow m = true
  · have hsen : ∀ authority,
        (s.sent ++ (c.report st m key val auth).toList = s.sent ++ [⟨m, key, val, authority⟩] ↔
          c.report st m key val auth = some ⟨m, key, val, authority⟩) := by
      intro authority
      rw [append_right_inj, toList_eq_singleton_iff]
    simp only [hloc, hfil, Bool.not_false, Bool.and_self, if_true, Bool.false_eq_true,
      if_false, hsen]
    rw [report_of_reporting h]
    simp [hloc]
  · simp [hfil]

/-- A change of a property is sent exactly if it is to be: always for a property that is not
local, and with the feature for one that is. This holds only without the feature. -/
theorem localProperties_iff (h : c.Reporting st m key) (s : State V) (val : V) (auth : ℕ) :
    (c.Sends s st m key val auth ↔
        (c.propertyIsLocal m key = true → c.reportLocalPropertyChanges = true)) ↔
      c.reportLocalPropertyChanges = false ∧ (c.propertyIsLocal m key = true ∨
          c.filtersAllow m = true ∧ (c.stateMachine m).isSome ∧ c.echo st m auth = false) := by
  rw [sends_iff h]
  cases c.reportLocalPropertyChanges <;> cases c.propertyIsLocal m key <;> simp

def localChannel : Channel where
  reportPropertyChanges := true
  reportLocalPropertyChanges := true
  reportModbusUpdates := false
  isPublisher := false
  isClient := false
  authority := 9
  throttleTime := 0
  interfaceFor _ := some fun _ => true
  member _ := true
  filtersAllow _ := true
  stateMachine _ := some ⟨fun _ => false, fun _ => true⟩
  isShadow _ := false
  owned _ := false
  needsThrottle _ := false

def plainChannel : Channel := { localChannel with reportLocalPropertyChanges := false }

theorem reporting_localChannel : localChannel.Reporting connected 0 "speed" :=
  ⟨rfl, .inl ⟨⟨true, false⟩, rfl, rfl, rfl⟩, rfl, rfl, rfl, rfl⟩

theorem reporting_plainChannel : plainChannel.Reporting connected 0 "speed" :=
  ⟨rfl, .inl ⟨⟨true, false⟩, rfl, rfl, rfl⟩, rfl, rfl, rfl, rfl⟩

theorem plainChannel_sends_speed : plainChannel.Sends ⟨∅, []⟩ connected 0 "speed" (5 : ℕ) 0 ↔
      (plainChannel.propertyIsLocal 0 "speed" = true →
        plainChannel.reportLocalPropertyChanges = true) :=
  (localProperties_iff reporting_plainChannel ⟨∅, []⟩ 5 0).mpr ⟨rfl, .inr ⟨rfl, rfl, rfl⟩⟩

/-- With the feature the change of a property that is not local is not sent. -/
theorem feature_silences_speed : localChannel.Reporting connected 0 "speed" ∧
      localChannel.propertyIsLocal 0 "speed" = false ∧
      (localChannel.run [.sendPropertyChange connected 0 "speed" (5 : ℕ) 0]).sent = [] ∧
      (plainChannel.run [.sendPropertyChange connected 0 "speed" (5 : ℕ) 0]).sent =
        [⟨0, "speed", 5, some 9⟩] :=
  ⟨reporting_localChannel, rfl, rfl, rfl⟩

end Clockwork.ChannelThrottle
