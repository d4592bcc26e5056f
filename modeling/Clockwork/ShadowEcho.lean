import Clockwork.ChannelThrottle
import Clockwork.Library.Runs
import Mathlib.Data.List.Induction

namespace Clockwork.ShadowEcho

open ChannelThrottle Runs List Channel NestedMap

structure System where
  channel : Channel
  reportStateChanges : Bool
  authority : ℕ
  expectedAuthority : ℕ → ℕ
  lookup : ℕ → String → Option ℕ
  findState : ℕ → String → Bool
  shadow : ℕ
  isShadow : channel.isShadow shadow = true
  owned : channel.owned shadow = true
  notPublisher : channel.isPublisher = false

structure StateMessage where
  machine : ℕ
  state : String
  authority : Option ℕ

structure World (V : Type) where
  current : ℕ → String
  states : List StateMessage
  properties : State V

structure Found where
  /-- the variable with this name, whose `VALUE` is set instead -/
  global : Option ℕ
  changed : Bool
  published : Bool
  exported : Option String

inductive Event (V : Type) where
  /-- `propertyState` is the value of the property that has the name of the state -/
  | setState (st : Status) (published : Bool) (state propertyState : String) (authority : ℕ)
      (authorised : authority ≠ 0) (resume : Bool)
  /-- the property is given by the parts of its name between the dots -/
  | setValue (st : Status) (found : ℕ → String → Found) (path : List String) (val : V)
      (authority : ℕ) (authorised : authority ≠ 0)
  | sendThrottledUpdates (st : Status)
  | sendPropertyChanges (st : Status) (machine : ℕ)

namespace System

variable {V : Type} (y : System) (st : Status)

def connected : Bool :=
  !y.channel.isClient && st.manager.isSome || st.manager.any Manager.setupDone || st.mif

/-- The tests that `sendStateChange` and `requestStateChange` share. -/
def reportsState (m : ℕ) : Bool :=
  st.state != .disconnected && y.reportStateChanges && y.channel.member m &&
    y.channel.filtersAllow m

def encodeState (m : ℕ) (state : String) (auth : ℕ) : StateMessage :=
  ⟨m, state, if y.channel.isPublisher then none
    else if y.channel.isShadow m then some auth else some y.authority⟩

def requestStateChange (m : ℕ) (state : String) (auth : ℕ) : Option StateMessage :=
  if y.reportsState st m && y.connected st then some (y.encodeState m state auth) else none

def sendStateChange (m : ℕ) (state : String) (auth : ℕ) : Option StateMessage :=
  if !y.channel.isPublisher && y.channel.isShadow m && y.channel.owned m && auth != 0 then none
  else if y.reportsState st m && y.connected st then some (y.encodeState m state auth) else none

def enter (published : Bool) (m : ℕ) (state : String) (auth : ℕ) (w : World V) : World V :=
  { w with
    current := Function.update w.current m state
    states := w.states ++ if published then (y.sendStateChange st m state auth).toList else [] }

def setState (published : Bool) (m : ℕ) (state propertyState : String) (auth : ℕ)
    (resume : Bool) (w : World V) : World V :=
  if y.expectedAuthority m ≠ 0 ∧ auth = 0 then
    if y.channel.isShadow m && y.channel.owned m && st.state == .active then
      { w with states := w.states ++ (y.requestStateChange st m state auth).toList }
    else w
  else if y.expectedAuthority m = 0 ∧ auth ≠ 0 then w
  else if !resume && w.current m == state then w
  else if y.findState m state then y.enter st published m state auth w
  else if y.findState m propertyState then
    -- the function calls itself with the state that the property names
    if !resume && w.current m == propertyState then w
    else y.enter st published m propertyState auth w
  else w

def Refused (m auth : ℕ) : Prop := y.expectedAuthority m ≠ 0 ∧ auth = 0

instance (m auth : ℕ) : Decidable (y.Refused m auth) := inferInstanceAs (Decidable (_ ∧ _))

def publish (f : Found) (m : ℕ) (key : String) (val : V) (auth : ℕ) (s : State V) : State V :=
  if f.changed && f.published then
    let s := y.channel.step s (.sendPropertyChange st m key val auth)
    match f.exported with
    | some name => y.channel.step s (.sendModbusUpdate st m name val)
    | none => s
  else s

/-- A change of a property of the machine itself. A shadow passes a change that it refuses to its
owner. -/
def assign (f : Found) (m : ℕ) (key : String) (val : V) (auth : ℕ) (s : State V) : State V :=
  if y.Refused m auth then
    if y.channel.isShadow m && y.channel.owned m && st.state != .disconnected then
      { s with sent := s.sent ++ (y.channel.sendPropertyChangeMessage st m key val auth).toList }
    else s
  else if key = "TRACEABLE" then s
  else y.publish st f m key val auth s

/-- A property that has the name of a variable stands for the value of the variable, which is set
without authority. -/
def resolve (found : ℕ → String → Found) (m : ℕ) (key : String) (auth : ℕ) : ℕ × String × ℕ :=
  if y.Refused m auth ∨ key = "TRACEABLE" then (m, key, auth)
  else
    match (found m key).global with
    | some variable' => (variable', "VALUE", 0)
    | none => (m, key, auth)

/-- The machine, the property and the authority that a call comes to. The authority is lost where
the name of the property starts with that of a machine. -/
def target (found : ℕ → String → Found) : ℕ → List String → ℕ → Option (ℕ × String × ℕ)
  | _, [], _ => none
  | m, [key], auth => if key = "" then none else some (y.resolve found m key auth)
  | m, name :: path, _ => (y.lookup m name).bind fun other => target found other path 0

def setValue (found : ℕ → String → Found) (m : ℕ) (path : List String) (val : V)
    (auth : ℕ) (s : State V) : State V :=
  match y.target found m path auth with
  | none => s
  | some (m, key, auth) => y.assign st (found m key) m key val auth s

def step (w : World V) : Event V → World V
  | .setState st published state propertyState auth _ resume =>
    y.setState st published y.shadow state propertyState auth resume w
  | .setValue st found path val auth _ =>
    { w with properties := y.setValue st found y.shadow path val auth w.properties }
  | .sendThrottledUpdates st =>
    { w with properties := y.channel.step w.properties (.sendThrottledUpdates st) }
  | .sendPropertyChanges st m =>
    { w with properties := y.channel.step w.properties (.sendPropertyChanges st m) }

def run (current : ℕ → String) (es : List (Event V)) : World V :=
  es.foldl y.step ⟨current, [], ⟨∅, []⟩⟩

/-- The channel has sent no message about the shadow. -/
def NoEcho (w : World V) : Prop :=
  (∀ msg ∈ w.states, msg.machine ≠ y.shadow) ∧
    ∀ msg ∈ w.properties.sent, msg.machine ≠ y.shadow

/-- `sendPropertyChangeMessage` sends a message about a property of the shadow. -/
def Answered (key : String) (auth : ℕ) : Prop :=
  y.channel.reportLocalPropertyChanges = false ∧
    y.channel.propertyIsLocal y.shadow key = false ∧
      (st.manager = none ∧ st.mif = true ∨
        auth = 0 ∧ st.manager.any y.channel.ready = true ∧
          ((y.channel.stateMachine y.shadow).any fun k => k.propertyNames key) = true)

/-- The message is sent where the class of the shadow is looked at before. -/
def Reported (key : String) (auth : ℕ) : Prop :=
  (y.channel.stateMachine y.shadow).isSome = true ∧ y.Answered st key auth

variable (es : List (Event V)) (st : Status) (f : Found) (m : ℕ) (name : String) (w : World V)
  (val : V) (key : String) (s : State V) (val : V) (auth : ℕ)

theorem isSome_message_iff :
    (y.channel.sendPropertyChangeMessage st y.shadow key val auth).isSome = true ↔
      y.Answered st key auth := by
  unfold sendPropertyChangeMessage Answered
  cases hman : st.manager with
  | none => cases hmif : st.mif <;> simp
  | some manager =>
    simp only [y.notPublisher, y.isShadow, y.owned, Bool.and_self, if_true]
    grind

theorem isSome_report_iff :
    (y.channel.report st y.shadow key val auth).isSome = true ↔ y.Reported st key auth := by
  unfold report Reported
  by_cases hans : y.Answered st key auth
  · obtain ⟨hloc, hpro, -⟩ := hans
    have hrep : y.channel.reports y.shadow key =
        (y.channel.stateMachine y.shadow).isSome := by
      unfold propertyIsLocal at hpro
      unfold reports
      cases hcla : y.channel.stateMachine y.shadow with
      | none => simp [hloc]
      | some class' =>
        rw [hcla] at hpro
        simpa [hloc] using hpro
    rw [hrep]
    split_ifs with hcla
    · rw [y.isSome_message_iff]
      exact (and_iff_right hcla).symm
    · exact iff_of_false Bool.false_ne_true fun h => hcla h.1
  · refine iff_of_false ?_ fun h => hans h.2
    split_ifs
    · rw [y.isSome_message_iff]
      exact hans
    · exact Bool.false_ne_true

def Silent (sent : List (Message V)) : Prop := ∀ msg ∈ sent, msg.machine ≠ y.shadow

def Waits (s : State V) (key : String) : Prop := (s.items.value? y.shadow key).isSome = true

theorem silent_append_iff (a b : List (Message V)) :
    y.Silent (a ++ b) ↔ y.Silent a ∧ y.Silent b := forall_mem_append

variable {o : Option (Message V)}

theorem silent_toList_iff
    (h : ∀ msg, o = some msg → msg.machine = y.shadow) : y.Silent o.toList ↔ ¬o.isSome = true := by
  unfold Silent
  cases o with
  | none => simp
  | some msg => simp [h msg rfl]

theorem silent_toList_of_ne {m : ℕ} (hm : m ≠ y.shadow)
    (h : ∀ msg, o = some msg → msg.machine = m) : y.Silent o.toList := by
  intro msg hmsg
  rw [h msg (Option.mem_toList.mp hmsg)]
  exact hm

theorem waits_insert_iff (m : ℕ) (key' : String) (val : V) (key : String) :
    y.Waits { s with items := s.items.insert (m, key', val) } key ↔
      m = y.shadow ∧ key' = key ∨ y.Waits s key := by
  unfold Waits
  rw [value?_insert]
  split_ifs with h
  · exact iff_of_true rfl (.inl h)
  · exact ⟨.inr, fun hor => hor.resolve_left h⟩

variable (s : State V)

theorem silent_sendPropertyChange_iff :
    y.Silent (y.channel.step s (.sendPropertyChange st m key val auth)).sent ↔
      y.Silent s.sent ∧ ¬(m = y.shadow ∧ y.channel.accepts st y.shadow key = true ∧
        y.channel.throttled y.shadow = false ∧ y.Reported st key auth) := by
  unfold Channel.step
  dsimp only
  by_cases hm : m = y.shadow
  · subst hm
    split_ifs with hacc hthr
    · simp [hthr]
    · rw [silent_append_iff, silent_toList_iff y fun msg h => (report_key _ _ _ h).1,
        isSome_report_iff]
      simp [hacc, hthr]
    · simp [hacc]
  · have hnot (P : Prop) : ¬(m = y.shadow ∧ P) := fun h => hm h.1
    rw [and_iff_left (hnot _)]
    split_ifs
    · rfl
    · rw [silent_append_iff]
      exact and_iff_left (silent_toList_of_ne y hm fun msg h => (report_key _ _ _ h).1)
    · rfl

theorem waits_sendPropertyChange_iff (key' : String) (val : V) (auth : ℕ) (s : State V)
    (key : String) : y.Waits (y.channel.step s (.sendPropertyChange st m key' val auth)) key ↔
      m = y.shadow ∧ key' = key ∧ y.channel.accepts st y.shadow key' = true ∧
        y.channel.throttled y.shadow = true ∨ y.Waits s key := by
  unfold Channel.step
  dsimp only
  split_ifs with hacc hthr
  · rw [waits_insert_iff]
    grind
  · change y.Waits s key ↔ _
    grind
  · grind

theorem sent_sendModbusUpdate :
    (y.channel.step s (.sendModbusUpdate st m name val)).sent = s.sent := by
  unfold Channel.step
  dsimp only
  split_ifs <;> rfl

variable (key : String)

theorem waits_sendModbusUpdate_iff :
    y.Waits (y.channel.step s (.sendModbusUpdate st m name val)) key ↔
      m = y.shadow ∧ name = key ∧ st.state ≠ .disconnected ∧
        y.channel.reportModbusUpdates = true ∧ y.channel.throttled y.shadow = true ∨
        y.Waits s key := by
  unfold Channel.step
  dsimp only
  split_ifs with h
  · rw [waits_insert_iff]
    grind
  · grind

def SendsAt (f : Found) (key : String) (auth : ℕ) : Prop :=
  y.Refused y.shadow auth ∧ st.state ≠ .disconnected ∧ y.Answered st key auth ∨
    ¬y.Refused y.shadow auth ∧ key ≠ "TRACEABLE" ∧ (f.changed && f.published) = true ∧
      y.channel.accepts st y.shadow key = true ∧ y.channel.throttled y.shadow = false ∧
        y.Reported st key auth

/-- The change of the property `name` of the shadow leaves a value in its record. -/
def StoresAt (f : Found) (name : String) (auth : ℕ) (key : String) : Prop :=
  ¬y.Refused y.shadow auth ∧ name ≠ "TRACEABLE" ∧ (f.changed && f.published) = true ∧
    y.channel.throttled y.shadow = true ∧
      (name = key ∧ y.channel.accepts st y.shadow name = true ∨
        f.exported = some key ∧ st.state ≠ .disconnected ∧
          y.channel.reportModbusUpdates = true)

theorem silent_publish_iff :
    y.Silent (y.publish st f m key val auth s).sent ↔
      y.Silent s.sent ∧ ¬(m = y.shadow ∧ (f.changed && f.published) = true ∧
        y.channel.accepts st y.shadow key = true ∧ y.channel.throttled y.shadow = false ∧
          y.Reported st key auth) := by
  unfold publish
  split_ifs with hpub
  · have hsen := y.silent_sendPropertyChange_iff st m key val auth s
    cases f.exported with
    | none =>
      dsimp only
      rw [hsen]
      simp only [hpub, true_and]
    | some name =>
      dsimp only
      rw [sent_sendModbusUpdate, hsen]
      simp only [hpub, true_and]
  · exact (and_iff_left fun h => hpub h.2.1).symm

theorem silent_assign_iff :
    y.Silent (y.assign st f m key val auth s).sent ↔
      y.Silent s.sent ∧ ¬(m = y.shadow ∧ y.SendsAt st f key auth) := by
  unfold assign SendsAt
  by_cases hm : m = y.shadow
  · subst hm
    simp only [y.isShadow, y.owned, Bool.and_self, Bool.true_and, true_and]
    split_ifs with href hsta htra
    · rw [silent_append_iff, silent_toList_iff y fun msg h => (message_key _ _ _ h).1,
        isSome_message_iff]
      grind
    · grind
    · grind
    · rw [silent_publish_iff]
      grind
  · have hnot (P : Prop) : ¬(m = y.shadow ∧ P) := fun h => hm h.1
    rw [and_iff_left (hnot _)]
    split_ifs
    · rw [silent_append_iff]
      exact and_iff_left (silent_toList_of_ne y hm fun msg h => (message_key _ _ _ h).1)
    · rfl
    · rfl
    · rw [silent_publish_iff]
      exact and_iff_left (hnot _)

theorem waits_assign_iff :
    y.Waits (y.assign st f m name val auth s) key ↔
      m = y.shadow ∧ y.StoresAt st f name auth key ∨ y.Waits s key := by
  unfold assign StoresAt
  split_ifs with href hsta htra
  · change y.Waits s key ↔ _
    grind
  · grind
  · grind
  · unfold publish
    split_ifs with hpub
    · have hwai := y.waits_sendPropertyChange_iff st m name val auth s key
      cases hexp : f.exported with
      | none =>
        dsimp only
        rw [hwai]
        grind
      | some name' =>
        dsimp only
        rw [waits_sendModbusUpdate_iff, hwai]
        grind
    · grind

def Sends : Event V → Prop
  | .setState _ _ _ _ _ _ _ => False
  | .setValue st found path _ auth _ => ∃ key a,
      y.target found y.shadow path auth = some (y.shadow, key, a) ∧
        y.SendsAt st (found y.shadow key) key a
  | .sendThrottledUpdates _ => False
  | .sendPropertyChanges _ _ => False

def Stores : Event V → String → Prop
  | .setState _ _ _ _ _ _ _, _ => False
  | .setValue st found path _ auth _, key => ∃ name a,
      y.target found y.shadow path auth = some (y.shadow, name, a) ∧
        y.StoresAt st (found y.shadow name) name a key
  | .sendThrottledUpdates _, _ => False
  | .sendPropertyChanges _ _, _ => False

def flushed : Event V → Option Status
  | .setState _ _ _ _ _ _ _ => none
  | .setValue _ _ _ _ _ _ => none
  | .sendThrottledUpdates st => if Channel.flushesAll st then some st else none
  | .sendPropertyChanges st m =>
    if m = y.shadow ∧ y.channel.flushesMachine st m then some st else none

def Flushes (s : State V) (e : Event V) : Prop :=
  y.channel.reportPropertyChanges = true ∧ ∃ st key, y.flushed e = some st ∧ y.Waits s key ∧
    y.Reported st key 0

theorem sendStateChange_shadow (state : String) {auth : ℕ} (h : auth ≠ 0) :
    y.sendStateChange st y.shadow state auth = none := by
  unfold sendStateChange
  rw [y.notPublisher, y.isShadow, y.owned]
  simp [h]

theorem states_setState (published : Bool) (state propertyState : String) {auth : ℕ}
    (h : auth ≠ 0) (resume : Bool) (w : World V) :
    (y.setState st published y.shadow state propertyState auth resume w).states = w.states := by
  have hent (state : String) : (y.enter st published y.shadow state auth w).states =
      w.states := by
    unfold enter
    rw [y.sendStateChange_shadow st state h]
    simp
  unfold setState
  rw [if_neg fun href => h href.2]
  split_ifs
  all_goals first | rfl | exact hent _

theorem properties_setState (published : Bool) (m : ℕ) (state propertyState : String) (auth : ℕ)
    (resume : Bool) (w : World V) :
    (y.setState st published m state propertyState auth resume w).properties = w.properties := by
  unfold setState enter
  split_ifs <;> rfl

variable (e : Event V)

theorem states_step : (y.step w e).states = w.states := by
  cases e with
  | setState st published state propertyState auth authorised resume =>
    exact y.states_setState st published state propertyState authorised resume w
  | setValue st found path val auth authorised => rfl
  | sendThrottledUpdates st => rfl
  | sendPropertyChanges st m => rfl

theorem silent_flush_iff (entries : List (ℕ × String × V)) :
    y.Silent (y.channel.flush st entries) ↔ (y.channel.reportPropertyChanges = true →
      ∀ key val, (y.shadow, key, val) ∈ entries → ¬y.Reported st key 0) := by
  unfold flush
  split_ifs with hrep
  · rw [forall_prop_of_true hrep]
    constructor
    · intro hsil key val hmem hreo
      rw [← y.isSome_report_iff st key val 0, Option.isSome_iff_exists] at hreo
      obtain ⟨msg, hmsg⟩ := hreo
      exact hsil msg (mem_filterMap.mpr ⟨_, hmem, hmsg⟩) (report_key _ _ _ hmsg).1
    · intro h msg hmsg hmac
      obtain ⟨⟨m, key, val⟩, hmem, hsen⟩ := mem_filterMap.mp hmsg
      obtain rfl : m = y.shadow := (report_key _ _ _ hsen).1.symm.trans hmac
      refine h key val hmem ?_
      rw [← y.isSome_report_iff st key val 0, hsen]
      rfl
  · exact iff_of_true (fun msg hmsg => absurd hmsg (by simp)) fun h => absurd h hrep

theorem waits_iff_exists :
    y.Waits s key ↔ ∃ val, s.items.value? y.shadow key = some val := Option.isSome_iff_exists

theorem silent_step_iff : y.Silent (y.step w e).properties.sent ↔
      y.Silent w.properties.sent ∧ ¬y.Sends e ∧ ¬y.Flushes w.properties e := by
  cases e with
  | setState st published state propertyState auth authorised resume =>
    unfold step
    dsimp only
    rw [properties_setState]
    simp [Sends, Flushes, flushed]
  | setValue st found path val auth authorised =>
    have hflu : ¬y.Flushes w.properties (.setValue st found path val auth authorised) := by
      simp [Flushes, flushed]
    rw [and_iff_left hflu]
    unfold step setValue Sends
    dsimp only
    cases htar : y.target found y.shadow path auth with
    | none => simp
    | some t =>
      rw [silent_assign_iff]
      grind
  | sendThrottledUpdates st =>
    unfold step Channel.step Sends Flushes flushed
    dsimp only
    split_ifs with hflu
    · rw [silent_append_iff, silent_flush_iff]
      simp only [waits_iff_exists, NestedMap.mem_entries_iff]
      grind
    · simp
  | sendPropertyChanges st m =>
    unfold step Channel.step Sends Flushes flushed
    dsimp only
    split_ifs with hflu hmac hmac
    · rw [silent_append_iff, silent_flush_iff]
      simp only [waits_iff_exists, mem_record_iff, hmac.1.symm, true_and]
      grind
    · rw [silent_append_iff, silent_flush_iff]
      simp only [mem_record_iff]
      grind
    · exact absurd hmac.2 hflu
    · simp

theorem waits_step_iff : y.Waits (y.step w e).properties key ↔
      y.Stores e key ∨ y.Waits w.properties key ∧ y.flushed e = none := by
  cases e with
  | setState st published state propertyState auth authorised resume =>
    unfold step
    dsimp only
    rw [properties_setState]
    simp [Stores, flushed]
  | setValue st found path val auth authorised =>
    unfold step setValue Stores flushed
    dsimp only
    cases htar : y.target found y.shadow path auth with
    | none => simp
    | some t =>
      obtain ⟨m, name, a⟩ := t
      dsimp only
      rw [waits_assign_iff]
      grind
  | sendThrottledUpdates st =>
    unfold step Channel.step Stores flushed
    dsimp only
    split_ifs with hflu
    · simp [Waits, NestedMap.value?_empty]
    · simp
  | sendPropertyChanges st m =>
    unfold step Channel.step Stores flushed
    dsimp only
    split_ifs with hflu hmac hmac
    · simp [Waits, NestedMap.value?_erase, hmac.1]
    · have hne : m ≠ y.shadow := fun h => hmac ⟨h, hflu⟩
      simp [Waits, NestedMap.value?_erase, hne]
    · exact absurd hmac.2 hflu
    · simp

variable (current : ℕ → String)

theorem run_concat : y.run current (es ++ [e]) = y.step (y.run current es) e := by
  unfold run
  rw [foldl_append, foldl_cons, foldl_nil]

theorem states_run : (y.run current es).states = [] := by
  induction es using reverseRecOn with
  | nil => rfl
  | append_singleton es e ih => rw [run_concat, states_step, ih]

/-- A value of the property was left in the record, and has not been flushed since. -/
def Pending (es : List (Event V)) (key : String) : Prop :=
  Since (fun _ e => y.Stores e key) (fun _ e => y.flushed e = none) es

theorem waits_run_iff : y.Waits (y.run current es).properties key ↔ y.Pending es key := by
  unfold Pending
  induction es using reverseRecOn with
  | nil =>
    refine iff_of_false ?_ not_since_nil
    simp [run, Waits, value?_empty]
  | append_singleton es e ih => rw [run_concat, waits_step_iff, since_concat_iff, ih]

/-- The channel sends no message about the shadow exactly if no authorised change comes to a
property of the shadow where the channel sends it at once (without authority, or on a messaging
interface), and no flush finds a property that the channel reports. -/
theorem noEcho_run_iff (es : List (Event V)) :
    y.NoEcho (y.run current es) ↔ ∀ before e after, es = before ++ e :: after →
      ¬y.Sends e ∧ (y.channel.reportPropertyChanges = true → ∀ st key, y.flushed e = some st →
        y.Pending before key → ¬y.Reported st key 0) := by
  unfold NoEcho
  rw [states_run]
  refine (and_iff_right fun msg hmsg => absurd hmsg not_mem_nil).trans ?_
  change y.Silent (y.run current es).properties.sent ↔ _
  induction es using reverseRecOn with
  | nil =>
    refine iff_of_true (fun msg hmsg => absurd hmsg not_mem_nil) ?_
    intro before e after heq
    simp at heq
  | append_singleton es e ih =>
    rw [run_concat, silent_step_iff, ih, forall_event_concat_iff (Q := fun before e => ¬y.Sends e ∧
      (y.channel.reportPropertyChanges = true → ∀ st key, y.flushed e = some st →
        y.Pending before key → ¬y.Reported st key 0))]
    refine and_congr Iff.rfl (and_congr Iff.rfl ?_)
    unfold Flushes
    simp only [waits_run_iff]
    grind

end System

def throttledShadow : System where
  channel := shadowChannel
  reportStateChanges := true
  authority := 9
  expectedAuthority _ := 9
  lookup m name := if name = "SELF" then some m else none
  findState _ _ := true
  shadow := 0
  isShadow := rfl
  owned := rfl
  notPublisher := rfl

def unthrottledShadow : System :=
  { throttledShadow with
    channel := shadowChannel.unthrottled
    isShadow := rfl
    owned := rfl
    notPublisher := rfl }

def ownProperty (_ : ℕ) (_ : String) : Found := ⟨none, true, true, none⟩

def flushedChange : List (Event ℕ) :=
  [.setValue connected ownProperty ["VALUE"] 5 9 (by decide), .sendThrottledUpdates connected]

def changeOfSelf : List (Event ℕ) :=
  [.setValue connected ownProperty ["SELF", "VALUE"] 5 9 (by decide)]

/-- The flush has no authority, and neither has a change that goes through the name of a
machine. -/
theorem authorised_change_echoes :
    ¬throttledShadow.NoEcho (throttledShadow.run (fun _ => "idle") flushedChange) ∧
      ¬unthrottledShadow.NoEcho (unthrottledShadow.run (fun _ => "idle") changeOfSelf) := by
  constructor
  · intro h
    exact h.2 ⟨0, "VALUE", 5, some 0⟩ (by decide) rfl
  · intro h
    exact h.2 ⟨0, "VALUE", 5, some 0⟩ (by decide) rfl

end Clockwork.ShadowEcho
