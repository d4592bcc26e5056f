import Clockwork.Library.ListCursor
import Clockwork.MachineCommand

namespace Clockwork.SyncStates

open List Option ListCursor

open MachineCommand (Status)

inductive MessageState where
  | sending | receiving | done
deriving DecidableEq, Repr

inductive ProcessState where
  | init | sendingMessages | waitingAck
deriving DecidableEq, Repr

inductive Traffic (Msg : Type) where
  | message (m : Msg)
  | done
  | reply (text : String)
deriving DecidableEq, Repr

def Traffic.isSent {Msg : Type} : Traffic Msg → Bool
  | .message _ | .done => true
  | .reply _ => false

structure Channel (Msg : Type) where
  isClient : Bool
  syncRemoteStates : Option (List Msg)

structure Action (Msg : Type) where
  status : Status
  savedStatus : Status
  processState : ProcessState
  messageState : MessageState
  messages : ListCursor Msg
  hasIter : Bool
  log : List (Traffic Msg)
  enqueued : List String

namespace Action

variable {Msg : Type}

def new : Action Msg where
  status := .new
  savedStatus := .running
  processState := .init
  messageState := .sending
  messages := .ofList []
  hasIter := false
  log := []
  enqueued := []

variable (chn : Channel Msg)

def prepare (a : Action Msg) : Action Msg :=
  match chn.syncRemoteStates with
  | some ms =>
    { a with
      status := .running
      processState := .sendingMessages
      messages := .ofList ms
      hasIter := true
      messageState := if (ListCursor.ofList ms).atEnd then .done else .sending }
  | none => { a with status := .failed, processState := .sendingMessages }

def sendMessage (a : Action Msg) : Action Msg :=
  match a.messages.current with
  | some m =>
    { a with
      log := a.log ++ [.message m]
      messages := a.messages.erase
      messageState := .done }
  | none => a

/-- After a message is done: the next one, or `done` if there is none. -/
def messageDone (a : Action Msg) : Action Msg :=
  if a.messages.atEnd then
    { a with
      hasIter := false
      log := a.log ++ [.done]
      processState := .waitingAck }
  else { a with messageState := .sending }

variable (reply : Option String)

/-- The part of `execute` for the state `ps_sending_messages`. There is no result if the pointer
to the iterator is null. -/
def sendMessages (a : Action Msg) : Option (Status × Action Msg) :=
  if a.hasIter then
    let a := if a.messages.atEnd then { a with messageState := .done } else a
    match a.messageState with
    | .sending =>
      let a := a.sendMessage.messageDone
      some (a.status, a)
    | .receiving =>
      match reply with
      | some text =>
        let a := { a with messageState := .done, log := a.log ++ [Traffic.reply text] }.messageDone
        some (a.status, a)
      | none => some (.running, a)
    | .done =>
      let a := a.messageDone
      some (a.status, a)
  else none

def awaitAck (a : Action Msg) : Status × Action Msg :=
  match reply with
  | some ack =>
    let a :=
      { a with
        status := .complete
        log := a.log ++ [.reply ack]
        enqueued := a.enqueued ++ [if chn.isClient then "ACTIVE" else "DOWNLOADING"] }
    (a.status, a)
  | none => (a.status, a)

def execute (a : Action Msg) : Option (Status × Action Msg) :=
  match a.processState with
  | .init =>
    let a := a.prepare chn
    if a.status = .failed then some (a.status, a) else a.sendMessages reply
  | .sendingMessages => a.sendMessages reply
  | .waitingAck => some (a.awaitAck chn reply)

def run (a : Action Msg) : Option (Action Msg) :=
  (a.execute chn reply).map fun r => { r.2 with status := r.1 }

def call (a : Action Msg) : Option (Action Msg) :=
  { a with savedStatus := .running, status := .running }.run chn reply

def suspend (a : Action Msg) : Action Msg :=
  if a.status = .suspended then a
  else { a with savedStatus := a.status, status := .suspended }

def resume (a : Action Msg) : Action Msg :=
  { a with status := if a.savedStatus = .suspended then .running else a.savedStatus }

def runIfNew (a : Action Msg) : Option (Action Msg) :=
  if a.status = .new ∨ a.status = .needsRetry then a.run chn reply else some a

def resumeIfSuspended (a : Action Msg) : Action Msg :=
  if a.status = .suspended then a.resume else a

def runIfRunning (a : Action Msg) : Option (Action Msg) :=
  if a.status = .running then a.run chn reply else some a

/-- `checkComplete` may execute the action twice. -/
def checkComplete (first second : Option String) (a : Action Msg) : Option (Action Msg) :=
  (a.runIfNew chn first).bind fun a => a.resumeIfSuspended.runIfRunning chn second

end Action

inductive Event where
  | call (reply : Option String)
  | run (reply : Option String)
  | checkComplete (first second : Option String)
  | suspend
  | resume

def Action.step {Msg : Type} (chn : Channel Msg) (a : Action Msg) : Event → Option (Action Msg)
  | .call reply => a.call chn reply
  | .run reply => a.run chn reply
  | .checkComplete first second => a.checkComplete chn first second
  | .suspend => some a.suspend
  | .resume => some a.resume

namespace Action

variable {Msg : Type} {chn : Channel Msg} {messages : List Msg} {a : Action Msg}

def sent (a : Action Msg) : List (Traffic Msg) := a.log.filter Traffic.isSent

def plan (messages : List Msg) : List (Traffic Msg) := messages.map .message ++ [.done]

structure Going (a : Action Msg) : Prop where
  status : a.status = .new ∨ a.status = .running ∨ a.status = .suspended
  saved : a.savedStatus = .new ∨ a.savedStatus = .running

/-- The log and what is left of the messages, in each state of the process. -/
inductive Phase (messages : List Msg) (a : Action Msg) : Prop
  | init (hprocess : a.processState = .init) (hlog : a.log = []) (hgoing : a.Going)
  | sending {gone : List Msg} (hprocess : a.processState = .sendingMessages)
      (hiter : a.hasIter = true) (hstate : a.messageState = .sending)
      (hahead : a.messages.ahead ≠ []) (hsplit : gone ++ a.messages.ahead = messages)
      (hlog : a.log = gone.map .message) (hgoing : a.Going)
  | waiting {replies : List String} (hprocess : a.processState = .waitingAck)
      (hlog : a.log = plan messages ++ replies.map .reply) (hgoing : replies = [] → a.Going)

def remaining (messages : List Msg) (a : Action Msg) : ℕ :=
  match a.processState with
  | .init => messages.length + 1
  | .sendingMessages => a.messages.ahead.length
  | .waitingAck => 0

theorem remaining_of_init (h : a.processState = .init) :
    a.remaining messages = messages.length + 1 := by
  simp [remaining, h]

theorem remaining_of_sending (h : a.processState = .sendingMessages) :
    a.remaining messages = a.messages.ahead.length := by
  simp [remaining, h]

theorem remaining_of_waiting (h : a.processState = .waitingAck) : a.remaining messages = 0 := by
  simp [remaining, h]

theorem Going.of_eq {b : Action Msg} (h : a.Going) (hsta : b.status = a.status)
    (hsav : b.savedStatus = a.savedStatus) : b.Going := ⟨hsta ▸ h.status, hsav ▸ h.saved⟩

structure Sending (messages gone : List Msg) (a : Action Msg) : Prop where
  process : a.processState = .sendingMessages
  iter : a.hasIter = true
  split : gone ++ a.messages.ahead = messages
  log : a.log = gone.map .message

variable {gone : List Msg}

section

variable (h : a.Sending messages gone)

include h

theorem messageDone_spec (hgoi : a.Going) :
    a.messageDone.Phase messages ∧ a.messageDone.remaining messages = a.messages.ahead.length ∧
      a.messageDone.status = a.status ∧ a.messageDone.savedStatus = a.savedStatus := by
  unfold messageDone
  split
  · rename_i hend
    have hahe : a.messages.ahead = [] := isEmpty_iff.mp hend
    have hgon : gone = messages := by rw [← h.split, hahe, append_nil]
    refine ⟨@Phase.waiting _ _ _ [] rfl ?_ fun _ => hgoi.of_eq rfl rfl, ?_, rfl, rfl⟩
    · simp [plan, h.log, hgon]
    · rw [remaining_of_waiting rfl, hahe, length_nil]
  · rename_i hend
    have hahe : a.messages.ahead ≠ [] := fun h => hend (isEmpty_iff.mpr h)
    refine ⟨.sending h.process h.iter rfl hahe h.split h.log (hgoi.of_eq rfl rfl), ?_, rfl, rfl⟩
    exact remaining_of_sending h.process

theorem sending_sendMessage {m : Msg} {ms : List Msg} (hahe : a.messages.ahead = m :: ms) :
    a.sendMessage.Sending messages (gone ++ [m]) ∧ a.sendMessage.messages.ahead = ms ∧
      a.sendMessage.status = a.status ∧ a.sendMessage.savedStatus = a.savedStatus := by
  have hcur : a.messages.current = some m := by rw [current, hahe, head?_cons]
  have hera : a.messages.erase.ahead = ms := by simp [erase, hahe]
  unfold sendMessage
  rw [hcur]
  refine ⟨⟨h.process, h.iter, ?_, ?_⟩, hera, rfl, rfl⟩
  · rw [← h.split, hahe, hera, append_assoc, singleton_append]
  · simp [h.log]

/-- One execution sends a message and goes on to the next one, or sends `done` as well. -/
theorem sendMessages_spec
    (hstt : a.messages.ahead ≠ [] → a.messageState = .sending) (hgoi : a.Going)
    (reply : Option String) :
    ∃ b, a.sendMessages reply = some (a.status, b) ∧ b.Phase messages ∧ b.status = a.status ∧
      b.savedStatus = a.savedStatus ∧ b.remaining messages = a.messages.ahead.length - 1 := by
  unfold sendMessages
  rw [if_pos h.iter]
  cases hahe : a.messages.ahead with
  | nil =>
    have hend : a.messages.atEnd = true := by rw [atEnd, hahe, isEmpty_nil]
    have hdon : Sending messages gone { a with messageState := .done } :=
      ⟨h.process, h.iter, h.split, h.log⟩
    obtain ⟨hpha, hrem, hsta, hsav⟩ :=
      messageDone_spec hdon (hgoi.of_eq rfl rfl)
    rw [if_pos hend]
    dsimp only
    refine ⟨_, congrArg some (Prod.ext hsta rfl), hpha, hsta, hsav, ?_⟩
    rw [hrem, hahe, length_nil]
  | cons m ms =>
    have hend : ¬a.messages.atEnd = true := by simp [atEnd, hahe]
    obtain ⟨hsen, hms, hsta, hsav⟩ := sending_sendMessage h hahe
    obtain ⟨hpha, hrem, hsta', hsav'⟩ :=
      messageDone_spec hsen (hgoi.of_eq hsta hsav)
    rw [if_neg hend]
    dsimp only
    rw [hstt (by simp [hahe])]
    refine ⟨_, congrArg some (Prod.ext (hsta'.trans hsta) rfl), hpha,
      hsta'.trans hsta, hsav'.trans hsav, ?_⟩
    rw [hrem, hms, length_cons, Nat.add_sub_cancel]

end

theorem Phase.going_of_remaining (h : a.Phase messages) (hpos : a.remaining messages ≠ 0) :
    a.Going := by
  cases h with
  | init _ _ hgoi => exact hgoi
  | sending _ _ _ _ _ _ hgoi => exact hgoi
  | waiting hpro => exact absurd (remaining_of_waiting hpro) hpos

theorem Phase.with_status {status saved : Status} (h : a.Phase messages)
    (hgoi : a.Going → Going { a with status := status, savedStatus := saved }) :
    Phase messages { a with status := status, savedStatus := saved } := by
  cases h with
  | init hpro hlog h => exact .init hpro hlog (hgoi h)
  | sending hpro hite hsta hahe hspl hlog h =>
    exact .sending hpro hite hsta hahe hspl hlog (hgoi h)
  | waiting hpro hlog h => exact .waiting hpro hlog fun hnil => hgoi (h hnil)

theorem phase_suspend (h : a.Phase messages) : a.suspend.Phase messages := by
  unfold suspend
  by_cases hs : a.status = .suspended
  · rwa [if_pos hs]
  · rw [if_neg hs]
    refine h.with_status fun hgoi => ⟨.inr (.inr rfl), ?_⟩
    rcases hgoi.status with hnew | hrun | hsus
    · exact .inl hnew
    · exact .inr hrun
    · exact absurd hsus hs

theorem status_resume (h : a.Going) : a.resume.status = a.savedStatus := by
  rcases h.saved with hsav | hsav <;> simp [resume, hsav]

theorem phase_resume (h : a.Phase messages) : a.resume.Phase messages := by
  refine h.with_status fun hgoi => ⟨?_, hgoi.saved⟩
  have hsta := status_resume hgoi
  rcases hgoi.saved with hsav | hsav
  · exact .inl (hsta.trans hsav)
  · exact .inr (.inl (hsta.trans hsav))

/-- How many polls it takes at most until everything is sent. A poll may do no more than resume
the action. -/
def pollsLeft (messages : List Msg) (a : Action Msg) : ℕ :=
  if a.remaining messages = 0 then 0
  else a.remaining messages + if a.status = .suspended then 1 else 0

theorem resumeIfSuspended_spec (h : a.Phase messages) : a.resumeIfSuspended.Phase messages ∧
      a.resumeIfSuspended.pollsLeft messages ≤ a.pollsLeft messages ∧ (a.status = .suspended →
        a.resumeIfSuspended.pollsLeft messages ≤ a.pollsLeft messages - 1) := by
  unfold resumeIfSuspended
  split
  · rename_i hsus
    have hles : a.resume.pollsLeft messages ≤ a.pollsLeft messages - 1 := by
      have hsam : a.resume.remaining messages = a.remaining messages := rfl
      unfold pollsLeft
      rw [hsam]
      by_cases hzer : a.remaining messages = 0
      · rw [if_pos hzer]
        exact Nat.zero_le _
      · have hgoi := h.going_of_remaining hzer
        have hawa : a.resume.status ≠ .suspended := by
          rw [status_resume hgoi]
          rcases hgoi.saved with hsav | hsav <;> simp [hsav]
        rw [if_neg hzer, if_neg hzer, if_neg hawa, if_pos hsus]
        omega
    exact ⟨phase_resume h, Nat.le_trans hles (Nat.sub_le _ _), fun _ => hles⟩
  · rename_i hsus
    exact ⟨h, Nat.le_refl _, fun hs => absurd hs hsus⟩

section Channel

variable (hchn : chn.syncRemoteStates = some messages)

include hchn

theorem prepare_spec (hlog : a.log = []) (hgoi : a.Going) :
    (a.prepare chn).Sending messages [] ∧ (a.prepare chn).Going ∧
      (a.prepare chn).status = .running ∧
      ((a.prepare chn).messages.ahead ≠ [] → (a.prepare chn).messageState = .sending) := by
  unfold prepare
  rw [hchn]
  refine ⟨⟨rfl, rfl, rfl, hlog⟩, ⟨.inr (.inl rfl), hgoi.saved⟩, rfl, ?_⟩
  intro hne
  exact if_neg fun h => hne (isEmpty_iff.mp h)

section

variable (h : a.Phase messages)

include h

theorem run_spec (reply : Option String) :
    ∃ b, a.run chn reply = some b ∧ b.Phase messages ∧
      b.remaining messages ≤ a.remaining messages - 1 ∧
      (a.remaining messages ≠ 0 → a.status ≠ .suspended → b.status ≠ .suspended) := by
  unfold run execute
  cases h with
  | init hpro hlog hgoi =>
    obtain ⟨hsen, hgoi', hstt, hsta⟩ := prepare_spec hchn hlog hgoi
    obtain ⟨b, hb, hpha, hbst, -, hrem⟩ :=
      sendMessages_spec hsen hsta hgoi' reply
    rw [hpro]
    dsimp only
    rw [if_neg (by simp [hstt]), hb, ← hbst, map_some]
    refine ⟨b, rfl, hpha, ?_, fun _ _ => by simp [hbst, hstt]⟩
    have hlen : (a.prepare chn).messages.ahead.length = messages.length :=
      congrArg length hsen.split
    rw [hrem, hlen, remaining_of_init hpro]
    omega
  | sending hpro hite hsta hahe hspl hlog hgoi =>
    obtain ⟨b, hb, hpha, hbst, -, hrem⟩ :=
      sendMessages_spec ⟨hpro, hite, hspl, hlog⟩ (fun _ => hsta) hgoi reply
    rw [hpro]
    dsimp only
    rw [hb, ← hbst, map_some]
    refine ⟨b, rfl, hpha, ?_, fun _ hs => hs⟩
    rw [remaining_of_sending hpro]
    exact Nat.le_of_eq hrem
  | @waiting replies hpro hlog hgoi =>
    have hzer : a.remaining messages = 0 := remaining_of_waiting hpro
    rw [hpro]
    dsimp only
    rw [map_some]
    unfold awaitAck
    cases reply with
    | none => exact ⟨a, rfl, .waiting hpro hlog hgoi, by simp [hzer], by simp [hzer]⟩
    | some ack =>
      refine ⟨_, rfl, @Phase.waiting _ _ _ (replies ++ [ack]) hpro ?_ ?_, ?_, by simp [hzer]⟩
      · simp [hlog]
      · simp
      · rw [hzer]
        exact Nat.le_of_eq (remaining_of_waiting hpro)

theorem pollsLeft_run (hsta : a.status ≠ .suspended)
    (reply : Option String) : ∃ b, a.run chn reply = some b ∧ b.Phase messages ∧
      b.pollsLeft messages ≤ a.pollsLeft messages - 1 := by
  obtain ⟨b, hb, hpha, hrem, hawa⟩ := run_spec hchn h reply
  refine ⟨b, hb, hpha, ?_⟩
  unfold pollsLeft
  by_cases hzer : b.remaining messages = 0
  · rw [if_pos hzer]
    exact Nat.zero_le _
  · have hpos : a.remaining messages ≠ 0 := by omega
    rw [if_neg hzer, if_neg hpos, if_neg (hawa hpos hsta), if_neg hsta]
    exact hrem

theorem runIf_spec {c : Prop} [Decidable c]
    (hc : c → a.status ≠ .suspended) (reply : Option String) :
    ∃ b, (if c then a.run chn reply else some a) = some b ∧ b.Phase messages ∧
      b.pollsLeft messages ≤ a.pollsLeft messages ∧
      (c → b.pollsLeft messages ≤ a.pollsLeft messages - 1) := by
  split
  · rename_i hrun
    obtain ⟨b, hb, hpha, hles⟩ := pollsLeft_run hchn h (hc hrun) reply
    exact ⟨b, hb, hpha, Nat.le_trans hles (Nat.sub_le _ _), fun _ => hles⟩
  · rename_i hrun
    exact ⟨a, rfl, h, Nat.le_refl _, fun hs => absurd hs hrun⟩

theorem checkComplete_spec (first second : Option String) :
    ∃ b, a.checkComplete chn first second = some b ∧ b.Phase messages ∧
      b.pollsLeft messages ≤ a.pollsLeft messages - 1 := by
  have hawa : a.status = .new ∨ a.status = .needsRetry → a.status ≠ .suspended := by
    rintro (hs | hs) <;> simp [hs]
  obtain ⟨b, hb, hpha, hle, hnew⟩ := runIf_spec hchn h hawa first
  obtain ⟨hpha', hle', hsus⟩ := resumeIfSuspended_spec hpha
  obtain ⟨d, hd, hpha'', hle'', hrun⟩ :=
    runIf_spec hchn hpha' (c := b.resumeIfSuspended.status = .running) (by simp_all) second
  refine ⟨d, by rw [checkComplete, runIfNew, hb, bind_some, runIfRunning, hd], hpha'', ?_⟩
  by_cases hzer : a.remaining messages = 0
  · have hdon : a.pollsLeft messages = 0 := by rw [pollsLeft, if_pos hzer]
    omega
  · rcases (h.going_of_remaining hzer).status with hsta | hsta | hsta
    · have := hnew (.inl hsta)
      omega
    all_goals
      -- such an action is not executed by the first step
      rw [if_neg (by simp [hsta]), some.injEq] at hb
      subst hb
    · have hawa : a.resumeIfSuspended = a := if_neg (by simp [hsta])
      have := hrun (by rw [hawa, hsta])
      omega
    · have := hsus hsta
      omega

theorem step_spec (e : Event) : ∃ b, a.step chn e = some b ∧ b.Phase messages := by
  cases e with
  | call reply =>
    have hcal : Phase messages { a with status := .running, savedStatus := .running } :=
      h.with_status fun _ => ⟨.inr (.inl rfl), .inr rfl⟩
    obtain ⟨b, hb, hpha, -⟩ := run_spec hchn hcal reply
    exact ⟨b, hb, hpha⟩
  | run reply =>
    obtain ⟨b, hb, hpha, -⟩ := run_spec hchn h reply
    exact ⟨b, hb, hpha⟩
  | checkComplete first second =>
    obtain ⟨b, hb, hpha, -⟩ := checkComplete_spec hchn h first second
    exact ⟨b, hb, hpha⟩
  | suspend => exact ⟨_, rfl, phase_suspend h⟩
  | resume => exact ⟨_, rfl, phase_resume h⟩

def poll (replies : Option String × Option String) : Event :=
  .checkComplete replies.1 replies.2

theorem execute_polls (polls : List (Option String × Option String)) :
    ∃ b, Runs.execute (step chn) a (polls.map poll) = some b ∧ b.Phase messages ∧
      b.pollsLeft messages ≤ a.pollsLeft messages - polls.length := by
  induction polls generalizing a with
  | nil => exact ⟨a, rfl, h, Nat.le_refl _⟩
  | cons p polls ih =>
    obtain ⟨b, hb, hpha, hles⟩ := checkComplete_spec hchn h p.1 p.2
    obtain ⟨d, hd, hpha', hles'⟩ := ih hpha
    refine ⟨d, ?_, hpha', ?_⟩
    · rw [map_cons, Runs.execute]
      change (a.checkComplete chn p.1 p.2).bind _ = _
      rw [hb, bind_some, hd]
    · rw [length_cons]
      omega

end

end Channel

theorem pollsLeft_le (h : a.Phase messages) : a.pollsLeft messages ≤ messages.length + 2 := by
  have hrem : a.remaining messages ≤ messages.length + 1 := by
    cases h with
    | init hpro => exact Nat.le_of_eq (remaining_of_init hpro)
    | sending hpro _ _ _ hspl =>
      rw [remaining_of_sending hpro, ← hspl, length_append]
      omega
    | waiting hpro =>
      rw [remaining_of_waiting hpro]
      exact Nat.zero_le _
  unfold pollsLeft
  split_ifs
  all_goals omega

open Traffic

theorem filter_isSent_message (ms : List Msg) :
    (ms.map message).filter isSent = ms.map .message := by
  simp [List.filter_map, Function.comp_def, isSent]

theorem filter_isSent_reply (replies : List String) :
    (replies.map fun text => (.reply text : Traffic Msg)).filter isSent = [] := by
  simp [List.filter_map, Function.comp_def, isSent]

theorem filter_isSent_plan (messages : List Msg) (replies : List String) :
    (plan messages ++ replies.map reply).filter isSent = plan messages := by
  rw [filter_append, filter_isSent_reply, append_nil, plan, filter_append, filter_isSent_message]
  rfl

theorem Phase.sent_isPrefix (h : a.Phase messages) : a.sent <+: plan messages := by
  unfold sent
  cases h with
  | init _ hlog =>
    rw [hlog]
    exact nil_prefix
  | @sending gone _ _ _ _ hspl hlog =>
    rw [hlog, filter_isSent_message, plan, ← hspl, map_append, append_assoc]
    exact prefix_append _ _
  | waiting _ hlog =>
    exact ⟨[], by rw [hlog, filter_isSent_plan, append_nil]⟩

theorem Phase.sent_eq (h : a.Phase messages) (hdon : a.pollsLeft messages = 0) :
    a.sent = plan messages := by
  have hzer : a.remaining messages = 0 := by
    unfold pollsLeft at hdon
    split at hdon
    · assumption
    · omega
  cases h with
  | init hpro =>
    rw [remaining_of_init hpro] at hzer
    cases hzer
  | sending hpro _ _ hahe =>
    rw [remaining_of_sending hpro] at hzer
    exact absurd (length_eq_zero_iff.mp hzer) hahe
  | waiting _ hlog => rw [sent, hlog, filter_isSent_plan]

/-- Whenever its calls come and whatever they find, the action sends its messages once and in
order, then one `done`, and nothing more; it is complete only with a reply that was received
after `done`; and as many polls as there are messages, and two, send all of it. -/
theorem sync_exactly_once (isClient : Bool) (messages : List Msg) (events : List Event) :
    ∃ a, Runs.execute (step ⟨isClient, some messages⟩) new events = some a ∧
      a.sent <+: plan messages ∧ (a.status = .complete → ∃ reply replies,
        a.log = plan messages ++ (reply :: replies).map .reply) ∧
      ∀ polls : List (Option String × Option String), messages.length + 2 ≤ polls.length →
        ∃ b, Runs.execute (step ⟨isClient, some messages⟩) a (polls.map poll) = some b ∧
          b.sent = plan messages := by
  have hnew : (new : Action Msg).Phase messages := .init rfl rfl ⟨.inl rfl, .inr rfl⟩
  have hchn : (⟨isClient, some messages⟩ : Channel Msg).syncRemoteStates = some messages := rfl
  obtain ⟨a, ha, hpha⟩ :=
    Runs.execute_invariant (fun _ e h => step_spec hchn h e) hnew events
  refine ⟨a, ha, hpha.sent_isPrefix, ?_, ?_⟩
  · intro hcom
    have hend : ¬a.Going := by
      intro hgoi
      rcases hgoi.status with hs | hs | hs <;> simp [hcom] at hs
    cases hpha with
    | init _ _ hgoi => exact absurd hgoi hend
    | sending _ _ _ _ _ _ hgoi => exact absurd hgoi hend
    | @waiting replies _ hlog hgoi =>
      cases replies with
      | nil => exact absurd (hgoi rfl) hend
      | cons reply replies => exact ⟨reply, replies, hlog⟩
  · intro polls hpol
    obtain ⟨b, hb, hpha', hles⟩ := execute_polls hchn hpha polls
    have hle := pollsLeft_le hpha
    exact ⟨b, hb, hpha'.sent_eq (by omega)⟩

end Action

end Clockwork.SyncStates
