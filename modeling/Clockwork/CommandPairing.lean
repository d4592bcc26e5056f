import Mathlib.Data.List.Basic

namespace Clockwork.CommandPairing

open Option

inductive Manager where
  | command | subscription
deriving DecidableEq, Repr

/-- The length of a message, as far as a `CommandManager` treats it: it does not see an empty one,
and its buffer has no room for a long one. -/
inductive Size where
  | empty | short | long
deriving DecidableEq, Repr

inductive Request where
  /-- the commands are numbered as they are taken -/
  | command (n : ℕ)
  /-- the request for a channel that a `SubscriptionManager` sends when it sets up its
  connections -/
  | channel
deriving DecidableEq, Repr

inductive Output where
  | taken (n : ℕ)
  | replied
  | answered (r : Request)
  | overrun
deriving DecidableEq, Repr

structure State where
  count : ℕ
  waiting : Option ℕ
  /-- the command that is waited for, if it was sent and not answered -/
  pending : List Request
  /-- other requests that were sent and not answered -/
  late : List Request
  connecting : Bool

/-- What a call meets. `received` is what `safeRecv` gets from the setup socket, and for which
request the remote has sent it. -/
structure Call where
  connectedAtStart : Bool
  connectedAtSend : Bool
  connectedAfter : Bool
  setupDone : Bool
  polled : Bool
  commandReady : Bool
  setupReady : Bool
  command : Option Size
  sendThrows : Bool
  received : Option (Request × Size)

inductive Event where
  | call (i : Call)
  | setupSend
  | setupRecv (r : Request)

namespace State

def initial : State := ⟨0, none, [], [], false⟩

variable (s : State)

def forward (throws : Bool) : State × List Output × Bool :=
  if throws then ({ s with count := s.count + 1 }, [.taken s.count], true)
  else ({ s with count := s.count + 1, waiting := some s.count, pending := [.command s.count] },
    [.taken s.count], false)

variable (m : Manager)

/-- The first part of a call: a command is taken. Tells whether an exception ends the call. -/
def take (i : Call) : State × List Output × Bool :=
  if s.waiting.isNone && i.polled && i.commandReady then
    match m, i.command with
    | _, none => (s, [], false)
    | .command, some .empty => ({ s with count := s.count + 1 }, [.taken s.count], false)
    | .command, some .short =>
      if i.connectedAtSend then s.forward i.sendThrows
      else ({ s with count := s.count + 1, waiting := some s.count }, [.taken s.count], false)
    -- `buf[msglen] = 0` is outside of `buf`
    | .command, some .long =>
      ({ s with count := s.count + 1 }, [.taken s.count, .overrun], true)
    | .subscription, some _ =>
      if i.connectedAtSend && i.setupDone then s.forward i.sendThrows
      else ({ s with count := s.count + 1 }, [.taken s.count, .replied], false)
  else (s, [], false)

def consume (r : Request) : State :=
  if r ∈ s.pending then { s with pending := s.pending.erase r }
  else { s with late := s.late.erase r }

/-- The manager has replied and takes the next command. -/
def release : State :=
  { s with waiting := none, pending := [], late := s.pending ++ s.late }

/-- What is received while no command is waited for is thrown away by a `SubscriptionManager`; a
`CommandManager` does not receive it. -/
def receive (r : Request) (size : Size) : State × List Output :=
  match m, s.waiting with
  | .command, none => (s, [])
  | .command, some _ =>
    match size with
    | .empty => (s.consume r, [])
    | .short => ((s.consume r).release, [.answered r])
    | .long => ((s.consume r).release, [.replied])
  | .subscription, none => (s.consume r, [])
  | .subscription, some _ => ((s.consume r).release, [.answered r])

def collect (i : Call) : State × List Output :=
  if s.waiting.isSome && !i.connectedAfter then (s.release, [.replied])
  else if i.polled && i.setupReady then
    match i.received with
    | none => (s, [])
    | some (r, size) => s.receive m r size
  else (s, [])

def polled (i : Call) : State × List Output :=
  let t := s.take m i
  if t.2.2 then (t.1, t.2.1)
  else
    let u := t.1.collect m i
    (u.1, t.2.1 ++ u.2)

def checkConnections (i : Call) : State × List Output :=
  match m with
  | .command =>
    if !s.connecting && !i.connectedAtStart then ({ s with connecting := true }, [])
    else s.polled m i
  | .subscription => if i.polled then s.polled m i else (s, [])

end State

variable (m : Manager)

def step (s : State) : Event → State × List Output
  | .call i => s.checkConnections m i
  | .setupSend => ({ s with late := .channel :: s.late }, [])
  | .setupRecv r => (s.consume r, [])

def execute (s : State) (es : List Event) : State :=
  es.foldl (fun s e => (step m s e).1) s

def trace (m : Manager) : State → List Event → List Output
  | _, [] => []
  | s, e :: es => (step m s e).2 ++ trace m (step m s e).1 es

/-- Goes through the commands and replies, from the command that has no reply yet: each one gets
a reply before the next one is taken, and an answer of the remote is the answer to it. -/
def pairing : Option ℕ → List Output → Option (Option ℕ)
  | current, [] => some current
  | none, .taken n :: out => pairing (some n) out
  | some _, .replied :: out => pairing none out
  | some n, .answered r :: out => if r = .command n then pairing none out else none
  | _, _ => none

/-- At every moment of the run requests and replies are paired so far, and no command is left
without a reply when the manager is ready for the next one. -/
def Paired (es : List Event) : Prop :=
  ∀ before after, es = before ++ after → ∃ current,
    pairing none (trace m .initial before) = some current ∧
      ((execute m .initial before).waiting = none → current = none)

/-- The remote answers what was sent to it, and each request once. -/
def Lawful (s : State) : Event → Prop
  | .call i => ∀ x ∈ i.received, x.1 ∈ (s.take m i).1.pending ++ s.late
  | .setupSend => True
  | .setupRecv r => r ∈ s.pending ++ s.late

/-- A `CommandManager` takes no command that is empty or has 1000 bytes or more, nothing is
thrown, and no answer to an earlier request is received once another command is waited for. -/
def Timely (s : State) : Event → Prop
  | .call i => (m = .command → ∀ size ∈ i.command, size = .short) ∧ i.sendThrows = false ∧
      ∀ x ∈ i.received, x.1 ∈ s.late → s.waiting = none ∧ i.commandReady = false
  | _ => True

instance (m : Manager) (s : State) : DecidablePred (Lawful m s)
  | .call i => inferInstanceAs (Decidable (∀ x ∈ i.received, _))
  | .setupSend => .isTrue trivial
  | .setupRecv r => inferInstanceAs (Decidable (r ∈ _))

instance (m : Manager) (s : State) : DecidablePred (Timely m s)
  | .call i => inferInstanceAs (Decidable ((m = .command → _) ∧ i.sendThrows = false ∧ _))
  | .setupSend => .isTrue trivial
  | .setupRecv _ => .isTrue trivial

def Along (P : Manager → State → Event → Prop) (m : Manager) : State → List Event → Prop
  | _, [] => True
  | s, e :: es => P m s e ∧ Along P m (step m s e).1 es

instance {P : Manager → State → Event → Prop} [∀ m s e, Decidable (P m s e)] (m : Manager)
    (s : State) : (es : List Event) → Decidable (Along P m s es)
  | [] => .isTrue trivial
  | e :: es => @instDecidableAnd _ _ _ (instDecidableAlong m (step m s e).1 es)

/-- What is waited for is a command, and the one that was taken last. -/
def State.Sound (s : State) : Prop := ∀ r ∈ s.pending, s.waiting.map .command = some r

theorem pairing_append (current : Option ℕ) (out out' : List Output) :
    pairing current (out ++ out') = (pairing current out).bind fun c => pairing c out' := by
  induction out generalizing current with
  | nil => rfl
  | cons o out ih =>
    cases current with
    | none =>
      cases o with
      | taken n => exact ih (some n)
      | replied => rfl
      | answered r => rfl
      | overrun => rfl
    | some n =>
      cases o with
      | taken n => rfl
      | replied => exact ih none
      | answered r =>
        simp only [List.cons_append, pairing]
        split_ifs
        · exact ih none
        · rfl
      | overrun => rfl

section Call

variable {s : State} {m : Manager} {i : Call}

open State

theorem sound_of_pending_nil (h : s.pending = []) : s.Sound := by
  intro r hr
  rw [h] at hr
  cases hr

theorem forward_spec (hwai : s.waiting = none) : (s.forward false).2.2 = false ∧
    pairing s.waiting (s.forward false).2.1 = some (s.forward false).1.waiting ∧
      (s.forward false).1.Sound := by
  rw [hwai]
  exact ⟨rfl, rfl, by simp [forward, Sound]⟩

theorem take_spec (hs : s.Sound) (htim : Timely m s (.call i)) : (s.take m i).2.2 = false ∧
    pairing s.waiting (s.take m i).2.1 = some (s.take m i).1.waiting ∧ (s.take m i).1.Sound := by
  obtain ⟨hsho, hthr, -⟩ := htim
  by_cases hrea : (s.waiting.isNone && i.polled && i.commandReady) = true
  · have hwai : s.waiting = none := by simp_all
    have hpen : s.pending = [] := by
      rw [List.eq_nil_iff_forall_not_mem]
      intro r hr
      simpa [hwai] using hs r hr
    have hnot (t : State) (h : t.pending = s.pending) : t.Sound :=
      sound_of_pending_nil (h.trans hpen)
    unfold take
    rw [if_pos hrea, hthr]
    split
    · exact ⟨rfl, rfl, hs⟩
    · next hcom => cases hsho rfl _ hcom
    · split_ifs
      · exact forward_spec hwai
      · rw [hwai]
        exact ⟨rfl, rfl, hnot _ rfl⟩
    · next hcom => cases hsho rfl _ hcom
    · split_ifs
      · exact forward_spec hwai
      · rw [hwai]
        exact ⟨rfl, rfl, hnot _ rfl⟩
  · unfold take
    rw [if_neg hrea]
    exact ⟨rfl, rfl, hs⟩

theorem sound_consume (hs : s.Sound) (r : Request) : (s.consume r).Sound := by
  unfold consume
  split_ifs
  · exact fun r' hr' => hs r' (List.mem_of_mem_erase hr')
  · exact hs

theorem consume_waiting (r : Request) : (s.consume r).waiting = s.waiting := by
  unfold consume
  split_ifs <;> rfl

theorem collect_spec (hs : s.Sound) (hrec : ∀ x ∈ i.received, s.waiting ≠ none → x.1 ∈ s.pending) :
    pairing s.waiting (s.collect m i).2 = some (s.collect m i).1.waiting ∧
      (s.collect m i).1.Sound := by
  have hrel (t : State) : t.release.Sound := sound_of_pending_nil rfl
  unfold collect
  split_ifs with hlos
  · obtain ⟨n, hn⟩ := isSome_iff_exists.mp (Bool.and_eq_true_iff.mp hlos).1
    rw [hn]
    exact ⟨rfl, hrel s⟩
  · split
    · exact ⟨rfl, hs⟩
    · next r size hr =>
      have hcon := sound_consume hs r
      cases hwai : s.waiting with
      | none => cases m <;> simp [receive, hwai, pairing, consume_waiting, hs, hcon]
      | some n =>
        -- it is the answer to the command that is waited for
        obtain rfl : .command n = r := by
          simpa [hwai] using hs r (hrec _ hr (by simp [hwai]))
        have hwai' : (s.consume (.command n)).release.waiting = none := rfl
        cases m <;> cases size <;>
          simp [receive, hwai, hwai', pairing, consume_waiting, hrel, hcon]
  · exact ⟨rfl, hs⟩

theorem polled_spec (hs : s.Sound) (hlaw : Lawful m s (.call i)) (htim : Timely m s (.call i)) :
    pairing s.waiting (s.polled m i).2 = some (s.polled m i).1.waiting ∧
      (s.polled m i).1.Sound := by
  obtain ⟨hthr, htak, hsou⟩ := take_spec hs htim
  have hrec : ∀ x ∈ i.received, (s.take m i).1.waiting ≠ none → x.1 ∈ (s.take m i).1.pending := by
    intro x hx hwai
    refine (List.mem_append.mp (hlaw x hx)).resolve_right fun hlat => hwai ?_
    obtain ⟨hnon, hrea⟩ := htim.2.2 x hx hlat
    simp [take, hrea, hnon]
  obtain ⟨hcol, hsou'⟩ := collect_spec (m := m) hsou hrec
  unfold polled
  simp only [hthr, Bool.false_eq_true, if_false]
  exact ⟨by rw [pairing_append, htak, bind_some, hcol], hsou'⟩

end Call

theorem step_spec {m : Manager} {s : State} (hs : s.Sound) {e : Event} (hlaw : Lawful m s e)
    (htim : Timely m s e) : pairing s.waiting (step m s e).2 = some (step m s e).1.waiting ∧
      (step m s e).1.Sound := by
  cases e with
  | call i =>
    have hpol := polled_spec hs hlaw htim
    cases m with
    | command =>
      simp only [step, State.checkConnections]
      split_ifs
      · exact ⟨rfl, hs⟩
      · exact hpol
    | subscription =>
      simp only [step, State.checkConnections]
      split_ifs
      · exact hpol
      · exact ⟨rfl, hs⟩
  | setupSend => exact ⟨rfl, hs⟩
  | setupRecv r => exact ⟨by rw [step, consume_waiting]; rfl, sound_consume hs r⟩

def quietCall : Call where
  connectedAtStart := true
  connectedAtSend := true
  connectedAfter := true
  setupDone := true
  polled := true
  commandReady := false
  setupReady := false
  command := none
  sendThrows := false
  received := none

end Clockwork.CommandPairing
