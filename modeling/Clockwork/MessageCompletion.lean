import Clockwork.Messages

namespace Clockwork.Messages

open WorkStack List Option Machine Nat

variable {α : Type}

def Activity.isResponse : Activity α → Bool
  | .executeMessage _ _ => true
  | _ => false

/-- The action changes the state to `dest`, or aborts because it cannot. -/
def Activity.ChangesStateTo (dest : String) : Activity α → Prop
  | .moveState _ d => d = dest
  | .stableStateTest d _ _ => d = dest
  | _ => False

def responses (s t : Stack (Activity α)) : List (Job (Activity α)) :=
  (newJobs s t).filter (·.kind.isResponse)

/-- How a message that requires a response has to be handled: one response is queued, and
it is executed after the handler and, for a transition, after the change of state, as both
have been executed and removed by then. -/
structure WellHandled (m : Machine α) (sender : Sender) (text : String)
    (s : Stack (Activity α)) : Prop where
  once : ∃ id, responses s (m.handleMessage sender text true s).2 =
    [⟨id, .executeMessage (m.name ++ "." ++ shortName text ++ "_done") sender⟩]
  afterHandler : ∀ c ∈ responses s (m.handleMessage sender text true s).2, ∀ es t,
    Runs.Run Step (m.handleMessage sender text true s).2 (es ++ [.called c]) t →
    ∀ h, (m.handleMessage sender text true s).1 = some h → .removed h ∈ es
  afterChange : ∀ c ∈ responses s (m.handleMessage sender text true s).2, ∀ es t,
    Runs.Run Step (m.handleMessage sender text true s).2 (es ++ [.called c]) t →
    ∀ tr, m.findTransition sender text = some tr →
    ∃ a ∈ newJobs s (m.handleMessage sender text true s).2,
      a.kind.ChangesStateTo tr.dest ∧ .removed a ∈ es

variable {m : Machine α} {sender : Sender} {text : String}

theorem direct_trigger {t : Transition} (h : m.findTransition sender text = some t)
    (hd : direct sender text = true) : t.trigger = shortName text := by
  rw [findTransition, if_pos hd] at h
  have := find?_some h
  simp only [decide_eq_true_eq] at this
  exact this.1

def response (m : Machine α) (sender : Sender) (text : String) : Activity α :=
  .executeMessage (m.name ++ "." ++ shortName text ++ "_done") sender

theorem respond_eq (hs : sender ≠ .ioInterface) (text : String) (s : Stack (Activity α)) :
    m.respond sender (shortName text) true s = s.push (response m sender text) := by
  cases sender with
  | ioInterface => exact absurd rfl hs
  | self => rfl
  | machine => rfl

def Machine.silent (m : Machine α) (text : String) : Prop :=
  m.className = "ETHERCAT_BUS" ∧ m.receiveHandlers text ≠ []

theorem findReceiveHandler_silent (h : m.silent text) (s : Stack (Activity α)) :
    m.findReceiveHandler sender text true s = (none, s) := by
  obtain ⟨hcla, hne⟩ := h
  obtain ⟨handler, handlers, hr⟩ := exists_cons_of_ne_nil hne
  simp [findReceiveHandler, hr, hcla]

theorem findReceiveHandler_response (hs : sender ≠ .ioInterface) (h : ¬ m.silent text)
    (s : Stack (Activity α)) : ∃ handler : Option Command, m.findReceiveHandler sender text true s =
      (handler.map .command, s.push (response m sender text)) := by
  rw [← respond_eq hs]
  cases hr : m.receiveHandlers text with
  | cons handler handlers =>
    have hcla : m.className ≠ "ETHERCAT_BUS" := fun hc => h ⟨hc, by simp [hr]⟩
    simp only [findReceiveHandler, hr, if_neg hcla]
    exact ⟨_, rfl⟩
  | nil =>
    simp only [findReceiveHandler, hr]
    split
    · exact ⟨_, rfl⟩
    · exact ⟨none, rfl⟩

section Handling

variable {m : Machine α} {sender : Sender} {text : String} {s s' : Stack (Activity α)}

theorem newJobs_call (s t : Stack (Activity α)) (j : Job (Activity α)) :
    newJobs s (t.call j) = newJobs s t := rfl

variable {h : Activity α} {c : Command}

theorem handleMessage_some (hs : sender ≠ .ioInterface)
    (hf : m.findHandler sender text true s = (some h, s')) : m.handleMessage sender text true s =
      (some (s'.newJob h), (s'.push h).call (s'.newJob h)) := by
  rw [handleMessage, if_neg hs, hf]

theorem handleMessage_none (hs : sender ≠ .ioInterface)
    (hf : m.findHandler sender text true s = (none, s')) :
    m.handleMessage sender text true s = (none, stopExecuting s s') := by
  rw [handleMessage, if_neg hs, hf]

theorem newJobs_stopExecuting (s s' : Stack (Activity α)) :
    newJobs s (stopExecuting s s') = newJobs s s' := by
  unfold stopExecuting
  cases hexe : s.executing with
  | none => rfl
  | some j => exact newJobs_remove (s.fresh j (mem_of_getLast? hexe))

theorem responses_handleMessage {h : Option (Activity α)} (hs : sender ≠ .ioInterface)
    (hf : m.findHandler sender text true s = (h, s')) (hle : s.next ≤ s'.next)
    (hh : ∀ a, h = some a → a.isResponse = false) :
    responses s (m.handleMessage sender text true s).2 = responses s s' := by
  cases h with
  | none => rw [handleMessage_none hs hf, responses, newJobs_stopExecuting, responses]
  | some a =>
    have ha : (s'.newJob a).kind.isResponse = false := hh a rfl
    rw [handleMessage_some hs hf, responses, newJobs_call, newJobs_push hle, filter_append,
      filter_cons_of_neg (by simp [ha]), filter_nil, append_nil, responses]

theorem WellHandled.length_responses (h : WellHandled m sender text s) :
    (responses s (m.handleMessage sender text true s).2).length = 1 := by
  obtain ⟨id, hid⟩ := h.once
  rw [hid]
  rfl

theorem wellHandled_of_handler (c : Job (Activity α)) (rest : List (Job (Activity α)))
    (hs : sender ≠ .ioInterface) (hf : m.findHandler sender text true s = (some h, s'))
    (hle : s.next ≤ s'.next) (hnew : newJobs s s' = c :: rest)
    (hc : c.kind = response m sender text) (hret : ∀ a ∈ rest, a.kind.isResponse = false)
    (hh : h.isResponse = false) (hcha : ∀ tr, m.findTransition sender text = some tr →
      ∃ a ∈ rest ++ [s'.newJob h], a.kind.ChangesStateTo tr.dest) :
    WellHandled m sender text s := by
  have hres : responses s (m.handleMessage sender text true s).2 = [c] := by
    rw [responses_handleMessage hs hf hle (by simpa using hh), responses, hnew,
      filter_cons_of_pos (by rw [hc]; rfl), filter_eq_nil_iff.mpr]
    simpa using hret
  have hjob : newJobs s (m.handleMessage sender text true s).2 =
      c :: (rest ++ [s'.newJob h]) := by
    rw [handleMessage_some hs hf, newJobs_call, newJobs_push hle, hnew, cons_append]
  have hrem : ∀ a ∈ rest ++ [s'.newJob h], ∀ es t,
      Runs.Run Step (m.handleMessage sender text true s).2 (es ++ [.called c]) t →
      .removed a ∈ es := by
    intro a ha es t run
    refine removed_of_called run (List.Sublist.trans ?_ (newJobs_sublist s _))
    rw [hjob]
    exact (singleton_sublist.mpr ha).cons_cons c
  refine ⟨⟨c.id, ?_⟩, ?_, ?_⟩
  · rw [hres, ← response, ← hc]
  · intro c' hc' es t run h' hh'
    rw [hres, mem_singleton] at hc'
    rw [handleMessage_some hs hf, some_inj] at hh'
    subst hc' hh'
    exact hrem _ (by simp) es t run
  · intro c' hc' es t run tr htr
    rw [hres, mem_singleton] at hc'
    subst hc'
    obtain ⟨a, ha, hto⟩ := hcha tr htr
    exact ⟨a, hjob ▸ mem_cons_of_mem _ ha, hto, hrem a ha es t run⟩

theorem wellHandled_of_no_handler {c : Job (Activity α)} (hs : sender ≠ .ioInterface)
    (hf : m.findHandler sender text true s = (none, s')) (hnew : newJobs s s' = [c])
    (hc : c.kind = response m sender text) (htr : m.findTransition sender text = none) :
    WellHandled m sender text s := by
  have hres : responses s (m.handleMessage sender text true s).2 = [c] := by
    rw [handleMessage_none hs hf, responses, newJobs_stopExecuting, hnew]
    exact filter_cons_of_pos (by rw [hc]; rfl)
  refine ⟨⟨c.id, ?_⟩, ?_, ?_⟩
  · rw [hres, ← response, ← hc]
  · intro c' _ es t _ h hh
    rw [handleMessage_none hs hf] at hh
    cases hh
  · intro c' _ es t _ tr htr'
    rw [htr] at htr'
    cases htr'

theorem wellHandled_of_push (hs : sender ≠ .ioInterface)
    (hf : m.findHandler sender text true s = (some h, s.push (response m sender text)))
    (hh : h.isResponse = false)
    (hcha : ∀ tr, m.findTransition sender text = some tr → h.ChangesStateTo tr.dest) :
    WellHandled m sender text s := by
  refine wellHandled_of_handler (s.newJob (response m sender text)) [] hs hf
    (le_succ _) ?_ rfl (fun a ha => absurd ha not_mem_nil) hh ?_
  · rw [newJobs_push (le_refl _), newJobs_self, nil_append]
  · intro tr htr
    exact ⟨_, mem_singleton_self _, hcha tr htr⟩

theorem stableStateCondition_eq_none_iff (m : Machine α) (dest : String) :
    m.stableStateCondition dest = none ↔ ∀ st ∈ m.stableStates, st.stateName ≠ dest := by
  have hsom : ∀ (l : List (StableState α)) (p : Predicate α),
      (l.foldl joinCondition (some p)).isSome := by
    intro l
    induction l with
    | nil => exact fun _ => rfl
    | cons st l ih => exact fun p => ih _
  have hnil : (∀ st ∈ m.stableStates, st.stateName ≠ dest) ↔
      m.stableStates.filter (·.stateName = dest) = [] := by
    simp [filter_eq_nil_iff]
  rw [hnil, stableStateCondition]
  cases m.stableStates.filter (·.stateName = dest) with
  | nil => simp
  | cons st l =>
    obtain ⟨p, hp⟩ := isSome_iff_exists.mp (hsom l st.condition)
    have hfol : (st :: l).foldl joinCondition none = some p := hp
    simp [hfol]

variable {t : Transition}

theorem findHandler_direct (htr : m.findTransition sender text = some t)
    (hd : direct sender text = true) :
    m.findHandler sender text true s = m.performTransition sender t true s := by
  simp only [findHandler, htr, if_pos hd]

theorem wellHandled_unlinked (hs : sender ≠ .ioInterface)
    (htr : m.findTransition sender text = some t)
    (hlink : direct sender text = true → m.hasCommand t.trigger = false) :
    WellHandled m sender text s := by
  cases hd : direct sender text with
  | true =>
    refine wellHandled_of_push (h := .moveState m.name t.dest) hs ?_ rfl ?_
    · rw [findHandler_direct htr hd, performTransition, hlink hd,
        if_neg Bool.false_ne_true, changeState, direct_trigger htr hd, respond_eq hs]
    · intro tr h
      rw [htr, some_inj] at h
      exact h ▸ rfl
  | false =>
    refine wellHandled_of_push (h := .moveState "SELF" t.dest) hs ?_ rfl ?_
    · simp only [findHandler, htr, hd, respond_eq hs, Bool.false_eq_true, if_false]
    · intro tr h
      rw [htr, some_inj] at h
      exact h ▸ rfl

section Linked

variable (hs : sender ≠ .ioInterface) (htr : m.findTransition sender text = some t)
  (hd : direct sender text = true) (hlink : m.hasCommand t.trigger = true)

include hs htr hd hlink

/-- A transition with a command, to a state that is not stable: the change of state is
pushed on the response, and the command runs first. -/
theorem wellHandled_linked (hmat : m.findMatchingCommand t.trigger = some c)
    (hsta : m.stableStateCondition t.dest = none) : WellHandled m sender text s := by
  have hf : m.findHandler sender text true s = (some (.command c),
      (s.push (response m sender text)).push (.moveState "SELF" t.dest)) := by
    rw [findHandler_direct htr hd, performTransition, if_pos hlink, hmat, hsta,
      direct_trigger htr hd, respond_eq hs]
  refine wellHandled_of_handler (s.newJob (response m sender text))
    [(s.push (response m sender text)).newJob (.moveState "SELF" t.dest)] hs hf
    (le_add_right _ 2) ?_ rfl ?_ rfl ?_
  · rw [newJobs_push (le_succ _), newJobs_push (le_refl _), newJobs_self]
    rfl
  · intro a ha
    rw [mem_singleton.mp ha]
    rfl
  · intro tr h
    rw [htr, some_inj] at h
    exact ⟨_, mem_cons_self, h ▸ rfl⟩

theorem not_wellHandled_stable {p : Predicate α} (hmat : m.findMatchingCommand t.trigger = some c)
    (hsta : m.stableStateCondition t.dest = some p) : ¬ WellHandled m sender text s := by
  intro hwel
  let test : Activity α := .stableStateTest t.dest p (m.failedTransition t.dest)
  let s₁ := (s.enqueue test).push (response m sender text)
  have hf : m.findHandler sender text true s = (some (.command c), s₁) := by
    rw [findHandler_direct htr hd, performTransition, if_pos hlink, hmat, hsta,
      direct_trigger htr hd]
    exact congrArg (Prod.mk _) (respond_eq hs text _)
  have hhan := handleMessage_some hs hf
  let c₁ := (s.enqueue test).newJob (response m sender text)
  let h₁ := s₁.newJob (.command c)
  have hjob : newJobs s (m.handleMessage sender text true s).2 = [s.newJob test, c₁, h₁] := by
    rw [hhan, newJobs_call, newJobs_push (le_add_right _ 2),
      newJobs_push (le_succ _), newJobs_enqueue (le_refl _), newJobs_self]
    rfl
  have hc₁ : c₁ ∈ responses s (m.handleMessage sender text true s).2 := by
    rw [responses, hjob]
    exact mem_filter.mpr ⟨by simp, rfl⟩
  let s₂ := (s₁.push (.command c)).call h₁
  have hexe : (s₂.remove h₁).executing = some c₁ := by
    have hact : (s₂.remove h₁).active = s₁.active := active_remove_push s₁ (.command c)
    rw [Stack.executing, hact]
    exact executing_push _ _
  -- once the handler is done the response is on top, and the test has not run
  have run : Runs.Run Step (m.handleMessage sender text true s).2 ([.removed h₁] ++ [.called c₁])
      ((s₂.remove h₁).call c₁) := by
    rw [hhan]
    exact .cons (.removed (mem_append_right _ mem_cons_self) mem_cons_self)
      (.cons (.called hexe) (.nil _))
  obtain ⟨a, ha, hto, hrem⟩ := hwel.afterChange c₁ hc₁ _ _ run t htr
  obtain rfl : a = h₁ := by simpa using hrem
  exact hto

/-- No command for the current state: the response is queued once for the command and
once more for the change of state. -/
theorem not_wellHandled_unmatched (hmat : m.findMatchingCommand t.trigger = none) :
    ¬ WellHandled m sender text s := by
  have hf : ∃ s', m.findHandler sender text true s = (some (.moveState m.name t.dest), s') ∧
      s.next ≤ s'.next ∧ (responses s s').length = 2 := by
    rw [findHandler_direct htr hd, performTransition, if_pos hlink, hmat]
    simp only [changeState, direct_trigger htr hd, respond_eq hs]
    refine ⟨_, rfl, ?_⟩
    cases m.stableStateCondition t.dest with
    | none =>
      refine ⟨le_add_right _ 3, ?_⟩
      rw [responses, newJobs_push (le_add_right _ 2), newJobs_push (le_succ _),
        newJobs_push (le_refl _), newJobs_self]
      rfl
    | some p =>
      refine ⟨le_add_right _ 3, ?_⟩
      rw [responses, newJobs_push (le_add_right _ 2), newJobs_push (le_succ _),
        newJobs_enqueue (le_refl _), newJobs_self]
      rfl
  obtain ⟨s', hf, hle, hlen⟩ := hf
  intro hwel
  have hone := hwel.length_responses
  rw [responses_handleMessage hs hf hle (by simp [Activity.isResponse]), hlen] at hone
  cases hone

end Linked

theorem findHandler_receive (htr : m.findTransition sender text = none)
    (hcmd : ¬ (direct sender text = true ∧ m.hasCommand (shortName text) = true)) :
    m.findHandler sender text true s = m.findReceiveHandler sender text true s := by
  simp only [findHandler, htr]
  by_cases hd : direct sender text = true
  · have hlink : ¬ m.hasCommand (shortName text) = true := fun h => hcmd ⟨hd, h⟩
    rw [if_pos hd, performCommand, if_neg hlink]
  · rw [if_neg hd]

theorem newJobs_push_self (s : Stack (Activity α)) (k : Activity α) :
    newJobs s (s.push k) = [s.newJob k] := by
  rw [newJobs_push (le_refl _), newJobs_self, nil_append]

theorem wellHandled_receive_iff (hs : sender ≠ .ioInterface)
    (htr : m.findTransition sender text = none)
    (hcmd : ¬ (direct sender text = true ∧ m.hasCommand (shortName text) = true)) :
    WellHandled m sender text s ↔ ¬ m.silent text := by
  have hfin := findHandler_receive (s := s) htr hcmd
  constructor
  · intro hwel hsil
    rw [findReceiveHandler_silent hsil] at hfin
    have hone := hwel.length_responses
    rw [responses_handleMessage hs hfin (le_refl _) (by simp), responses, newJobs_self] at hone
    cases hone
  · intro hlou
    obtain ⟨handler, hr⟩ := findReceiveHandler_response hs hlou s
    rw [hr] at hfin
    cases handler with
    | none => exact wellHandled_of_no_handler hs hfin (newJobs_push_self s _) rfl htr
    | some c => exact wellHandled_of_push hs hfin rfl (by simp [htr])

section Commands

variable (hs : sender ≠ .ioInterface) (htr : m.findTransition sender text = none)
  (hd : direct sender text = true) (hlink : m.hasCommand (shortName text) = true)

include hs htr hd hlink

theorem wellHandled_command (hmat : m.findMatchingCommand (shortName text) = some c) :
    WellHandled m sender text s := by
  refine wellHandled_of_push (h := .command c) hs ?_ rfl ?_
  · simp only [findHandler, htr, if_pos hd, performCommand, hlink, hmat, respond_eq hs, if_true]
  · intro tr h
    rw [htr] at h
    cases h

section

variable (hmat : m.findMatchingCommand (shortName text) = none)

include hmat

theorem findHandler_unmatched :
    m.findHandler sender text true s =
      m.findReceiveHandler sender text true (s.push (response m sender text)) := by
  simp only [findHandler, htr, if_pos hd, performCommand, if_pos hlink, hmat, respond_eq hs]

/-- A command of which no variant is for the current state is answered by the search for
commands, and again by the search for receive handlers. -/
theorem wellHandled_unmatched_iff : WellHandled m sender text s ↔ m.silent text := by
  have hfin := findHandler_unmatched (s := s) hs htr hd hlink hmat
  constructor
  · intro hwel
    by_contra hlou
    obtain ⟨handler, hr⟩ := findReceiveHandler_response hs hlou (s.push (response m sender text))
    rw [hr] at hfin
    have hone := hwel.length_responses
    rw [responses_handleMessage hs hfin (le_add_right _ 2) (by simp [Activity.isResponse]),
      responses, newJobs_push (le_succ _), newJobs_push_self] at hone
    cases hone
  · intro hsil
    rw [findReceiveHandler_silent hsil] at hfin
    exact wellHandled_of_no_handler hs hfin (newJobs_push_self s _) rfl htr

end

end Commands

theorem not_wellHandled_ioInterface : ¬ WellHandled m .ioInterface text s := by
  intro hwel
  have hone := hwel.length_responses
  have hnon : (m.handleMessage .ioInterface text true s).2 = stopExecuting s s := rfl
  rw [hnon, responses, newJobs_stopExecuting, newJobs_self] at hone
  cases hone

end Handling

/-- A transition that is linked to commands needs one for the current state and must not
lead to a stable state. A command without a transition needs one for the current state,
and other messages must not be swallowed by the receive handlers of the bus. -/
def Answerable (m : Machine α) (sender : Sender) (text : String) : Prop :=
  sender ≠ .ioInterface ∧
    match m.findTransition sender text with
    | some t =>
      direct sender text = true ∧ m.hasCommand t.trigger = true →
        (m.findMatchingCommand t.trigger).isSome ∧ ∀ st ∈ m.stableStates, st.stateName ≠ t.dest
    | none =>
      if direct sender text = true ∧ m.hasCommand (shortName text) = true then
        (m.findMatchingCommand (shortName text)).isSome ∨ m.silent text
      else ¬ m.silent text

theorem wellHandled_iff (m : Machine α) (sender : Sender) (text : String)
    (s : Stack (Activity α)) : WellHandled m sender text s ↔ Answerable m sender text := by
  by_cases hs : sender = .ioInterface
  · subst hs
    exact iff_of_false not_wellHandled_ioInterface fun h => h.1 rfl
  -- the cases are those of the search: a transition, a command of the machine, a handler
  rw [Answerable, and_iff_right hs]
  cases htr : m.findTransition sender text with
  | some t =>
    simp only [← stableStateCondition_eq_none_iff]
    by_cases hlink : direct sender text = true ∧ m.hasCommand t.trigger = true
    · obtain ⟨hd, hcmd⟩ := hlink
      cases hmat : m.findMatchingCommand t.trigger with
      | none =>
        exact iff_of_false (not_wellHandled_unmatched hs htr hd hcmd hmat)
          fun h => Bool.false_ne_true (h ⟨hd, hcmd⟩).1
      | some c =>
        cases hsta : m.stableStateCondition t.dest with
        | none =>
          exact iff_of_true (wellHandled_linked hs htr hd hcmd hmat hsta) fun _ => ⟨rfl, rfl⟩
        | some p =>
          exact iff_of_false (not_wellHandled_stable hs htr hd hcmd hmat hsta)
            fun h => by cases (h ⟨hd, hcmd⟩).2
    · exact iff_of_true (wellHandled_unlinked hs htr (by simpa using hlink))
        fun h => absurd h hlink
  | none =>
    by_cases hcmd : direct sender text = true ∧ m.hasCommand (shortName text) = true
    · obtain ⟨hd, hlink⟩ := hcmd
      simp only [if_pos (And.intro hd hlink)]
      cases hmat : m.findMatchingCommand (shortName text) with
      | none => simpa using wellHandled_unmatched_iff hs htr hd hlink hmat
      | some c => exact iff_of_true (wellHandled_command hs htr hd hlink hmat) (.inl rfl)
    · simp only [if_neg hcmd]
      exact wellHandled_receive_iff hs htr hcmd

def starter : Machine Unit where
  name := "m"
  className := "STARTER"
  currentState := "idle"
  transitions := [⟨"idle", "busy", "start", none⟩]
  commands := [⟨"start", "ready", false⟩]
  stableStates := []
  receives := []

/-- The transition is taken, the command is not for the current state, and the sender is
told twice that `start` is done. -/
theorem start_done_twice :
    ((responses .empty (starter.handleMessage (.machine "p") "start" true .empty).2).map
        Job.kind = [.executeMessage "m.start_done" (.machine "p"),
          .executeMessage "m.start_done" (.machine "p")]) ∧
      ¬ WellHandled starter (.machine "p") "start" .empty := by
  refine ⟨by decide, fun h => ?_⟩
  exact absurd h.length_responses (by decide)

end Clockwork.Messages
