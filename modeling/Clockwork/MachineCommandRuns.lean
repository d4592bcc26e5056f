import Clockwork.MachineCommand
import Mathlib.Data.Prod.Lex
import Mathlib.Order.WellFounded

namespace Clockwork.MachineCommand

open List Function State Nat

/-- The actions were started in order, each once and again after each `NeedsRetry`;
`n` is the next one to start. -/
inductive Sequential : List Event → ℕ → Prop
  | nil : Sequential [] 0
  | start {t : List Event} {n : ℕ} (h : Sequential t n) : Sequential (t ++ [.start n]) (n + 1)
  | retry {t : List Event} {n : ℕ} (h : Sequential t n) : Sequential (t ++ [.start n, .retry n]) n
  | fail {t : List Event} {n : ℕ} (i : ℕ) (h : Sequential t n) : Sequential (t ++ [.fail i]) n

def NoStartAfterFailure (t : List Event) : Prop :=
  ∀ t₁ t₂ i, t = t₁ ++ .fail i :: t₂ → ∀ j, .start j ∉ t₂

def script (scripts : List Script) (i : ℕ) : Script := scripts.getD i ⟨0, 0, true⟩

/-- The actions that are reached: those up to the first `AbortAction`. -/
def reached : List (Option Script) → List Script
  | [] => []
  | none :: _ => [abortScript]
  | some a :: steps => a :: reached steps

theorem length_reached_le (steps : List (Option Script)) :
    (reached steps).length ≤ steps.length := by
  induction steps with
  | nil => exact le_rfl
  | cons a steps ih => cases a <;> simp [reached, ih]

variable {steps : List (Option Script)}

theorem script_of_abort {i : ℕ} (h : i < (reached steps).length) (habo : steps[i]? = some none) :
    i + 1 = (reached steps).length ∧ script (reached steps) i = abortScript := by
  induction steps generalizing i with
  | nil => cases h
  | cons a steps ih =>
    cases a with
    | none =>
      obtain rfl : i = 0 := by simpa [reached] using h
      exact ⟨rfl, rfl⟩
    | some a =>
      cases i with
      | zero => cases habo
      | succ i =>
        obtain ⟨hlen, hscr⟩ := ih (lt_of_succ_lt_succ h) habo
        exact ⟨congrArg succ hlen, hscr⟩

theorem abort_of_length_lt (h : (reached steps).length < steps.length) :
    ∃ i, i + 1 = (reached steps).length ∧ steps[i]? = some none := by
  induction steps with
  | nil => cases h
  | cons a steps ih =>
    cases a with
    | none => exact ⟨0, rfl, rfl⟩
    | some a =>
      obtain ⟨i, hlen, habo⟩ := ih (lt_of_succ_lt_succ h)
      exact ⟨i + 1, congrArg succ hlen, habo⟩

section Phases

variable (steps : List (Option Script)) (s : State)

/-- The actions behind the current one are untouched, those before it left their
failures in the trace. -/
structure Base : Prop where
  size : s.size = steps.length
  aborts : s.aborts = fun i => decide (steps[i]? = some none)
  fresh : ∀ j, s.currentStep < j → j < (reached steps).length →
    s.actions j = ⟨script (reached steps) j, .new⟩
  ok : ∀ j < (reached steps).length, (s.actions j).ok = (script (reached steps) j).ok
  recorded : ∀ j, j < s.currentStep → (script (reached steps) j).ok = false → .fail j ∈ s.trace
  sound : ∀ j, .fail j ∈ s.trace → (script (reached steps) j).ok = false

def State.Awake : Prop :=
  s.status = .running ∨ s.status = .suspended ∧ s.savedStatus = .running

def State.current : ActionState := s.actions s.currentStep

/-- The current action is reached, and is no `AbortAction`. -/
def Within : Prop :=
  s.currentStep < (reached steps).length ∧ steps[s.currentStep]? ≠ some none

structure Startable : Prop extends Base steps s where
  within : Within steps s
  status : s.current.status = .new ∨ s.current.status = .needsRetry
  seq : Sequential s.trace s.currentStep
  stack : s.stack = [.command] ∨ s.stack = [.action s.currentStep, .command]
  awake : s.Awake

/-- The head of the loop in `runActions`: nothing was done about the current action. -/
structure Ready : Prop extends Base steps s where
  bound : s.currentStep < (reached steps).length ∨
    s.currentStep = (reached steps).length ∧ s.currentStep = s.size
  status : s.currentStep < (reached steps).length →
    s.current = ⟨script (reached steps) s.currentStep, .new⟩
  seq : Sequential s.trace s.currentStep
  stack : s.stack = [.command]
  running : s.status = .running

structure Retrying : Prop extends Startable steps s where
  retry : s.current.status = .needsRetry
  running : s.status = .running

structure Waiting : Prop extends Base steps s where
  within : Within steps s
  status : s.current.status = .running
  polls : 0 < s.current.polls
  seq : Sequential s.trace (s.currentStep + 1)
  stack : s.stack = [.action s.currentStep, .command]
  awake : s.Awake

/-- The current action is done, which the command has not noticed. -/
structure Done : Prop extends Base steps s where
  within : Within steps s
  outcome : s.current.status = .complete ∧ s.current.ok = true ∨
    s.current.status = .failed ∧ .fail s.currentStep ∈ s.trace
  seq : Sequential s.trace (s.currentStep + 1)
  stack : s.stack = [.command]
  running : s.status = .running

structure AtEnd : Prop extends Base steps s where
  bound : s.currentStep = s.size
  seq : Sequential s.trace (reached steps).length
  stack : s.stack = [.command]

/-- The command took itself off the stack at the end of the list. -/
structure Finished : Prop extends Base steps s where
  bound : s.currentStep = s.size
  seq : Sequential s.trace (reached steps).length
  stack : s.stack = []
  complete : s.status = .complete

structure Broken : Prop extends Base steps s where
  within : Within steps s
  status : s.current.status = .failed
  failed : .fail s.currentStep ∈ s.trace
  seq : Sequential s.trace (s.currentStep + 1)
  stack : s.stack = []
  running : s.status = .running

end Phases

section Operations

variable {steps : List (Option Script)} {s s' : State}

theorem Within.lt_size (h : Within steps s) (hb : Base steps s) : s.currentStep < s.size :=
  hb.size ▸ h.1.trans_le (length_reached_le steps)

theorem Base.of_change (h : Base steps s)
    (hlis : (s'.size, s'.aborts) = (s.size, s.aborts)) (hste : s'.currentStep = s.currentStep)
    (hact : ∃ a : ActionState, s'.actions = update s.actions s.currentStep a ∧ a.ok = s.current.ok)
    (htra : ∃ es, s'.trace = s.trace ++ es ∧
      ∀ j, .fail j ∈ es → (script (reached steps) j).ok = false) : Base steps s' := by
  obtain ⟨a, hact, hok⟩ := hact
  obtain ⟨es, htra, hes⟩ := htra
  obtain ⟨hsiz, habo⟩ := Prod.mk.inj hlis
  refine ⟨hsiz.trans h.size, habo.trans h.aborts, ?_, ?_, ?_, ?_⟩
  · intro j hj
    rw [hste] at hj
    rw [hact, update_of_ne (by omega)]
    exact h.fresh j hj
  · intro j hj
    rw [hact, ← h.ok j hj]
    by_cases hj : j = s.currentStep
    · rw [hj, update_self]
      exact hok
    · rw [update_of_ne hj]
  · intro j hj hf
    rw [hste] at hj
    rw [htra]
    exact mem_append_left _ (h.recorded j hj hf)
  · intro j hj
    rw [htra] at hj
    rcases mem_append.mp hj with hj | hj
    · exact h.sound j hj
    · exact hes j hj

/-- The base does not look at the stack, nor at what the command reports. -/
theorem Base.relabel (h : Base steps s) {stack : List Item} {status saved : Status} {last : ℕ} :
    Base steps { s with stack, status, savedStatus := saved, lastStep := last } :=
  ⟨h.size, h.aborts, h.fresh, h.ok, h.recorded, h.sound⟩

theorem stop_action {i : ℕ} (hsta : s.stack = [.action i, .command]) (hawa : s.Awake) :
    s.stop (.action i) = { s with stack := [.command], status := .running } := by
  rcases hawa with hr | ⟨hst, hsav⟩
  · simp [stop, hsta, hr, executing]
  · simp [stop, hsta, hst, executing, resume, hsav]

theorem stop_command (hsta : s.stack = [.command] ∨ s.stack = []) :
    s.stop .command = { s with stack := [] } := by
  rcases hsta with h | h <;> simp [stop, h, executing]

theorem finishAction_done (hb : Base steps s) (hwit : Within steps s)
    (hseq : Sequential s.trace (s.currentStep + 1))
    (hsta : s.stack = [.action s.currentStep, .command]) (hawa : s.Awake) :
    Done steps (s.finishAction s.currentStep) ∧
      (s.finishAction s.currentStep).currentStep = s.currentStep := by
  unfold finishAction
  split_ifs with hok
  · rw [stop_action (s := s.setAction s.currentStep _) hsta hawa]
    refine ⟨⟨hb.of_change rfl rfl ⟨_, rfl, rfl⟩ ⟨[], by simp [setAction], by simp⟩, hwit,
      .inl ?_, hseq, rfl, rfl⟩, rfl⟩
    simp [current, setAction, hok]
  · rw [stop_action (s := (s.setAction s.currentStep _).record _) hsta hawa]
    have hscr : (script (reached steps) s.currentStep).ok = false := by
      rw [← hb.ok _ hwit.1]
      simpa using hok
    refine ⟨⟨hb.of_change rfl rfl ⟨_, rfl, rfl⟩ ⟨[.fail s.currentStep], rfl, ?_⟩, hwit,
      .inr ?_, hseq.fail _, rfl, rfl⟩, rfl⟩
    · intro j hj
      obtain rfl : j = s.currentStep := by simpa using hj
      exact hscr
    · simp [current, setAction, record]

theorem callAction_spec (h : Startable steps s) :
    ∃ s₁, s.callAction s.currentStep = s₁ ∧ s₁.currentStep = s.currentStep ∧
      ((Startable steps s₁ ∧ s₁.current.status = .needsRetry ∧
        s₁.stack = [.action s.currentStep, .command] ∧ s₁.status = s.status ∧
        s₁.current.retries + 1 = s.current.retries ∧ s₁.current.polls = s.current.polls) ∨
      Done steps s₁ ∨ (Waiting steps s₁ ∧ s₁.current.retries = s.current.retries ∧
        s₁.current.polls = s.current.polls)) := by
  have hsta : s.start (.action s.currentStep) =
      { s with stack := [.action s.currentStep, .command] } := by
    rcases h.stack with hs | hs
    · simp [start, executing, hs]
    · have : s.executing = some (.action s.currentStep) := by simp [executing, hs]
      rw [start, if_pos this, ← hs]
  have hb := h.toBase
  unfold callAction
  rw [hsta]
  -- it asks for a retry, it is done at once, or it goes on running
  split_ifs with hr hp
  · refine ⟨_, rfl, rfl, .inl ?_⟩
    refine ⟨⟨hb.of_change rfl rfl ⟨_, rfl, rfl⟩ ⟨[.start s.currentStep, .retry s.currentStep],
      by simp [record, setAction], by simp⟩, h.within, .inr ?_, ?_, .inr rfl,
      h.awake⟩, ?_, rfl, rfl, ?_, ?_⟩
    · simp [current, setAction, record]
    · simpa [record, setAction] using h.seq.retry
    · simp [current, setAction, record]
    · simp [current, setAction, record]
      omega
    · simp [current, setAction, record]
  · obtain ⟨hdon, hc⟩ :=
      finishAction_done (s := record
        { s with stack := [.action s.currentStep, .command] } [.start s.currentStep])
        (hb.of_change rfl rfl ⟨_, (update_eq_self _ _).symm, rfl⟩ ⟨_, rfl, by simp⟩)
        h.within h.seq.start rfl h.awake
    exact ⟨_, rfl, hc, .inr (.inl hdon)⟩
  · refine ⟨_, rfl, rfl, .inr (.inr ?_)⟩
    refine ⟨⟨hb.of_change rfl rfl ⟨_, rfl, rfl⟩ ⟨_, rfl, by simp⟩, h.within, ?_, ?_,
      h.seq.start, rfl, h.awake⟩, ?_, ?_⟩
    · simp [current, setAction, record]
    · simpa [current, setAction, record] using Nat.pos_of_ne_zero hp
    · simp [current, setAction, record]
    · simp [current, setAction, record]

theorem completeAction_spec (h : Waiting steps s) :
    ∃ r, s.completeAction s.currentStep = r ∧ r.2.currentStep = s.currentStep ∧
      ((r.1 = true ∧ Done steps r.2) ∨
      (r.1 = false ∧ Waiting steps r.2 ∧ r.2.current.retries = s.current.retries ∧
        r.2.current.polls + 1 = s.current.polls)) := by
  have hst : (s.actions s.currentStep).status = .running := h.status
  have hb := h.toBase
  by_cases hp : (s.actions s.currentStep).polls ≤ 1
  · have heq : s.completeAction s.currentStep = (true, s.finishAction s.currentStep) := by
      simp [completeAction, hst, hp]
    obtain ⟨hdon, hc⟩ := finishAction_done hb h.within h.seq h.stack h.awake
    exact ⟨_, heq, hc, .inl ⟨rfl, hdon⟩⟩
  · have heq : s.completeAction s.currentStep = (false, s.setAction s.currentStep
        { s.actions s.currentStep with polls := (s.actions s.currentStep).polls - 1 }) := by
      simp [completeAction, hst, hp]
    refine ⟨_, heq, rfl, .inr ⟨rfl, ⟨hb.of_change rfl rfl ⟨_, rfl, rfl⟩
      ⟨[], by simp [setAction], by simp⟩, h.within, ?_, ?_, h.seq, h.stack, h.awake⟩, ?_, ?_⟩⟩
    · simpa [current, setAction] using hst
    · simp [current, setAction]
      omega
    · simp [current, setAction]
    · simp [current, setAction]
      omega

theorem completeAction_done (h : Done steps s) : s.completeAction s.currentStep = (true, s) := by
  have hst : (s.actions s.currentStep).status = .complete ∨
      (s.actions s.currentStep).status = .failed := h.outcome.imp And.left And.left
  rcases hst with hst | hst <;> simp [completeAction, hst]

theorem Done.next (h : Done steps s) (n : ℕ) :
    Ready steps { s with lastStep := n, currentStep := s.currentStep + 1 } := by
  refine ⟨⟨h.size, h.aborts, ?_, h.ok, ?_, h.sound⟩, ?_, ?_, h.seq, h.stack, h.running⟩
  · intro j hj
    dsimp only at hj
    exact h.fresh j (by omega)
  · intro j hj hf
    dsimp only at hj
    by_cases hc : j = s.currentStep
    · subst hc
      rcases h.outcome with ⟨-, hok⟩ | ⟨-, hfai⟩
      · rw [current, h.ok _ h.within.1, hf] at hok
        cases hok
      · exact hfai
    · exact h.recorded j (by omega) hf
  · -- the last action that is reached is the last one, as it is no `AbortAction`
    obtain ⟨hlt, hnot⟩ := h.within
    by_cases hend : s.currentStep + 1 = (reached steps).length
    · refine .inr ⟨hend, ?_⟩
      by_contra hne
      have hlen : (reached steps).length < steps.length := by
        have hle := length_reached_le steps
        have hsiz := h.size
        dsimp only at hne
        omega
      obtain ⟨i, hi, habo⟩ := abort_of_length_lt hlen
      obtain rfl : i = s.currentStep := by omega
      exact hnot habo
    · exact .inl (by dsimp only; omega)
  · exact h.fresh (s.currentStep + 1) (by omega)

theorem Ready.suspend (h : Ready steps s) (hwit : Within steps s) :
    Startable steps s.suspend ∧ s.suspend.currentStep = s.currentStep := by
  have heq : s.suspend = { s with savedStatus := .running, status := .suspended } := by
    simp [State.suspend, h.running]
  rw [heq]
  exact ⟨⟨h.relabel, hwit, .inl (congrArg ActionState.status (h.status hwit.1)), h.seq,
    .inl h.stack, .inr ⟨rfl, rfl⟩⟩, rfl⟩

theorem Done.advance (h : Done steps s) : Ready steps (s.advance s.currentStep) := by
  have hexe : s.executing = some .command := by simp [State.executing, h.stack]
  have heq : s.advance s.currentStep =
      { s with lastStep := s.currentStep, currentStep := s.currentStep + 1 } := by
    simp [State.advance, hexe]
  rw [heq]
  exact h.next s.currentStep

/-- An `AbortAction` is started and the command is at its end then. -/
theorem runTurn_abort (h : Ready steps s) (hlt : s.currentStep < (reached steps).length)
    (habo : steps[s.currentStep]? = some none) :
    ∃ s', s.runTurn = .returned .complete s' ∧ AtEnd steps s' ∧ s'.currentStep = s.size := by
  obtain ⟨hlen, hscr⟩ := script_of_abort hlt habo
  have hact : s.actions s.currentStep = ⟨abortScript, .new⟩ := hscr ▸ h.status hlt
  have habo' : s.aborts s.currentStep = true := by simp [h.aborts, habo]
  have hcal : s.suspend.callAction s.currentStep =
      { s with
        savedStatus := .running
        actions := update s.actions s.currentStep ⟨abortScript, .complete⟩
        trace := s.trace ++ [.start s.currentStep] } := by
    simp [callAction, State.suspend, h.running, hact, abortScript, start, executing, h.stack,
      record, finishAction, setAction, stop, resume]
  have hsto : (s.suspend.callAction s.currentStep).stop (.action s.currentStep) =
      s.suspend.callAction s.currentStep := by
    rw [hcal]
    simp [stop, executing, h.stack, h.running]
  have htur : s.runTurn = .returned .complete
      ((s.suspend.callAction s.currentStep).abort s.currentStep) := if_pos habo'
  rw [State.abort, hsto, hcal] at htur
  refine ⟨_, htur, ⟨?_, rfl, ?_, h.stack⟩, rfl⟩
  · refine ⟨h.size, h.aborts, fun j hj hj' => ?_, fun j hj => ?_, fun j hj hfai => ?_,
      fun j hj => ?_⟩
    · have hle := length_reached_le steps
      have hsiz := h.size
      dsimp only at hj
      omega
    · by_cases hjc : j = s.currentStep
      · subst hjc
        simp [hscr, abortScript]
      · simpa [update_of_ne hjc] using h.ok j hj
    · refine mem_append_left _ (h.recorded j ?_ hfai)
      by_contra hge
      have hdef : (script (reached steps) j).ok = true := by
        by_cases hjc : j = s.currentStep
        · rw [hjc, hscr, abortScript]
        · simp [script, show (reached steps).length ≤ j by omega]
      rw [hfai] at hdef
      cases hdef
    · refine h.sound j ?_
      simpa using hj
  · rw [← hlen]
    exact h.seq.start

theorem runTurn_spec (h : Ready steps s) (hwit : Within steps s) :
    (∃ s', s.runTurn = .next s' ∧ Ready steps s' ∧ s'.currentStep = s.currentStep + 1) ∨
    (∃ s', s.runTurn = .returned .running s' ∧ s'.currentStep = s.currentStep ∧
      (Waiting steps s' ∨ Retrying steps s')) := by
  obtain ⟨hsta, hcur⟩ := h.suspend hwit
  have hnot : s.aborts s.currentStep ≠ true := by simpa [h.aborts] using hwit.2
  obtain ⟨s₁, heq, hc, hcal⟩ := callAction_spec hsta
  rw [hcur] at heq hc hcal
  simp only [runTurn, heq, if_neg hnot]
  -- a retry leaves the loop, a finished action goes on to the next one, a running one is polled
  -- once
  rcases hcal with ⟨h₁, hst, hstc, -⟩ | h₁ | ⟨h₁, -⟩
  · right
    rw [current, hc] at hst
    simp only [hst]
    rw [stop_action hstc h₁.awake]
    refine ⟨_, rfl, hc, .inr ?_⟩
    exact ⟨⟨h₁.relabel, h₁.within, h₁.status, h₁.seq,
      .inl rfl, .inl rfl⟩, by simpa [current, hc] using hst, rfl⟩
  · left
    rw [← hc]
    refine ⟨s₁.advance s₁.currentStep, ?_, h₁.advance, rfl⟩
    rw [completeAction_done h₁]
    rcases h₁.outcome with ⟨hst, -⟩ | ⟨hst, -⟩ <;>
      · rw [current] at hst
        simp [hst]
  · have hst : (s₁.actions s₁.currentStep).status = .running := h₁.status
    obtain ⟨r, heq', hc₂, hpol⟩ := completeAction_spec h₁
    rw [← hc]
    simp only [hst, heq']
    rcases hpol with ⟨hd, h₂⟩ | ⟨hd, h₂, -⟩
    · left
      rw [if_pos hd, ← hc₂]
      exact ⟨_, rfl, h₂.advance, rfl⟩
    · right
      rw [if_neg (by simp [hd])]
      exact ⟨_, rfl, hc₂, .inl h₂⟩

/-- `runActions` goes through the list up to an action that runs for a while or asks
to be started again. A failure does not stop it. -/
theorem runActions_spec (fuel : ℕ) (h : Ready steps s) (hfue : s.size - s.currentStep ≤ fuel) :
    s.currentStep ≤ (s.runActions fuel).2.currentStep ∧
      ((s.runActions fuel).1 = .complete ∧ AtEnd steps (s.runActions fuel).2 ∨
       (s.runActions fuel).1 = .running ∧
        (Waiting steps (s.runActions fuel).2 ∨ Retrying steps (s.runActions fuel).2)) := by
  have hend {s : State} (h : Ready steps s)
      (hlen : s.currentStep = (reached steps).length ∧ s.currentStep = s.size) :
      AtEnd steps s := ⟨h.toBase, hlen.2, hlen.1 ▸ h.seq, h.stack⟩
  have hle := length_reached_le steps
  induction fuel generalizing s with
  | zero =>
    have hsiz := h.size
    exact ⟨le_rfl, .inl ⟨rfl, hend h (h.bound.resolve_left (by omega))⟩⟩
  | succ fuel ih =>
    have hsiz := h.size
    rcases h.bound with hrea | hlen
    · rw [runActions, if_pos (by omega)]
      by_cases habo : steps[s.currentStep]? = some none
      · obtain ⟨s', heq, h', hc⟩ := runTurn_abort h hrea habo
        simp only [heq]
        exact ⟨by omega, .inl ⟨trivial, h'⟩⟩
      rcases runTurn_spec h ⟨hrea, habo⟩ with ⟨s', heq, h', hc⟩ | ⟨s', heq, hc, hpha⟩
      · have hsiz' := h'.size
        obtain ⟨hle, hres⟩ := ih h' (by omega)
        simp only [heq]
        exact ⟨by omega, hres⟩
      · simp only [heq]
        exact ⟨by omega, .inr ⟨trivial, hpha⟩⟩
    · rw [runActions, if_neg (by omega)]
      exact ⟨le_rfl, .inl ⟨rfl, hend h hlen⟩⟩

def remaining (s : State) : ℕ ×ₗ ℕ :=
  toLex (s.size - s.currentStep, s.current.retries + s.current.polls)

inductive Between (steps : List (Option Script)) (s : State) : Prop
  | waiting (h : Waiting steps s)
  | retrying (h : Retrying steps s)
  | done (h : Done steps s)
  | finished (h : Finished steps s)
  | broken (h : Broken steps s)

def Active (steps : List (Option Script)) (s : State) : Prop :=
  Waiting steps s ∨ Retrying steps s ∨ Done steps s

/-- What a drive leads to from a state that had `n` to do: the command is off the
stack, or it has less to do. -/
def Progress (steps : List (Option Script)) (n : ℕ ×ₗ ℕ) (s : State) : Prop :=
  (Finished steps s ∨ Broken steps s) ∨
    ((Waiting steps s ∨ Retrying steps s) ∧ s.status = .running ∧ remaining s < n)

theorem Active.bounds (h : Active steps s) :
    s.currentStep < s.size ∧ s.size = steps.length ∧ s.Awake := by
  rcases h with h | h | h
  · exact ⟨h.within.lt_size h.toBase, h.size, h.awake⟩
  · exact ⟨h.within.lt_size h.toBase, h.size, h.awake⟩
  · exact ⟨h.within.lt_size h.toBase, h.size, .inl h.running⟩

theorem Progress.mono {n n' : ℕ ×ₗ ℕ} (h : Progress steps n s) (hn : n ≤ n') :
    Progress steps n' s := h.imp_right fun ⟨hp, hr, hlt⟩ => ⟨hp, hr, lt_of_lt_of_le hlt hn⟩

theorem Waiting.setRunning (h : Waiting steps s) : Waiting steps { s with status := .running } :=
  ⟨h.relabel, h.within, h.status, h.polls, h.seq, h.stack,
    .inl rfl⟩

theorem Retrying.setRunning (h : Retrying steps s) : Retrying steps { s with status := .running } :=
  ⟨⟨h.relabel, h.within, h.status, h.seq, h.stack,
    .inl rfl⟩, h.retry, rfl⟩

theorem AtEnd.setStatus (h : AtEnd steps s) (stat : Status) :
    AtEnd steps { s with status := stat } := ⟨h.relabel, h.bound, h.seq, h.stack⟩

def GoesOn (steps : List (Option Script)) (s : State) : Prop :=
  AtEnd steps s ∨ (Waiting steps s ∨ Retrying steps s) ∧ s.status = .running

def TurnOk (steps : List (Option Script)) (k : ℕ) (n : ℕ ×ₗ ℕ) : State.Turn → Prop
  | .returned stat s => Progress steps n { s with status := stat }
  | .next s => k < s.currentStep ∧ GoesOn steps s

theorem goOn_ok (h : Done steps s) (n : ℕ ×ₗ ℕ) :
    TurnOk steps s.currentStep n (s.goOn (s.currentStep + 1)) := by
  obtain ⟨hle, hres⟩ := runActions_spec (s.size - (s.currentStep + 1)) (h.next s.lastStep) le_rfl
  refine ⟨hle, ?_⟩
  rcases hres with ⟨-, hend⟩ | ⟨hrun, hw | hr⟩
  · exact .inl (hend.setStatus _)
  · rw [hrun]
    exact .inr ⟨.inl hw.setRunning, rfl⟩
  · rw [hrun]
    exact .inr ⟨.inr hr.setRunning, rfl⟩

theorem giveUp_ok (h : Done steps s) (hst : s.current.status = .failed) (n : ℕ ×ₗ ℕ) :
    TurnOk steps s.currentStep n s.giveUp := by
  have hfai : .fail s.currentStep ∈ s.trace := by
    rcases h.outcome with ⟨hc, -⟩ | ⟨-, hf⟩
    · rw [hst] at hc
      cases hc
    · exact hf
  unfold giveUp
  rw [stop_command (.inl h.stack)]
  exact .inl (.inr ⟨h.relabel, h.within, hst, hfai, h.seq, rfl,
    h.running⟩)

theorem checkAction_done (h : Done steps s) (n : ℕ ×ₗ ℕ) :
    TurnOk steps s.currentStep n s.checkAction := by
  rcases h.outcome with ⟨hst, -⟩ | ⟨hst, -⟩
  · have heq : s.checkAction = s.goOn (s.currentStep + 1) := by
      rw [current] at hst
      simp [checkAction, hst]
    rw [heq]
    exact goOn_ok h n
  · have heq : s.checkAction = s.giveUp := by
      rw [current] at hst
      simp [checkAction, hst]
    rw [heq]
    exact giveUp_ok h hst n

theorem checkAction_waiting (h : Waiting steps s) :
    TurnOk steps s.currentStep (remaining s) s.checkAction := by
  have hst : (s.actions s.currentStep).status = .running := h.status
  obtain ⟨r, heq, hc, hpol⟩ := completeAction_spec h
  simp only [checkAction, hst, heq]
  rcases hpol with ⟨hd, h₂⟩ | ⟨hd, h₂, hr, hp⟩
  · rw [← hc]
    split_ifs with hf
    · exact giveUp_ok h₂ hf _
    · exact goOn_ok h₂ _
  · have hrun : (r.2.actions s.currentStep).status = .running := hc ▸ h₂.status
    rw [if_neg (by simp [hd]), hrun]
    refine .inr ⟨.inl h₂.setRunning, rfl, Prod.Lex.toLex_lt_toLex.mpr (.inr ⟨?_, ?_⟩)⟩
    · rw [hc, h₂.size, h.size]
    · show r.2.current.retries + r.2.current.polls < s.current.retries + s.current.polls
      omega

theorem checkTurn_retrying (h : Retrying steps s) :
    TurnOk steps s.currentStep (remaining s) s.checkTurn := by
  have hst : (s.actions s.currentStep).status = .needsRetry := h.retry
  obtain ⟨s₁, heq, hc, hcal⟩ := callAction_spec h.toStartable
  simp only [checkTurn, hst, heq]
  rw [if_pos (.inr trivial)]
  rcases hcal with ⟨h₁, hst₁, -, hs, hr, hp⟩ | h₁ | ⟨h₁, hr, hp⟩
  -- asked for a retry again: one retry less is left of its script
  · rw [if_pos (hc ▸ hst₁)]
    refine .inr ⟨.inr ⟨⟨h₁.relabel, h₁.within, h₁.status,
      h₁.seq, h₁.stack, .inl rfl⟩, hst₁, rfl⟩, rfl, Prod.Lex.toLex_lt_toLex.mpr (.inr ⟨?_, ?_⟩)⟩
    · rw [hc, h₁.size, h.size]
    · show s₁.current.retries + s₁.current.polls < s.current.retries + s.current.polls
      omega
  · have hne : ¬(s₁.actions s.currentStep).status = .needsRetry := by
      rw [← hc]
      show ¬s₁.current.status = .needsRetry
      rcases h₁.outcome with ⟨hs, -⟩ | ⟨hs, -⟩ <;> simp [hs]
    rw [if_neg hne, ← hc]
    exact checkAction_done h₁ _
  · have hne : ¬(s₁.actions s.currentStep).status = .needsRetry := by
      rw [← hc]
      show ¬s₁.current.status = .needsRetry
      simp [h₁.status]
    have hrem : remaining s₁ = remaining s := by
      rw [remaining, remaining, hr, hp, hc, h₁.size, h.size]
    rw [if_neg hne, ← hc, ← hrem]
    exact checkAction_waiting h₁

theorem checkTurn_ok (h : Active steps s) :
    TurnOk steps s.currentStep (remaining s) s.checkTurn := by
  have hski : ¬(s.current.status = .new ∨ s.current.status = .needsRetry) →
      s.checkTurn = s.checkAction := by
    intro hn
    rw [current] at hn
    simp only [checkTurn]
    rw [if_neg hn]
  rcases h with h | h | h
  · rw [hski (by simp [h.status])]
    exact checkAction_waiting h
  · exact checkTurn_retrying h
  · rw [hski (by rcases h.outcome with ⟨hs, -⟩ | ⟨hs, -⟩ <;> simp [hs])]
    exact checkAction_done h _

theorem checkLoop_atEnd {fuel : ℕ} (h : AtEnd steps s) :
    Finished steps { (s.checkLoop (fuel + 1)).2 with status := (s.checkLoop (fuel + 1)).1 } := by
  have hge : ¬s.currentStep < s.size := by
    have := h.bound
    omega
  rw [checkLoop, if_neg hge, stop_command (s := { s with status := .complete })
    (.inl h.stack)]
  exact ⟨h.relabel, h.bound, h.seq, rfl, rfl⟩

theorem checkLoop_spec (fuel : ℕ) (h : Active steps s) (hfue : s.size - s.currentStep < fuel) :
    Progress steps (remaining s)
      { (s.checkLoop fuel).2 with status := (s.checkLoop fuel).1 } := by
  induction fuel generalizing s with
  | zero => omega
  | succ fuel ih =>
    obtain ⟨hlt, hsiz, -⟩ := h.bounds
    have htur := checkTurn_ok h
    rw [checkLoop, if_pos hlt]
    cases ht : s.checkTurn with
    | returned stat s' =>
      rw [ht] at htur
      exact htur
    | next s' =>
      rw [ht] at htur
      obtain ⟨hste, hgo⟩ := htur
      simp only
      -- the turn finished an action: it was the last one, or the loop goes on with the next
      rcases hgo with hend | ⟨hpha, -⟩
      · obtain ⟨k, rfl⟩ : ∃ k, fuel = k + 1 := ⟨fuel - 1, by omega⟩
        exact .inl (.inl (checkLoop_atEnd hend))
      · have hact : Active steps s' := hpha.imp_right .inl
        have hsiz' := hact.bounds.2.1
        refine (ih hact (by omega)).mono (le_of_lt ?_)
        exact Prod.Lex.toLex_lt_toLex.mpr (.inl (by dsimp only; omega))

theorem resume_awake (hawa : s.Awake) :
    (if s.status = .suspended then s.resume else s) = { s with status := .running } := by
  rcases hawa with hr | ⟨hst, hsav⟩
  · rw [if_neg (by simp [hr]), ← hr]
  · simp [hst, hsav, resume]

theorem onStack_setRunning (h : Active steps s) : Active steps { s with status := .running } := by
  refine h.imp (·.setRunning) (Or.imp (·.setRunning) fun h => ?_)
  rw [← h.running]
  exact h

theorem drive_of_awake (h : s.Awake) : s.drive = { (checkLoop (s.size - s.currentStep + 1)
      { s with status := .running }).2 with
      status :=
        (checkLoop (s.size - s.currentStep + 1) { s with status := .running }).1 } := by
  have hst : s.status = .running ∨ s.status = .suspended := h.imp id And.left
  rw [drive, if_pos hst, checkComplete]
  simp only [resume_awake h, ne_eq, not_true_eq_false, if_false]

theorem drive_progress (h : Active steps s) : Progress steps (remaining s) s.drive := by
  rw [drive_of_awake (h.bounds.2.2)]
  exact checkLoop_spec _ (onStack_setRunning h) (lt_succ_self _)

theorem drive_finished (h : Finished steps s) : s.drive = s := by
  simp [drive, h.complete]

theorem drive_broken (h : Broken steps s) : s.drive = s := by
  have hst : (s.actions s.currentStep).status = .failed := h.status
  have htur : s.checkTurn = .returned .running s := by
    have hsto : s.stop .command = s := by
      rw [stop_command (.inr h.stack), ← h.stack]
    simp [checkTurn, checkAction, hst, giveUp, hsto, h.running]
  have hche : s.checkComplete = (.running, s) := by
    simp [checkComplete, h.running, checkLoop, h.within.lt_size h.toBase, htur]
  rw [drive, if_pos (.inl h.running), hche, ← h.running]

theorem poll_of_not_action (h : ∀ i, s.executing ≠ some (.action i)) : s.poll = s := by
  unfold poll
  split
  · next i hi => exact absurd hi (h i)
  · rfl

theorem step_idle_of_stack (h : s.stack = [.command] ∨ s.stack = []) : s.step .idle = s := by
  refine poll_of_not_action fun i => ?_
  rcases h with h | h <;> simp [executing, h]

theorem poll_waiting (h : Waiting steps s) : Between steps s.poll := by
  have hexe : s.executing = some (.action s.currentStep) := by simp [executing, h.stack]
  have hst : (s.actions s.currentStep).status = .running := h.status
  obtain ⟨r, heq, -, hpol⟩ := completeAction_spec h
  simp only [poll, hexe, hst, heq, reduceCtorEq, or_self, if_false]
  rcases hpol with ⟨-, h₂⟩ | ⟨hd, h₂, -⟩
  · have : r.2.executing = some .command := by simp [executing, h₂.stack]
    rw [if_neg (by simp [this])]
    exact .done h₂
  · rw [if_neg (by simp [hd])]
    exact .waiting h₂

theorem poll_retrying (h : Retrying steps s) : Between steps s.poll := by
  rcases h.stack with hs | hs
  · rw [poll_of_not_action (by simp [executing, hs])]
    exact .retrying h
  · have hexe : s.executing = some (.action s.currentStep) := by simp [executing, hs]
    have hst : (s.actions s.currentStep).status = .needsRetry := h.retry
    obtain ⟨s₁, heq, hc, hcal⟩ := callAction_spec h.toStartable
    simp only [poll, hexe, hst, heq, or_true, if_true]
    rcases hcal with ⟨h₁, hst₁, -, hrun, -⟩ | h₁ | ⟨h₁, -⟩
    · have : (s₁.actions s.currentStep).status = .needsRetry := hc ▸ hst₁
      rw [if_neg (by simp [this])]
      exact .retrying ⟨h₁, hst₁, hrun.trans h.running⟩
    · have : s₁.executing = some .command := by simp [executing, h₁.stack]
      rw [if_neg (by simp [this])]
      exact .done h₁
    · have : (s₁.actions s.currentStep).status = .running := hc ▸ h₁.status
      rw [if_neg (by simp [this])]
      exact .waiting h₁

theorem Progress.between {n : ℕ ×ₗ ℕ} (h : Progress steps n s) : Between steps s := by
  rcases h with (h | h) | ⟨h | h, -⟩
  · exact .finished h
  · exact .broken h
  · exact .waiting h
  · exact .retrying h

theorem step_between (h : Between steps s) (d : Drive) : Between steps (s.step d) := by
  cases d with
  | checkComplete =>
    cases h with
    | waiting h => exact (drive_progress (.inl h)).between
    | retrying h => exact (drive_progress (.inr (.inl h))).between
    | done h => exact (drive_progress (.inr (.inr h))).between
    | finished h =>
      rw [step, drive_finished h]
      exact .finished h
    | broken h =>
      rw [step, drive_broken h]
      exact .broken h
  | idle =>
    cases h with
    | waiting h => exact poll_waiting h
    | retrying h => exact poll_retrying h
    | done h =>
      rw [step_idle_of_stack (.inl h.stack)]
      exact .done h
    | finished h =>
      rw [step_idle_of_stack (.inr h.stack)]
      exact .finished h
    | broken h =>
      rw [step_idle_of_stack (.inr h.stack)]
      exact .broken h

end Operations

def OffStack (s : State) : Prop := .command ∉ s.stack

def driven (scripts : List Script) (mismatch : Bool) (ds : List Drive) : State :=
  ds.foldl State.step (initial scripts mismatch).call

variable {s : State} {steps : List (Option Script)} {scripts : List Script} {j : ℕ}

theorem Between.offStack (h : Between steps s) (hoff : OffStack s) :
    Finished steps s ∨ Broken steps s := by
  cases h with
  | waiting h => simp [OffStack, h.stack] at hoff
  | retrying h => rcases h.stack with hs | hs <;> simp [OffStack, hs] at hoff
  | done h => simp [OffStack, h.stack] at hoff
  | finished h => exact .inl h
  | broken h => exact .inr h

theorem call_ignored {mismatch : Bool} (h : mismatch ∨ steps.length = 0) :
    (initialWith steps mismatch).call =
      { initialWith steps mismatch with stack := [], status := .complete } := by
  have hrun : run { initialWith steps mismatch with status := .running } =
      (.complete, { initialWith steps mismatch with stack := [], status := .complete }) := by
    refine (if_pos (by simpa [initialWith, initial] using h)).trans ?_
    rw [stop_command (s := { begin { initialWith steps mismatch with status := .running } with
      status := .complete }) (.inl rfl)]
    rfl
  simp only [call, hrun]

theorem finishRun_between {r : Status × State} (h : r.1 = .complete ∧ AtEnd steps r.2 ∨
      r.1 = .running ∧ (Waiting steps r.2 ∨ Retrying steps r.2)) :
    Between steps { (finishRun r).2 with status := (finishRun r).1 } := by
  obtain ⟨stat, s⟩ := r
  rcases h with ⟨rfl, hend⟩ | ⟨rfl, hpha⟩
  · replace hend : AtEnd steps s := hend
    have hexe : s.executing = some .command := by simp [executing, hend.stack]
    have hfin : finishRun (.complete, s) =
        (.complete, { s with stack := [], status := .complete }) := by
      simp only [finishRun, hexe]
      rw [if_pos hend.bound, stop_command (s := { s with status := .complete }) (.inl hend.stack)]
    rw [hfin]
    exact .finished ⟨hend.relabel, hend.bound,
      hend.seq, rfl, rfl⟩
  · rcases hpha with h | h
    · exact .waiting h
    · exact .retrying h

theorem script_reached (hj : j < (reached steps).length) :
    script (steps.map (·.getD abortScript)) j = script (reached steps) j := by
  induction steps generalizing j with
  | nil => cases hj
  | cons a steps ih =>
    cases a with
    | none =>
      obtain rfl : j = 0 := by simpa [reached] using hj
      rfl
    | some a =>
      cases j with
      | zero => rfl
      | succ j => exact ih (lt_of_succ_lt_succ hj)

theorem ready_begin (steps : List (Option Script)) (h : steps ≠ []) :
    Ready steps (begin { initialWith steps false with status := .running }) := by
  have hpos : 0 < (reached steps).length := by
    cases steps with
    | nil => exact absurd rfl h
    | cons a steps => cases a <;> exact succ_pos _
  refine ⟨⟨by simp [begin, start, executing, initialWith, initial], rfl, fun j _ hj => ?_,
    fun j hj => ?_, fun j hj => (not_lt_zero j hj).elim, fun j hj => by cases hj⟩, .inl hpos,
    fun hj => ?_, .nil, rfl, rfl⟩
  · exact congrArg (ActionState.mk · .new) (script_reached hj)
  · exact congrArg Script.ok (script_reached hj)
  · exact congrArg (ActionState.mk · .new) (script_reached hj)

theorem run_initialWith (h : steps ≠ []) :
    run { initialWith steps false with status := .running } = finishRun
      ((begin { initialWith steps false with status := .running }).runActions steps.length) := by
  have hsiz : (initialWith steps false).size = steps.length := by simp [initialWith, initial]
  rw [run, if_neg (by simpa [initialWith, initial] using h), ← hsiz]

theorem call_between (steps : List (Option Script)) :
    Between steps (initialWith steps false).call := by
  by_cases hz : steps = []
  · subst hz
    rw [call_ignored (.inr rfl)]
    exact .finished ⟨⟨rfl, rfl, fun j _ hj => (not_lt_zero j hj).elim,
      fun j hj => (not_lt_zero j hj).elim, fun j hj => (not_lt_zero j hj).elim,
      fun j hj => by cases hj⟩, rfl, .nil, rfl, rfl⟩
  · have hrea := ready_begin steps hz
    obtain ⟨-, hres⟩ := runActions_spec steps.length hrea (hrea.size ▸ sub_le _ _)
    simp only [call, run_initialWith hz]
    exact finishRun_between hres

theorem initialWith_map_some (scripts : List Script) (mismatch : Bool) :
    initialWith (scripts.map some) mismatch = initial scripts mismatch := by
  simp [initialWith, initial]

theorem reached_map_some (scripts : List Script) : reached (scripts.map some) = scripts := by
  induction scripts with
  | nil => rfl
  | cons a scripts ih => exact congrArg (a :: ·) ih

theorem driven_between (scripts : List Script) (ds : List Drive) :
    Between (scripts.map some) (driven scripts false ds) := by
  rw [driven, ← initialWith_map_some]
  exact List.foldlRecOn (motive := Between _) ds step (call_between _)
    fun _ h d _ => step_between h d

theorem exists_offStack (h : Between steps s) :
    ∃ n, OffStack ((replicate n Drive.checkComplete).foldl step s) := by
  have hoff : ∀ {s}, Finished steps s ∨ Broken steps s → OffStack s := by
    rintro s (h | h) <;> simp [OffStack, h.stack]
  have hact : ∀ n : ℕ ×ₗ ℕ, ∀ s, remaining s = n →
      Active steps s →
      ∃ n, OffStack ((replicate n Drive.checkComplete).foldl step s) := by
    intro n
    induction n using WellFoundedLT.induction with
    | ind n ih =>
      rintro s rfl hs
      rcases drive_progress hs with hend | ⟨hpha, -, hlt⟩
      · exact ⟨1, hoff hend⟩
      · obtain ⟨k, hk⟩ := ih _ hlt s.drive rfl (hpha.imp_right .inl)
        exact ⟨k + 1, hk⟩
  cases h with
  | waiting h => exact hact _ s rfl (.inl h)
  | retrying h => exact hact _ s rfl (.inr (.inl h))
  | done h => exact hact _ s rfl (.inr (.inr h))
  | finished h => exact ⟨0, hoff (.inl h)⟩
  | broken h => exact ⟨0, hoff (.inr h)⟩

structure RanAsWritten (s : State) : Prop where
  inOrder : ∃ n, Sequential s.trace n
  stopped : NoStartAfterFailure s.trace
  status : s.status = if s.trace.any (fun e => e matches .fail _) then .failed else .complete

/-- Driving the command takes it off the stack, and whenever it is off the stack it
ran as written. -/
def RunsAsWritten (scripts : List Script) (mismatch : Bool) : Prop :=
  (∃ n, OffStack (driven scripts mismatch (List.replicate n .checkComplete))) ∧
    ∀ ds, OffStack (driven scripts mismatch ds) → RanAsWritten (driven scripts mismatch ds)

theorem step_of_complete (hsta : s.stack = []) (hst : s.status = .complete) (d : Drive) :
    s.step d = s := by
  cases d with
  | checkComplete => simp [step, drive, hst]
  | idle => exact step_idle_of_stack (.inr hsta)

theorem driven_mismatch (scripts : List Script) (ds : List Drive) :
    driven scripts true ds = { initial scripts true with stack := [], status := .complete } := by
  rw [driven]
  induction ds with
  | nil => rfl
  | cons d ds ih => rw [foldl_cons, step_of_complete rfl rfl, ih]

theorem script_mem (hj : j < scripts.length) : script scripts j ∈ scripts := by
  have h : script scripts j = scripts[j] := by simp [script, hj]
  exact h ▸ getElem_mem hj

theorem script_default (hj : scripts.length ≤ j) : (script scripts j).ok = true := by
  simp [script, hj]

theorem all_ok_iff (scripts : List Script) :
    (∀ a ∈ scripts, a.ok = true) ↔ ∀ j, (script scripts j).ok = true := by
  constructor
  · intro h j
    by_cases hj : j < scripts.length
    · exact h _ (script_mem hj)
    · exact script_default (not_lt.mp hj)
  · intro h a ha
    obtain ⟨j, hj, rfl⟩ := getElem_of_mem ha
    simpa [script, hj] using h j

theorem any_fail_iff (t : List Event) :
    t.any (fun e => e matches .fail _) = true ↔ ∃ j, .fail j ∈ t := by
  rw [any_eq_true]
  constructor
  · rintro ⟨e, he, hm⟩
    cases e with
    | fail j => exact ⟨j, he⟩
    | _ => cases hm
  · rintro ⟨j, hj⟩
    exact ⟨_, hj, rfl⟩

theorem noStartAfterFailure_of_no_fail {t : List Event} (h : ∀ j, .fail j ∉ t) :
    NoStartAfterFailure t := by
  intro t₁ t₂ i ht
  exact absurd (ht ▸ mem_append_right t₁ mem_cons_self) (h i)

theorem Finished.ranAsWritten (h : Finished steps s)
    (hok : ∀ j, (script (reached steps) j).ok = true) :
    RanAsWritten s := by
  have hnon : ∀ j, .fail j ∉ s.trace := by
    intro j hj
    have hfai := h.sound j hj
    rw [hok] at hfai
    cases hfai
  refine ⟨⟨_, h.seq⟩, noStartAfterFailure_of_no_fail hnon, ?_⟩
  rw [h.complete, if_neg]
  rw [any_fail_iff]
  exact fun ⟨j, hj⟩ => hnon j hj

/-- When an action failed, the status of the command is never `Failed`. -/
theorem not_ranAsWritten (h : Finished steps s ∨ Broken steps s) (hj : j < steps.length)
    (hfai : (script (reached steps) j).ok = false) : ¬ RanAsWritten s := by
  intro hran
  have hsta := hran.status
  rcases h with h | h
  · have hrec := h.recorded j (by rw [h.bound, h.size]; exact hj) hfai
    rw [if_pos ((any_fail_iff _).mpr ⟨j, hrec⟩), h.complete] at hsta
    cases hsta
  · rw [if_pos ((any_fail_iff _).mpr ⟨_, h.failed⟩), h.running] at hsta
    cases hsta

theorem runsAsWritten_mismatch (scripts : List Script) : RunsAsWritten scripts true := by
  refine ⟨⟨0, ?_⟩, fun ds _ => ?_⟩
  · exact not_mem_nil
  · rw [driven_mismatch]
    exact ⟨⟨0, .nil⟩, noStartAfterFailure_of_no_fail fun _ => not_mem_nil, rfl⟩

/-- A command runs as written exactly if it is not for the current state or none of
its actions fails. -/
theorem runsAsWritten_iff (scripts : List Script) (mismatch : Bool) :
    RunsAsWritten scripts mismatch ↔ mismatch = true ∨ ∀ a ∈ scripts, a.ok = true := by
  cases mismatch with
  | true => simp [runsAsWritten_mismatch]
  | false =>
    have hrea := reached_map_some scripts
    rw [all_ok_iff]
    constructor
    · rintro ⟨⟨n, hoff⟩, hran⟩
      by_contra hcon
      obtain ⟨j, hj⟩ : ∃ j, (script scripts j).ok = false := by simpa using hcon
      have hlt : j < scripts.length := by
        by_contra hge
        rw [script_default (not_lt.mp hge)] at hj
        cases hj
      exact not_ranAsWritten ((driven_between scripts _).offStack hoff) (by simpa using hlt)
        (hrea.symm ▸ hj) (hran _ hoff)
    · intro hcod
      have hok : ∀ j, (script scripts j).ok = true := by simpa using hcod
      refine ⟨exists_offStack (driven_between scripts []), fun ds hoff => ?_⟩
      rcases (driven_between scripts ds).offStack hoff with h | h
      · exact h.ranAsWritten (hrea.symm ▸ hok)
      · have hfai := h.sound _ h.failed
        rw [hrea, hok] at hfai
        cases hfai

/-- After an action that fails at once the next one is started, and the command reports
`Complete`; after one that fails later the command is off the stack and still `Running`. -/
theorem started_after_failure :
    (driven [⟨0, 0, false⟩, ⟨0, 0, true⟩] false []).trace = [.start 0, .fail 0, .start 1] ∧
    (driven [⟨0, 0, false⟩, ⟨0, 0, true⟩] false []).stack = [] ∧
    (driven [⟨0, 0, false⟩, ⟨0, 0, true⟩] false []).status = .complete ∧
    (driven [⟨0, 2, false⟩] false [.checkComplete]).trace = [.start 0, .fail 0] ∧
    (driven [⟨0, 2, false⟩] false [.checkComplete]).stack = [] ∧
    (driven [⟨0, 2, false⟩] false [.checkComplete]).status = .running := by
  decide

end Clockwork.MachineCommand
