import Clockwork.CommandOutcome
import Mathlib.Data.List.Induction

namespace Clockwork.IfCommand

open MachineCommand List

open MachineCommand (Status Script Drive Between Rests OffStack)

/-- The command of a branch: its actions, of which those without a script are `AbortAction`s, and
whether it is for another state. -/
structure Branch where
  steps : List (Option Script)
  mismatch : Bool
deriving DecidableEq, Repr

/-- `IfCommandAction` or, with a second command, `IfElseCommandAction`. -/
structure Conditional where
  condition : Bool
  command : Branch
  elseCommand : Option Branch
deriving DecidableEq, Repr

variable (c : Conditional)

def Conditional.chosen : Option Branch :=
  if c.condition then some c.command else c.elseCommand

/-- The action, the command it executed, and how many actions other than those of the command are
above it on the owner's stack. -/
structure State where
  status : Status
  savedStatus : Status
  onStack : Bool
  branch : Option MachineCommand.State
  above : ℕ

namespace State

def executing (s : State) : Bool :=
  s.onStack && s.above = 0 && s.branch.all fun c => c.stack.isEmpty

def suspend (s : State) : State :=
  if s.status = .suspended then s else { s with savedStatus := s.status, status := .suspended }

def resume (s : State) : State :=
  { s with status := if s.savedStatus = .suspended then .running else s.savedStatus }

/-- The end of `MachineInstance::stop`: an action that has become the executing one is resumed. -/
def wake (s : State) : State := if s.executing ∧ s.status = .suspended then s.resume else s

def complete (s : State) : State :=
  if (s.status = .running ∨ s.status = .suspended) ∧ s.executing then
    { s with status := .complete, onStack := false }
  else s

end State

def Conditional.call : State :=
  match c.chosen with
  | none => ⟨.complete, .running, false, none, 0⟩
  | some b =>
    let command := (MachineCommand.initialWith b.steps b.mismatch).call
    ⟨command.status, .running, decide (command.status ≠ .complete ∧ command.status ≠ .failed),
      some command, 0⟩

/-- What happens on the owner's stack. The command is driven while nothing is above it, and
`clear` is `clearAllActions`. -/
inductive Event where
  | drive (d : Drive)
  | complete
  | push
  | pop
  | clear
deriving DecidableEq, Repr

/-- Only a command on the stack is driven. -/
def drive (c : MachineCommand.State) (d : Drive) : MachineCommand.State :=
  if c.stack = [] then c else c.step d

def State.step (s : State) : Event → State
  | .drive d =>
    if s.above = 0 then { s with branch := s.branch.map (drive · d) }.wake else s
  | .complete => s.complete
  | .push =>
    let s := if s.executing then s.suspend else s
    { s with above := s.above + 1 }
  | .pop => { s with above := s.above - 1 }.wake
  | .clear =>
    { s with onStack := false, branch := s.branch.map ({ · with stack := [] }), above := 0 }

def Conditional.run (es : List Event) : State := es.foldl State.step c.call

def State.outcome (s : State) : Status :=
  match s.branch with
  | none => .complete
  | some c => c.status

/-- After the events an action that has left the stack has the status of the command it executed. -/
def Conditional.Reports (es : List Event) : Prop :=
  (c.run es).onStack = false → (c.run es).status = (c.run es).outcome

def Driven (b : Branch) (c : MachineCommand.State) : Prop :=
  if b.mismatch then c.stack = [] ∧ c.status = .complete
  else Between b.steps c ∧ Rests (reached b.steps) c.currentStep

theorem driven_call (b : Branch) : Driven b (initialWith b.steps b.mismatch).call := by
  unfold Driven
  cases hm : b.mismatch with
  | true =>
    rw [call_ignored (.inl rfl)]
    exact ⟨rfl, rfl⟩
  | false => exact ⟨call_between b.steps, call_rests b.steps⟩

variable {b : Branch} {c : MachineCommand.State} {s : State}

theorem driven_drive (h : Driven b c) (d : Drive) : Driven b (drive c d) := by
  unfold drive
  split_ifs with hoff
  · exact h
  · unfold Driven at *
    split_ifs at h ⊢ with hm
    · exact absurd h.1 hoff
    · exact ⟨step_between h.1 d, step_rests h.1 h.2 d⟩

namespace Branch

def Slow (b : Branch) : Prop := b.mismatch = false ∧ ∃ a ∈ reached b.steps, a.Slow

def FailsLate (b : Branch) : Prop := b.mismatch = false ∧ ∃ a ∈ reached b.steps, a.FailsLate

end Branch

theorem status_of_off (h : Driven b c) (hoff : c.stack = []) : c.status = .complete ∧ ¬b.FailsLate ∨
      c.status = .running ∧ b.FailsLate := by
  unfold Driven at h
  unfold Branch.FailsLate
  split_ifs at h with hm
  · exact .inl ⟨h.2, by simp [hm]⟩
  · have hcom : OffStack c := by simp [OffStack, hoff]
    rcases offStack_outcome h.1 h.2 hcom with ⟨hc, hnon⟩ | ⟨hc, hsom⟩
    · exact .inl ⟨hc.complete, fun hlat => by
        obtain ⟨-, a, ha, hfai⟩ := hlat
        exact hnon a ha hfai⟩
    · exact .inr ⟨hc.running, by simpa using hm, hsom⟩

theorem stack_of_offStack (h : Driven b c) (hoff : OffStack c) : c.stack = [] := by
  unfold Driven at h
  split_ifs at h
  · exact h.1
  · exact (h.1.offStack hoff).elim (·.stack) (·.stack)

theorem status_of_on (h : Driven b c) (hon : c.stack ≠ []) :
    c.status = .running ∨ c.status = .suspended := by
  unfold Driven at h
  split_ifs at h
  · exact absurd h.1 hon
  · cases h.1 with
    | waiting h => exact h.awake.imp id And.left
    | retrying h => exact .inl h.running
    | done h => exact .inl h.running
    | finished h => exact absurd h.stack hon
    | broken h => exact absurd h.stack hon

/-- A command is done when it is called exactly if none of its actions is slow. -/
theorem call_status (b : Branch) :
    (b.Slow → (initialWith b.steps b.mismatch).call.status = .running ∨
      (initialWith b.steps b.mismatch).call.status = .suspended) ∧
    (¬b.Slow → (initialWith b.steps b.mismatch).call.stack = [] ∧
      (initialWith b.steps b.mismatch).call.status = .complete) := by
  have hdri := driven_call b
  obtain ⟨hqui, hslo⟩ := call_slow b.steps
  constructor
  · rintro ⟨hm, a, ha, hsla⟩
    rw [hm] at hdri ⊢
    generalize (initialWith b.steps false).call = c at hdri hqui ⊢
    by_cases hoff : c.stack = []
    · rw [Driven, hm] at hdri
      have hcom : OffStack c := by simp [OffStack, hoff]
      rcases hdri.1.offStack hcom with hfin | hbro
      · obtain ⟨j, hj, rfl⟩ := getElem_of_mem ha
        have hscr : script (reached b.steps) j = (reached b.steps)[j] := by simp [script, hj]
        have hle := length_reached_le b.steps
        exact absurd (hscr ▸ hsla) (hqui j (by rw [hfin.bound, hfin.size]; omega))
      · exact .inl hbro.running
    · exact status_of_on hdri hoff
  · intro hnot
    cases hm : b.mismatch with
    | true =>
      rw [call_ignored (.inl rfl)]
      exact ⟨rfl, rfl⟩
    | false =>
      have hend : ¬(initialWith b.steps false).call.currentStep < (reached b.steps).length :=
        fun hlt => hnot ⟨hm, _, script_mem hlt, hslo hlt⟩
      cases call_between b.steps with
      | waiting h => exact absurd h.within.1 hend
      | retrying h => exact absurd h.within.1 hend
      | done h => exact absurd h.within.1 hend
      | finished h => exact ⟨h.stack, h.complete⟩
      | broken h => exact absurd h.within.1 hend

/-- The invariant of a run: the action leaves the stack after its command, as `Complete`. -/
structure Runs (b : Branch) (s : State) : Prop where
  branch : ∃ c, s.branch = some c ∧ Driven b c ∧ (s.onStack = false → c.stack = [])
  left : s.onStack = false → s.status = .complete

open State

theorem onStack_of_executing (h : s.executing = true) : s.onStack = true := by
  simp only [State.executing, Bool.and_eq_true] at h
  exact h.1.1

theorem stack_of_executing (h : s.executing = true) (hc : s.branch = some c) : c.stack = [] := by
  simp only [State.executing, hc, Option.all_some, Bool.and_eq_true, List.isEmpty_iff] at h
  exact h.2

theorem Runs.of_onStack {s s' : State} (h : Runs b s) (hbra : s'.branch = s.branch)
    (hon : s'.onStack = true) : Runs b s' := by
  obtain ⟨c, hc, hdri, -⟩ := h.branch
  exact ⟨⟨c, hbra.trans hc, hdri, by simp [hon]⟩, by simp [hon]⟩

theorem runs_call {c : Conditional} (h : c.chosen = some b) : Runs b c.call := by
  unfold Conditional.call
  rw [h]
  dsimp only
  have hdri := driven_call b
  generalize (initialWith b.steps b.mismatch).call = command at hdri ⊢
  by_cases hoff : command.stack = []
  · refine ⟨⟨command, rfl, hdri, fun _ => hoff⟩, fun hlef => ?_⟩
    rcases status_of_off hdri hoff with ⟨hsta, -⟩ | ⟨hsta, -⟩
    · exact hsta
    · simp [hsta] at hlef
  · have hon : decide (command.status ≠ .complete ∧ command.status ≠ .failed) = true := by
      rcases status_of_on hdri hoff with hsta | hsta <;> simp [hsta]
    exact ⟨⟨command, rfl, hdri, by simp [hon]⟩, by simp [hon]⟩

theorem runs_wake (h : Runs b s) : Runs b s.wake := by
  unfold wake
  split_ifs with hwak
  · exact h.of_onStack rfl (onStack_of_executing hwak.1)
  · exact h

theorem runs_step (h : Runs b s) {e : Event} (he : e ≠ .clear) : Runs b (s.step e) := by
  cases e with
  | drive d =>
    obtain ⟨c, hc, hdri, hoff⟩ := h.branch
    rw [State.step]
    split_ifs
    · apply runs_wake
      refine ⟨⟨IfCommand.drive c d, by simp [hc], driven_drive hdri d, fun hlef => ?_⟩, h.left⟩
      rw [IfCommand.drive, if_pos (hoff hlef)]
      exact hoff hlef
    · exact h
  | complete =>
    rw [State.step, State.complete]
    split_ifs with hend
    · obtain ⟨c, hc, hdri, -⟩ := h.branch
      exact ⟨⟨c, hc, hdri, fun _ => stack_of_executing hend.2 hc⟩, fun _ => rfl⟩
    · exact h
  | push =>
    rw [State.step]
    split_ifs with hexe
    · have hon := onStack_of_executing hexe
      unfold State.suspend
      split_ifs
      · exact h.of_onStack rfl hon
      · exact h.of_onStack rfl hon
    · exact ⟨h.branch, h.left⟩
  | pop =>
    exact runs_wake ⟨h.branch, h.left⟩
  | clear => exact absurd rfl he

theorem runs_run {c : Conditional} (h : c.chosen = some b) {es : List Event} (hes : .clear ∉ es) :
    Runs b (c.run es) :=
  foldlRecOn (motive := Runs b) es step (runs_call h)
    fun _ hs _ he => runs_step hs fun heq => hes (heq ▸ he)

/-- The action and the command, if it executed one, are off the stack and `Complete`. -/
structure Left (s : State) : Prop where
  onStack : s.onStack = false
  status : s.status = .complete
  branch : ∀ c ∈ s.branch, c.stack = [] ∧ c.status = .complete

theorem left_step (h : Left s) (e : Event) : Left (s.step e) := by
  have hexe (s : State) (hoff : s.onStack = false) : s.executing = false := by
    simp [State.executing, hoff]
  have hwak {s : State} (h : Left s) : Left s.wake := by
    rwa [wake, hexe s h.onStack, if_neg (by simp)]
  cases e with
  | drive d =>
    rw [State.step]
    split_ifs
    · refine hwak ⟨h.onStack, h.status, fun c' hc' => ?_⟩
      obtain ⟨c, hc, rfl⟩ := Option.mem_map.mp hc'
      rw [IfCommand.drive, if_pos (h.branch c hc).1]
      exact h.branch c hc
    · exact h
  | complete =>
    rw [State.step, State.complete, hexe s h.onStack, if_neg (by simp)]
    exact h
  | push =>
    rw [State.step, hexe s h.onStack]
    exact ⟨h.onStack, h.status, h.branch⟩
  | pop => exact hwak ⟨h.onStack, h.status, h.branch⟩
  | clear =>
    refine ⟨rfl, h.status, fun c' hc' => ?_⟩
    obtain ⟨c, hc, rfl⟩ := Option.mem_map.mp hc'
    exact ⟨rfl, (h.branch c hc).2⟩

theorem Left.reports {c : Conditional} (h : Left c.call) (es : List Event) : c.Reports es := by
  have hrun : Left (c.run es) :=
    foldlRecOn (motive := Left) es step h fun _ hs e _ => left_step hs e
  intro _
  rw [hrun.status, outcome]
  cases hbra : (c.run es).branch with
  | none => rfl
  | some command => exact (hrun.branch command hbra).2.symm

theorem left_of_no_branch {c : Conditional} (h : c.chosen = none) : Left c.call := by
  rw [Conditional.call, h]
  exact ⟨rfl, rfl, by simp⟩

structure Waits (s : State) (c : MachineCommand.State) : Prop where
  onStack : s.onStack = true
  above : s.above = 0
  savedStatus : s.savedStatus = .running
  status : s.status = .running ∨ s.status = .suspended
  branch : s.branch = some c

theorem waits_call {c : Conditional} (h : c.chosen = some b) (hslo : b.Slow) :
    Waits c.call (initialWith b.steps b.mismatch).call := by
  have hsta := (call_status b).1 hslo
  unfold Conditional.call
  rw [h]
  refine ⟨?_, rfl, rfl, hsta, rfl⟩
  rcases hsta with hsta | hsta <;> simp [hsta]

theorem Waits.drive (h : Waits s c) (d : Drive) :
    Waits (s.step (.drive d)) (IfCommand.drive c d) := by
  rw [State.step, if_pos h.above, h.branch]
  unfold wake
  split_ifs
  · exact ⟨h.onStack, h.above, h.savedStatus, .inl (by simp [State.resume, h.savedStatus]), rfl⟩
  · exact ⟨h.onStack, h.above, h.savedStatus, h.status, rfl⟩

theorem Waits.drives (h : Waits s c) (ds : List Drive) :
    Waits ((ds.map Event.drive).foldl step s) (ds.foldl IfCommand.drive c) := by
  induction ds generalizing s c with
  | nil => exact h
  | cons d ds ih => exact ih (h.drive d)

theorem Waits.complete (h : Waits s c) (hoff : c.stack = []) :
    s.step .complete = { s with status := .complete, onStack := false } := by
  have hexe : s.executing = true := by
    simp [State.executing, h.onStack, h.above, h.branch, hoff]
  rw [State.step, State.complete, if_pos ⟨h.status, hexe⟩]

/-- A command that is driven long enough is off the stack. -/
theorem exists_drives (h : Driven b c) : ∃ n,
    ((List.replicate n Drive.checkComplete).foldl drive c).stack = [] := by
  by_cases hm : b.mismatch = true
  · rw [Driven, if_pos hm] at h
    exact ⟨0, h.1⟩
  · have hbet := h
    rw [Driven, if_neg hm] at hbet
    obtain ⟨n, hn⟩ := exists_offStack hbet.1
    clear hbet
    induction n generalizing c with
    | zero => exact ⟨0, stack_of_offStack h hn⟩
    | succ n ih =>
      by_cases hoff : c.stack = []
      · exact ⟨0, hoff⟩
      · have hdri : drive c .checkComplete = c.step .checkComplete := if_neg hoff
        obtain ⟨k, hk⟩ := ih (hdri ▸ driven_drive h .checkComplete) hn
        exact ⟨k + 1, by rwa [replicate_succ, foldl_cons, hdri]⟩

/-- A slow command leaves the stack while the action waits on it. -/
theorem exists_waits {c : Conditional} (h : c.chosen = some b) (hslo : b.Slow) :
    ∃ es command, Event.clear ∉ es ∧ Waits (c.run es) command ∧ Driven b command ∧
      command.stack = [] := by
  obtain ⟨n, hn⟩ := exists_drives (driven_call b)
  refine ⟨(replicate n .checkComplete).map .drive, _, by simp,
    (waits_call h hslo).drives _, ?_, hn⟩
  exact foldlRecOn (motive := Driven b) _ drive (driven_call b)
    fun _ hc d _ => driven_drive hc d

/-- An `IF` reports the status of its command exactly if it executes none, or one of which no
action fails late. If the stack may be cleared, no action of the command may be slow. -/
theorem reports_iff (c : Conditional) :
    ((∀ es, Event.clear ∉ es → c.Reports es) ↔ ∀ b, c.chosen = some b → ¬b.FailsLate) ∧
      ((∀ es, c.Reports es) ↔ ∀ b, c.chosen = some b → ¬b.Slow) := by
  have hslo {b : Branch} (hlat : b.FailsLate) : b.Slow :=
    ⟨hlat.1, hlat.2.imp fun _ ha => ⟨ha.1, ha.2.2⟩⟩
  have hlate (hrep : ∀ es, Event.clear ∉ es → c.Reports es) (b : Branch)
      (hb : c.chosen = some b) : ¬b.FailsLate := by
    intro hlat
    -- the command is driven until it gives up, and the action is checked then
    obtain ⟨es, command, hes, hwai, hdri, hoff⟩ := exists_waits hb (hslo hlat)
    have hrun : c.run (es ++ [.complete]) =
        { c.run es with status := .complete, onStack := false } := by
      rw [Conditional.run, foldl_append]
      exact hwai.complete hoff
    have hsta := hrep (es ++ [.complete]) (by simp [hes]) (by rw [hrun])
    rw [hrun, outcome, hwai.branch] at hsta
    rcases status_of_off hdri hoff with ⟨-, hnot⟩ | ⟨hrunn, -⟩
    · exact hnot hlat
    · cases hsta.trans hrunn
  refine ⟨⟨hlate, fun hnon es hes hlef => ?_⟩, fun hrep b hb hslow => ?_, fun hnon => ?_⟩
  · cases hcho : c.chosen with
    | none => exact (left_of_no_branch hcho).reports es hlef
    | some b =>
      have hrus := runs_run hcho hes
      obtain ⟨command, hbra, hdri, hoff⟩ := hrus.branch
      rw [hrus.left hlef, outcome, hbra]
      rcases status_of_off hdri (hoff hlef) with ⟨hsta, -⟩ | ⟨-, hlat⟩
      · exact hsta.symm
      · exact absurd hlat (hnon b hcho)
  · -- the stack is cleared when the command is off it and the action has not been checked
    obtain ⟨es, command, -, hwai, hdri, hoff⟩ := exists_waits hb hslow
    have hrun : c.run (es ++ [.clear]) = (c.run es).step .clear := foldl_append
    have hsta := hrep (es ++ [.clear]) (by rw [hrun]; rfl)
    rw [hrun, State.step, outcome, hwai.branch] at hsta
    rcases status_of_off hdri hoff with ⟨hcom, -⟩ | ⟨-, hlat⟩
    · have hsta : (c.run es).status = command.status := hsta
      rw [hcom] at hsta
      rcases hwai.status with h | h <;> simp [h] at hsta
    · exact hlate (fun es _ => hrep es) b hb hlat
  · cases hcho : c.chosen with
    | none => exact (left_of_no_branch hcho).reports
    | some b =>
      obtain ⟨hoff, hcom⟩ := (call_status b).2 (hnon b hcho)
      refine Left.reports ?_
      rw [Conditional.call, hcho]
      exact ⟨by simp [hcom], hcom, by simpa using ⟨hoff, hcom⟩⟩

/-- The action of the branch fails after it was polled; the `IF` is `Complete`, and its command is
off the stack and still `Running`. -/
theorem if_complete_after_failure :
    let c : Conditional := ⟨true, ⟨[some ⟨0, 2, false⟩], false⟩, none⟩
    let s := c.run [.drive .checkComplete, .complete]
    s.onStack = false ∧ s.status = .complete ∧ s.outcome = .running ∧
      s.branch.map MachineCommand.State.trace = some [.start 0, .fail 0] ∧
      ¬c.Reports [.drive .checkComplete, .complete] := by
  refine ⟨by decide, by decide, by decide, by decide, fun h => ?_⟩
  exact absurd (h (by decide)) (by decide)

end Clockwork.IfCommand
