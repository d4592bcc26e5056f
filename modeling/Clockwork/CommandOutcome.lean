import Clockwork.MachineCommandRuns

namespace Clockwork.MachineCommand

open Function State

def Script.Slow (a : Script) : Prop := 0 < a.retries ∨ 2 ≤ a.polls

def Script.FailsLate (a : Script) : Prop := a.ok = false ∧ a.Slow

instance (a : Script) : Decidable a.Slow := inferInstanceAs (Decidable (_ ∨ _))

instance (a : Script) : Decidable a.FailsLate := inferInstanceAs (Decidable (_ ∧ _))

def Passes (scripts : List Script) (n : ℕ) : Prop :=
  ∀ j, j < n → (script scripts j).Slow → (script scripts j).ok = true

structure Rests (scripts : List Script) (n : ℕ) : Prop where
  passes : Passes scripts n
  slow : n < scripts.length → (script scripts n).Slow

section Frame

variable (s : State)

@[simp] theorem actions_suspend : s.suspend.actions = s.actions := by
  unfold suspend
  split_ifs <;> rfl

variable (x : Item)

@[simp] theorem actions_start : (s.start x).actions = s.actions := by
  unfold start
  split_ifs <;> rfl

@[simp] theorem actions_stop : (s.stop x).actions = s.actions := by
  unfold stop
  dsimp only
  split_ifs <;> rfl

@[simp] theorem actions_record (es : List Event) : (s.record es).actions = s.actions := rfl

variable (i : ℕ)

theorem actions_finishAction : (s.finishAction i).actions = update s.actions i
      { s.actions i with status := if (s.actions i).ok then .complete else .failed } := by
  unfold finishAction
  split_ifs
  · rw [actions_stop]
    rfl
  · rw [actions_stop]
    rfl

theorem actions_callAction : (s.callAction i).actions = update s.actions i
      (if 0 < (s.actions i).retries then
        { s.actions i with retries := (s.actions i).retries - 1, status := .needsRetry }
      else if (s.actions i).polls = 0 then
        { s.actions i with status := if (s.actions i).ok then .complete else .failed }
      else { s.actions i with status := .running }) := by
  unfold callAction
  dsimp only
  by_cases hret : 0 < (s.actions i).retries
  · simp [hret, setAction]
  · by_cases hpol : (s.actions i).polls = 0
    · rw [if_neg hret, if_pos hpol, if_neg hret, if_pos hpol, actions_finishAction]
      simp
    · simp [hret, hpol, setAction]

@[simp] theorem currentStep_start : (s.start x).currentStep = s.currentStep := by
  unfold start
  split_ifs <;> rfl

@[simp] theorem currentStep_stop : (s.stop x).currentStep = s.currentStep := by
  unfold stop
  dsimp only
  split_ifs <;> rfl

@[simp] theorem currentStep_finishAction : (s.finishAction i).currentStep = s.currentStep := by
  unfold finishAction
  split_ifs
  · rw [currentStep_stop]
    rfl
  · rw [currentStep_stop]
    rfl

@[simp] theorem currentStep_callAction : (s.callAction i).currentStep = s.currentStep := by
  unfold callAction
  split_ifs
  · exact currentStep_start s _
  · rw [currentStep_finishAction]
    exact currentStep_start s _
  · exact currentStep_start s _

@[simp] theorem currentStep_completeAction :
    (s.completeAction i).2.currentStep = s.currentStep := by
  unfold completeAction
  split
  all_goals try split_ifs
  all_goals first
    | rfl
    | exact currentStep_finishAction s i

@[simp] theorem currentStep_poll : s.poll.currentStep = s.currentStep := by
  unfold poll
  split
  · dsimp only
    split_ifs <;> simp
  · rfl

end Frame

section Resting

variable {scripts : List Script} {steps : List (Option Script)} {s : State}

theorem runTurn_returned_iff {a : Script} (h : s.current = ⟨a, .new⟩)
    (hnot : s.aborts s.currentStep = false) :
    (∃ stat s', s.runTurn = .returned stat s') ↔ a.Slow := by
  have hcal := congrFun (actions_callAction s.suspend s.currentStep) s.currentStep
  rw [current] at h
  rw [actions_suspend, h] at hcal
  simp only [runTurn, Script.Slow, hnot, Bool.false_eq_true, if_false]
  by_cases hret : 0 < a.retries
  · simp [hcal, hret]
  · by_cases hpol : a.polls = 0
    · cases hok : a.ok <;>
        simp [hcal, hret, hpol, hok, completeAction]
    · rw [if_neg hpol] at hcal
      by_cases hone : a.polls ≤ 1
      · have hslo : ¬2 ≤ a.polls := by omega
        simp [hcal, hret, hone, hslo, completeAction]
      · have hslo : 2 ≤ a.polls := by omega
        simp [hcal, hret, hone, hslo, completeAction]

theorem Passes.succ {n : ℕ} (h : Passes scripts n)
    (hn : (script scripts n).Slow → (script scripts n).ok = true) : Passes scripts (n + 1) := by
  intro j hj
  rcases Nat.lt_succ_iff_lt_or_eq.mp hj with hlt | rfl
  · exact h j hlt
  · exact hn

theorem runActions_slow {P : ℕ → Prop} (hqui : ∀ j, ¬(script (reached steps) j).Slow → P j)
    (fuel : ℕ) (h : Ready steps s) (hfue : s.size - s.currentStep ≤ fuel)
    (hpas : ∀ j < s.currentStep, P j) :
    (∀ j < (s.runActions fuel).2.currentStep, P j) ∧
      ((s.runActions fuel).2.currentStep < (reached steps).length →
        (script (reached steps) (s.runActions fuel).2.currentStep).Slow) := by
  have hle := length_reached_le steps
  induction fuel generalizing s with
  | zero =>
    have hsiz := h.size
    have hend : ¬s.currentStep < (reached steps).length := by omega
    exact ⟨hpas, fun hlt => absurd hlt hend⟩
  | succ fuel ih =>
    have hsiz := h.size
    rcases h.bound with hrea | hlen
    · rw [runActions, if_pos (by omega)]
      by_cases habo : steps[s.currentStep]? = some none
      · obtain ⟨s', htur, -, hste⟩ := runTurn_abort h hrea habo
        obtain ⟨hlen, hscr⟩ := script_of_abort hrea habo
        simp only [htur, hste]
        refine ⟨fun j _ => ?_, fun hlt => absurd hlt (by omega)⟩
        rcases lt_trichotomy j s.currentStep with hlt | rfl | hgt
        · exact hpas j hlt
        · exact hqui _ (by rw [hscr]; decide)
        · exact hqui j (by simp [script, show (reached steps).length ≤ j by omega, Script.Slow])
      have hret := runTurn_returned_iff (h.status hrea) (by simpa [h.aborts] using habo)
      rcases runTurn_spec h ⟨hrea, habo⟩ with ⟨s', htur, h', hste⟩ | ⟨s', htur, hste, -⟩
      · simp only [htur] at hret ⊢
        have hsiz' := h'.size
        refine ih h' (by omega) fun j hj => ?_
        rw [hste] at hj
        rcases Nat.lt_succ_iff_lt_or_eq.mp hj with hlt | rfl
        · exact hpas j hlt
        · refine hqui _ fun hslo => ?_
          obtain ⟨stat, u, hu⟩ := hret.mpr hslo
          cases hu
      · simp only [htur, hste]
        exact ⟨hpas, fun _ => hret.mp ⟨_, _, htur⟩⟩
    · rw [runActions, if_neg (by omega)]
      exact ⟨hpas, fun hlt => absurd hlt hlen.1.not_lt⟩

def State.Turn.state : State.Turn → State
  | .returned _ s => s
  | .next s => s

theorem goOn_rests (h : Done steps s) (hok : s.current.status ≠ .failed)
    (hres : Rests (reached steps) s.currentStep) :
    Rests (reached steps) (s.goOn (s.currentStep + 1)).state.currentStep := by
  have hscr : (script (reached steps) s.currentStep).ok = true := by
    rcases h.outcome with ⟨-, hok⟩ | ⟨hfai, -⟩
    · rwa [current, h.ok _ h.within.1] at hok
    · exact absurd hfai hok
  obtain ⟨hpas, hslo⟩ := runActions_slow (P := fun j => (script (reached steps) j).Slow →
    (script (reached steps) j).ok = true) (fun j hnot hslo => absurd hslo hnot) _
    (h.next s.lastStep) le_rfl (hres.passes.succ fun _ => hscr)
  exact ⟨hpas, hslo⟩

theorem giveUp_rests (hres : Rests (reached steps) s.currentStep) :
    Rests (reached steps) s.giveUp.state.currentStep := by
  unfold giveUp State.Turn.state
  rwa [currentStep_stop]

theorem checkAction_rests (h : Waiting steps s ∨ Done steps s)
    (hres : Rests (reached steps) s.currentStep) :
    Rests (reached steps) s.checkAction.state.currentStep := by
  rcases h with h | h
  · have hsta : (s.actions s.currentStep).status = .running := h.status
    obtain ⟨r, heq, hste, hpol⟩ := completeAction_spec h
    simp only [checkAction, hsta, heq]
    rw [← hste] at hres ⊢
    rcases hpol with ⟨hdon, h'⟩ | ⟨hdon, -⟩
    · split_ifs with hfai
      · exact giveUp_rests hres
      · exact goOn_rests h' hfai hres
    · rw [if_neg (by simp [hdon])]
      exact hres
  · rcases h.outcome with ⟨hsta, -⟩ | ⟨hsta, -⟩
    · have hgo : s.checkAction = s.goOn (s.currentStep + 1) := by
        rw [current] at hsta
        simp [checkAction, hsta]
      rw [hgo]
      exact goOn_rests h (by simp [hsta]) hres
    · have hgiv : s.checkAction = s.giveUp := by
        rw [current] at hsta
        simp [checkAction, hsta]
      rw [hgiv]
      exact giveUp_rests hres

theorem checkTurn_rests (h : Active steps s) (hres : Rests (reached steps) s.currentStep) :
    Rests (reached steps) s.checkTurn.state.currentStep := by
  unfold checkTurn
  dsimp only
  split_ifs with hsta hret
  · exact (currentStep_callAction s s.currentStep).symm ▸ hres
  · -- the action was started again
    have hcur : s.current.status = .new ∨ s.current.status = .needsRetry := hsta
    have hstr : Startable steps s := by
      rcases h with h | h | h
      · simp [h.status] at hcur
      · exact h.toStartable
      · rcases h.outcome with ⟨hs, -⟩ | ⟨hs, -⟩ <;> simp [hs] at hcur
    obtain ⟨s₁, rfl, hste, ⟨-, hstt, -⟩ | h' | ⟨h', -⟩⟩ := callAction_spec hstr
    · rw [current, hste] at hstt
      exact absurd hstt hret
    · exact checkAction_rests (.inr h') (hste.symm ▸ hres)
    · exact checkAction_rests (.inl h') (hste.symm ▸ hres)
  · rcases h with h | h | h
    · exact checkAction_rests (.inl h) hres
    · exact absurd (.inr h.retry) hsta
    · exact checkAction_rests (.inr h) hres

theorem checkLoop_rests (fuel : ℕ) (h : Active steps s)
    (hres : Rests (reached steps) s.currentStep) :
    Rests (reached steps) (s.checkLoop fuel).2.currentStep := by
  induction fuel generalizing s with
  | zero => exact hres
  | succ fuel ih =>
    rw [checkLoop]
    split_ifs with hlt
    · have htur := checkTurn_ok h
      have hres' := checkTurn_rests h hres
      cases ht : s.checkTurn with
      | returned stat s' =>
        rw [ht] at hres'
        exact hres'
      | next s' =>
        rw [ht] at htur hres'
        -- the command is at its end or waits for a later action
        rcases htur.2 with hend | ⟨hpha, -⟩
        · have hge : ¬s'.currentStep < s'.size := by
            have := hend.bound
            omega
          cases fuel with
          | zero => exact hres'
          | succ fuel =>
            change Rests (reached steps) (s'.checkLoop (fuel + 1)).2.currentStep
            rw [checkLoop, if_neg hge, currentStep_stop]
            exact hres'
        · exact ih (hpha.imp_right .inl) hres'
    · rwa [currentStep_stop]

theorem drive_rests (h : Active steps s)
    (hres : Rests (reached steps) s.currentStep) : Rests (reached steps) s.drive.currentStep := by
  rw [drive_of_awake h.bounds.2.2]
  exact checkLoop_rests _ (onStack_setRunning h) hres

theorem step_rests (h : Between steps s) (hres : Rests (reached steps) s.currentStep) (d : Drive) :
    Rests (reached steps) (s.step d).currentStep := by
  cases d with
  | idle => rwa [step, currentStep_poll]
  | checkComplete =>
    cases h with
    | waiting h => exact drive_rests (.inl h) hres
    | retrying h => exact drive_rests (.inr (.inl h)) hres
    | done h => exact drive_rests (.inr (.inr h)) hres
    | finished h => rwa [step, drive_finished h]
    | broken h => rwa [step, drive_broken h]

end Resting

theorem currentStep_finishRun (r : Status × State) :
    (finishRun r).2.currentStep = r.2.currentStep := by
  unfold finishRun
  split
  · exact currentStep_stop _ _
  · split
    · rfl
    · split_ifs
      · exact currentStep_stop _ _
      · rfl
  · rfl

variable (steps : List (Option Script))

/-- `run` stops at the first slow action. -/
theorem call_slow :
    (∀ j < (initialWith steps false).call.currentStep, ¬(script (reached steps) j).Slow) ∧
      ((initialWith steps false).call.currentStep < (reached steps).length →
        (script (reached steps) (initialWith steps false).call.currentStep).Slow) := by
  by_cases hz : steps = []
  · subst hz
    rw [call_ignored (.inr rfl)]
    exact ⟨fun j hj => absurd hj (Nat.not_lt_zero j), fun hlt => absurd hlt (Nat.not_lt_zero _)⟩
  · have hrea := ready_begin steps hz
    simp only [call, run_initialWith hz, currentStep_finishRun]
    exact runActions_slow (fun _ => id) steps.length hrea (hrea.size ▸ Nat.sub_le _ _)
      fun j hj => absurd hj (Nat.not_lt_zero j)

theorem call_rests : Rests (reached steps) (initialWith steps false).call.currentStep := by
  obtain ⟨hqui, hslo⟩ := call_slow steps
  exact ⟨fun j hj hjs => absurd hjs (hqui j hj), hslo⟩

theorem offStack_outcome {steps : List (Option Script)} {s : State} (h : Between steps s)
    (hres : Rests (reached steps) s.currentStep) (hoff : OffStack s) :
    (Finished steps s ∧ ∀ a ∈ reached steps, ¬a.FailsLate) ∨
      (Broken steps s ∧ ∃ a ∈ reached steps, a.FailsLate) := by
  rcases h.offStack hoff with hfin | hbro
  · refine .inl ⟨hfin, fun a ha hlat => ?_⟩
    obtain ⟨j, hj, rfl⟩ := List.getElem_of_mem ha
    have hscr : script (reached steps) j = (reached steps)[j] := by simp [script, hj]
    have hle := length_reached_le steps
    rw [← hscr] at hlat
    have hok := hres.passes j (by rw [hfin.bound, hfin.size]; omega) hlat.2
    rw [hlat.1] at hok
    cases hok
  · obtain ⟨hlt, -⟩ := hbro.within
    exact .inr ⟨hbro, _, script_mem hlt, hbro.sound _ hbro.failed, hres.slow hlt⟩

end Clockwork.MachineCommand
