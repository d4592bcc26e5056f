import Mathlib.Tactic.Linarith

namespace Clockwork.StateTimer

/-- The fields that `MachineTimerValue` uses, in microseconds except for `lastResult`, which is
in milliseconds, and a record of what the machine has been through in its state. -/
structure State where
  now : ℤ
  startTime : ℤ
  lastResult : ℤ
  enabled : Bool
  enabledTime : ℤ
  cycles : ℤ

def State.entered (now : ℤ) (enabled : Bool) (last : ℕ) : State where
  now
  startTime := now
  lastResult := last
  enabled
  enabledTime := 0
  cycles := 0

variable (s : State)

def State.timer : ℤ :=
  if s.enabled then (s.now - s.startTime).tdiv 1000 else s.lastResult

def State.read : State := { s with lastResult := s.timer }

def State.pass (time : ℕ) : State :=
  { s with
    now := s.now + time
    enabledTime := if s.enabled then s.enabledTime + time else s.enabledTime }

inductive Act where
  | read
  | pass (time : ℕ)

def State.act : Act → State
  | .read => s.read
  | .pass time => s.pass time

def State.acts (as : List Act) : State := as.foldl State.act s

def State.disable : State :=
  if s.enabled then { s.read with enabled := false } else s

/-- What happens while `resume` runs: before `setState` sets the start time and after it, or
`setState` fails. -/
structure Resumption where
  before : List Act
  entered : Option (List Act)

def State.enable : State :=
  { s with enabled := true, cycles := s.cycles + 1 }

def State.restart : State := { s with startTime := s.now }

variable (r : Resumption)

def State.reentered : State :=
  let s := s.enable.acts r.before
  match r.entered with
  | none => s
  | some as => s.restart.acts as

/-- `resume`, with the start time that `MachineTimerValue::resume` sets -/
def State.resume : State :=
  if s.enabled then s
  else
    let s := s.reentered r
    { s with startTime := s.now - s.lastResult * 1000 }

inductive Event where
  | act (a : Act)
  | disable
  | resume (r : Resumption)

def step : Event → State
  | .act a => s.act a
  | .disable => s.disable
  | .resume r => s.resume r

def run (es : List Event) : State := es.foldl step s

def Event.Of (resumptions : Set Resumption) : Event → Prop
  | .resume r => r ∈ resumptions
  | _ => True

/-- `TIMER` counts no time that the machine was disabled, and loses at most one millisecond per
cycle and one for rounding. -/
def State.Accurate : Prop :=
  1000 * s.timer ≤ s.enabledTime ∧ s.enabledTime ≤ 1000 * (s.timer + s.cycles + 1)

def Act.time : Act → ℕ
  | .read => 0
  | .pass time => time

def time (as : List Act) : ℕ := (as.map Act.time).sum

def Reads (as : List Act) : Prop := ∃ a ∈ as, a = Act.read

def Resumption.acts : List Act := r.before ++ r.entered.getD []

@[simp] theorem time_nil : time [] = 0 := rfl

@[simp] theorem time_cons (a : Act) (as : List Act) : time (a :: as) = a.time + time as := by
  simp [time]

@[simp] theorem time_append (as bs : List Act) : time (as ++ bs) = time as + time bs := by
  simp [time]

theorem reads_append_iff (as bs : List Act) : Reads (as ++ bs) ↔ Reads as ∨ Reads bs := by
  simp [Reads]

section Acts

variable {s : State} (hs : s.enabled = true) (as : List Act)

include hs

theorem act_spec (a : Act) : (s.act a).enabled = true ∧ (s.act a).startTime = s.startTime ∧
    (s.act a).now = s.now + a.time ∧ (s.act a).enabledTime = s.enabledTime + a.time ∧
    (s.act a).cycles = s.cycles := by
  cases a <;> simp [State.act, State.read, State.pass, Act.time, hs]

theorem acts_spec : (s.acts as).enabled = true ∧ (s.acts as).startTime = s.startTime ∧
    (s.acts as).now = s.now + time as ∧
    (s.acts as).enabledTime = s.enabledTime + time as ∧ (s.acts as).cycles = s.cycles := by
  induction as generalizing s with
  | nil => simp [State.acts, hs]
  | cons a as ih =>
    obtain ⟨ha, hsta, hnow, htim, hcyc⟩ := act_spec hs a
    have hact : s.acts (a :: as) = (s.act a).acts as := rfl
    rw [hact, time_cons]
    obtain ⟨h₁, h₂, h₃, h₄, h₅⟩ := ih ha
    exact ⟨h₁, h₂.trans hsta, by omega, by omega, h₅.trans hcyc⟩

theorem lastResult_acts_of_not_reads (h : ¬Reads as) : (s.acts as).lastResult = s.lastResult := by
  induction as generalizing s with
  | nil => rfl
  | cons a as ih =>
    cases a with
    | read => exact absurd ⟨.read, by simp, rfl⟩ h
    | pass t =>
      refine ih (s := s.pass t) hs ?_
      rintro ⟨b, hb, rfl⟩
      exact h ⟨.read, List.mem_cons_of_mem _ hb, rfl⟩

theorem lastResult_acts_of_reads (hnow : s.startTime ≤ s.now) (h : Reads as) :
    s.now - s.startTime ≤ 1000 * (s.acts as).lastResult + 999 ∧
      1000 * (s.acts as).lastResult ≤ s.now + time as - s.startTime := by
  induction as generalizing s with
  | nil => simp [Reads] at h
  | cons a as ih =>
    cases a with
    | read =>
      by_cases hrea : Reads as
      · have := ih (s := s.read) hs hnow hrea
        simpa [State.acts, State.act, Act.time, State.read] using this
      · have hlas := lastResult_acts_of_not_reads (s := s.read) hs as hrea
        have heq : (s.acts (.read :: as)).lastResult = s.timer := hlas
        rw [heq, State.timer, hs, if_pos rfl, Int.tdiv_eq_ediv_of_nonneg (by omega)]
        omega
    | pass t =>
      have hrea : Reads as := by
        obtain ⟨b, hb, rfl⟩ := h
        exact ⟨.read, by simpa using hb, rfl⟩
      have hnow' : (s.pass t).startTime ≤ (s.pass t).now := by
        simp only [State.pass]
        omega
      have hpas := ih (s := s.pass t) hs hnow' hrea
      have hact : s.acts (.pass t :: as) = (s.pass t).acts as := rfl
      rw [hact]
      simp only [State.pass, time_cons, Act.time] at hpas ⊢
      push_cast
      omega

end Acts

section Resume

variable {s : State} (r : Resumption)

open Resumption

theorem reentered_spec :
    (s.reentered r).enabled = true ∧ (s.reentered r).now = s.now + time r.acts ∧
    (s.reentered r).enabledTime = s.enabledTime + time r.acts ∧
    (s.reentered r).cycles = s.cycles + 1 := by
  obtain ⟨before, entered⟩ := r
  obtain ⟨h₁, -, h₃, h₄, h₅⟩ := acts_spec (s := s.enable) rfl before
  cases entered with
  | none =>
    simp only [acts, Option.getD_none, List.append_nil]
    exact ⟨h₁, h₃, h₄, h₅⟩
  | some as =>
    obtain ⟨k₁, -, k₃, k₄, k₅⟩ := acts_spec (s := (s.enable.acts before).restart) h₁ as
    simp only [acts, Option.getD_some, time_append]
    push_cast
    refine ⟨k₁, k₃.trans ?_, k₄.trans ?_, k₅.trans h₅⟩
    · rw [← add_assoc]
      exact congrArg (· + (time as : ℤ)) h₃
    · rw [← add_assoc]
      exact congrArg (· + (time as : ℤ)) h₄

theorem lastResult_reentered_of_not_reads (h : ¬Reads r.acts) :
    (s.reentered r).lastResult = s.lastResult := by
  obtain ⟨before, entered⟩ := r
  rw [acts, reads_append_iff, not_or] at h
  have hbef := lastResult_acts_of_not_reads (s := s.enable) rfl before h.1
  obtain ⟨h₁, -⟩ := acts_spec (s := s.enable) rfl before
  cases entered with
  | none => exact hbef
  | some as =>
    exact (lastResult_acts_of_not_reads (s := (s.enable.acts before).restart) h₁ as h.2).trans
      hbef

/-- A value that is read while `resume` runs does not tell how long the machine was enabled: it
counts from the new start time, or from the old one and so while the machine was disabled. -/
theorem lastResult_reentered_of_reads (hnow : s.startTime ≤ s.now) (h : Reads r.acts) :
    0 ≤ (s.reentered r).lastResult ∧ (1000 * (s.reentered r).lastResult ≤ time r.acts ∨
        s.now - s.startTime ≤ 1000 * (s.reentered r).lastResult + 999) := by
  obtain ⟨before, entered⟩ := r
  obtain ⟨h₁, -⟩ := acts_spec (s := s.enable) rfl before
  have hbef (h : Reads before) :
      s.now - s.startTime ≤ 1000 * (s.enable.acts before).lastResult + 999 :=
    (lastResult_acts_of_reads (s := s.enable) rfl before hnow h).1
  rw [acts, reads_append_iff] at h
  cases entered with
  | none =>
    have hlas := hbef (by simpa [Reads] using h)
    exact ⟨by change 0 ≤ (s.enable.acts before).lastResult; omega, .inr hlas⟩
  | some as =>
    change 0 ≤ ((s.enable.acts before).restart.acts as).lastResult ∧
      (1000 * ((s.enable.acts before).restart.acts as).lastResult ≤ time (before ++ as) ∨
        s.now - s.startTime ≤ 1000 * ((s.enable.acts before).restart.acts as).lastResult + 999)
    by_cases hrea : Reads as
    · have hlas := lastResult_acts_of_reads (s := (s.enable.acts before).restart) h₁ as le_rfl
        hrea
      simp only [State.restart, sub_self] at hlas
      rw [time_append]
      simp only [State.restart]
      omega
    · have hlas := lastResult_acts_of_not_reads (s := (s.enable.acts before).restart) h₁ as hrea
      have hb := hbef (h.resolve_right hrea)
      rw [hlas]
      simp only [State.restart]
      omega

theorem resume_spec (hs : s.enabled = false) : (s.resume r).enabled = true ∧
    (s.resume r).now - (s.resume r).startTime = 1000 * (s.reentered r).lastResult ∧
    (s.resume r).lastResult = (s.reentered r).lastResult ∧
    (s.resume r).enabledTime = s.enabledTime + time r.acts ∧
    (s.resume r).cycles = s.cycles + 1 := by
  obtain ⟨h₁, h₂, h₃, h₄⟩ := reentered_spec (s := s) r
  rw [State.resume, if_neg (by simp [hs])]
  exact ⟨h₁, by simp only; omega, rfl, h₃, h₄⟩

end Resume

/-- What is lost of the enabled time, within the limit for the cycles so far. -/
structure State.Kept : Prop where
  start : s.startTime ≤ s.now
  last : 0 ≤ s.lastResult
  enabled : s.enabled = true →
    0 ≤ s.enabledTime - (s.now - s.startTime) ∧
      s.enabledTime - (s.now - s.startTime) ≤ 1000 * s.cycles
  disabled : s.enabled = false →
    0 ≤ s.enabledTime - 1000 * s.lastResult ∧
      s.enabledTime - 1000 * s.lastResult ≤ 1000 * s.cycles + 999

/-- `resume` reads no timer, and takes no longer than the microsecond that rounding leaves. -/
def Resumption.Quiet : Prop := ¬Reads r.acts ∧ time r.acts ≤ 1

section Runs

variable {resumptions : Set Resumption} {s : State}

theorem timer_eq_div (hs : s.enabled = true) (hnow : s.startTime ≤ s.now) :
    s.timer = (s.now - s.startTime) / 1000 := by
  rw [State.timer, if_pos hs, Int.tdiv_eq_ediv_of_nonneg (by omega)]

theorem accurate_of_kept (h : s.Kept) (hs : s.enabled = true) : s.Accurate := by
  have := h.enabled hs
  rw [State.Accurate, timer_eq_div hs h.start]
  omega

theorem kept_act (a : Act) (h : s.Kept) : (s.act a).Kept := by
  have hsta := h.start
  have hlas := h.last
  cases a with
  | read =>
    cases hs : s.enabled with
    | true =>
      have htim := timer_eq_div hs hsta
      refine ⟨hsta, ?_, fun _ => h.enabled hs, fun hd => ?_⟩
      · simp only [State.act, State.read, htim]
        omega
      · simp [State.act, State.read, hs] at hd
    | false =>
      have hrea : s.read = s := by
        rw [State.read, State.timer, if_neg (by simp [hs])]
      rw [State.act, hrea]
      exact h
  | pass t =>
    refine ⟨?_, hlas, fun hs => ?_, fun hs => ?_⟩
    · simp only [State.act, State.pass]
      omega
    · have hkep := h.enabled hs
      simp only [State.act, State.pass] at hs ⊢
      rw [if_pos hs]
      omega
    · have hkep := h.disabled hs
      simp only [State.act, State.pass] at hs ⊢
      rw [if_neg (by simp [hs])]
      exact hkep

theorem kept_disable (h : s.Kept) : s.disable.Kept := by
  cases hs : s.enabled with
  | false => simpa [State.disable, hs] using h
  | true =>
    have hkep := h.enabled hs
    have hsta := h.start
    have htim := timer_eq_div hs h.start
    rw [State.disable, if_pos hs]
    refine ⟨hsta, ?_, by simp, fun _ => ?_⟩
    · simp only [State.read, htim]
      omega
    · simp only [State.read, htim]
      omega

theorem kept_resume {r : Resumption} (hr : r.Quiet) (h : s.Kept) : (s.resume r).Kept := by
  cases hs : s.enabled with
  | true => simpa [State.resume, hs] using h
  | false =>
    have hkep := h.disabled hs
    have hlas := h.last
    have hqui := hr.2
    obtain ⟨h₁, h₂, h₃, h₄, h₅⟩ := resume_spec r hs
    rw [lastResult_reentered_of_not_reads r hr.1] at h₂ h₃
    exact ⟨by omega, by omega, fun _ => by omega, by simp [h₁]⟩

theorem kept_step (hqui : ∀ r ∈ resumptions, r.Quiet) {e : Event} (he : e.Of resumptions)
    (h : s.Kept) : (step s e).Kept := by
  cases e with
  | act a => exact kept_act a h
  | disable => exact kept_disable h
  | resume r => exact kept_resume (hqui r he) h

theorem kept_run (hqui : ∀ r ∈ resumptions, r.Quiet) {es : List Event}
    (hes : ∀ e ∈ es, e.Of resumptions) (h : s.Kept) : (run s es).Kept := by
  induction es generalizing s with
  | nil => exact h
  | cons e es ih =>
    exact ih (fun d hd => hes d (List.mem_cons_of_mem _ hd))
      (kept_step hqui (hes e List.mem_cons_self) h)

theorem kept_entered (now : ℤ) (enabled : Bool) (last : ℕ) (h : enabled = true ∨ last = 0) :
    (State.entered now enabled last).Kept := by
  refine ⟨le_rfl, by simp [State.entered], fun _ => by simp [State.entered], fun hs => ?_⟩
  have hlas : last = 0 := h.resolve_left (by simpa [State.entered] using hs)
  simp [State.entered, hlas]

theorem disabled_run {es : List Event} (hes : ∀ e ∈ es, e.Of ∅) (hs : s.enabled = false) :
    (run s es).enabled = false := by
  induction es generalizing s with
  | nil => exact hs
  | cons e es ih =>
    refine ih (fun d hd => hes d (List.mem_cons_of_mem _ hd)) ?_
    cases e with
    | act a => cases a <;> exact hs
    | disable => simp [step, State.disable, hs]
    | resume r => exact absurd (hes (.resume r) List.mem_cons_self) (Set.notMem_empty r)

end Runs

/-- `TIMER` is accurate whenever the machine is enabled, in every run from a state. -/
def AlwaysAccurate (resumptions : Set Resumption) (s : State) : Prop :=
  ∀ es, (∀ e ∈ es, Event.Of resumptions e) → (run s es).enabled = true → (run s es).Accurate

variable {resumptions : Set Resumption} {s : State}

section

variable (h : AlwaysAccurate resumptions s)

include h

theorem AlwaysAccurate.step {e : Event}
    (he : e.Of resumptions) : AlwaysAccurate resumptions (step s e) := by
  intro es hes
  refine h (e :: es) fun d hd => ?_
  rcases List.mem_cons.mp hd with rfl | hd
  · exact he
  · exact hes d hd

section

variable (hs : s.enabled = true)

include hs

theorem AlwaysAccurate.accurate : s.Accurate := h [] (by simp) hs

theorem AlwaysAccurate.pass (t : ℕ) :
    AlwaysAccurate resumptions { s with now := s.now + t, enabledTime := s.enabledTime + t } := by
  have hpas := h.step (e := .act (.pass t)) trivial
  rwa [StateTimer.step, State.act, State.pass, if_pos hs] at hpas

theorem AlwaysAccurate.disable (hnow : s.startTime ≤ s.now) :
    AlwaysAccurate resumptions
      { s with lastResult := (s.now - s.startTime) / 1000, enabled := false } := by
  have hdis := h.step (e := .disable) trivial
  rwa [StateTimer.step, State.disable, if_pos hs, State.read, timer_eq_div hs hnow] at hdis

theorem not_reads_of_alwaysAccurate
    (hnow : s.startTime ≤ s.now) {r : Resumption} (hr : r ∈ resumptions) : ¬Reads r.acts := by
  intro hrea
  -- Long enough in the state that the new start time loses too much, and long enough disabled
  -- that the old one counts too much.
  let long := (1000 * s.cycles + 2001 - s.enabledTime).toNat
  let off := (s.enabledTime + long + time r.acts + 1000).toNat
  let t : State :=
    { s with
      now := s.now + long + off
      lastResult := (s.now + long - s.startTime) / 1000
      enabled := false
      enabledTime := s.enabledTime + long }
  have ht : AlwaysAccurate resumptions t := by
    have hdis := (h.pass hs long).disable hs (by simp only; omega)
    exact hdis.step (e := .act (.pass off)) trivial
  obtain ⟨h₁, h₂, -, h₄, h₅⟩ := resume_spec (s := t) r rfl
  have hres : (t.resume r).Accurate := (ht.step (e := .resume r) hr).accurate h₁
  obtain ⟨hlas, hbou⟩ := lastResult_reentered_of_reads (s := t) r (by simp only [t]; omega)
    hrea
  rw [State.Accurate, timer_eq_div h₁ (by omega), h₄, h₅] at hres
  have htim : t.enabledTime = s.enabledTime + long := rfl
  have hcyc : t.cycles = s.cycles := rfl
  have hoff : t.now - t.startTime = s.now + long + off - s.startTime := rfl
  omega

end

end

theorem time_le_of_alwaysAccurate {r : Resumption} (hr : r ∈ resumptions) (hrea : ¬Reads r.acts)
    (k : ℤ) (hk : 0 ≤ k) (h : AlwaysAccurate resumptions s) (hs : s.enabled = true)
    (hnow : s.now - s.startTime = 1000 * k) : time r.acts ≤ 1 := by
  by_contra htim
  -- Each cycle loses more than the millisecond that the limit grows by.
  induction hn : (1000 * (k + s.cycles + 1) - s.enabledTime).toNat using Nat.strong_induction_on
    generalizing s with
  | h n ih =>
    have hpas := h.pass hs 999
    have hacc := hpas.accurate hs
    rw [State.Accurate, timer_eq_div (by exact hs) (by simp only; omega)] at hacc
    simp only at hacc
    have hdis := hpas.disable hs (by simp only; omega)
    obtain ⟨h₁, h₂, -, h₄, h₅⟩ := resume_spec (s := { s with
      now := s.now + (999 : ℕ)
      lastResult := (s.now + (999 : ℕ) - s.startTime) / 1000
      enabled := false
      enabledTime := s.enabledTime + (999 : ℕ) }) r rfl
    rw [lastResult_reentered_of_not_reads r hrea] at h₂
    simp only at h₂ h₄ h₅
    refine ih _ ?_ (hdis.step (e := .resume r) hr) h₁ (h₂.trans (by omega)) rfl
    simp only [StateTimer.step, h₄, h₅]
    omega

/-- `TIMER` is accurate in every run exactly if nothing reads it while `resume` runs, `resume`
takes no time, and a machine that entered its state disabled had nothing left in it. -/
theorem alwaysAccurate_entered_iff (resumptions : Set Resumption) (now : ℤ) (enabled : Bool)
    (last : ℕ) : AlwaysAccurate resumptions (.entered now enabled last) ↔
      (∀ r ∈ resumptions, r.Quiet) ∧ (enabled = true ∨ last = 0 ∨ resumptions = ∅) := by
  constructor
  · intro h
    cases enabled with
    | true =>
      refine ⟨fun r hr => ?_, .inl rfl⟩
      have hrea := not_reads_of_alwaysAccurate h rfl le_rfl hr
      exact ⟨hrea, time_le_of_alwaysAccurate hr hrea 0 le_rfl h rfl (by simp [State.entered])⟩
    | false =>
      have hqui (r : Resumption) (hr : r ∈ resumptions) : r.Quiet := by
        have hres := h.step (e := .resume r) hr
        obtain ⟨h₁, h₂, -⟩ := resume_spec (s := .entered now false last) r rfl
        have hlas : 0 ≤ ((State.entered now false last).reentered r).lastResult := by
          by_cases hrea : Reads r.acts
          · exact (lastResult_reentered_of_reads r le_rfl hrea).1
          · rw [lastResult_reentered_of_not_reads r hrea]
            exact Int.natCast_nonneg last
        have hrea := not_reads_of_alwaysAccurate hres h₁ (by simp only [step]; omega) hr
        exact ⟨hrea, time_le_of_alwaysAccurate hr hrea _ hlas hres h₁ h₂⟩
      refine ⟨hqui, .inr ?_⟩
      rcases Set.eq_empty_or_nonempty resumptions with hemp | ⟨r, hr⟩
      · exact .inr hemp
      · obtain ⟨h₁, h₂, -, h₄, h₅⟩ := resume_spec (s := .entered now false last) r rfl
        have hacc : ((State.entered now false last).resume r).Accurate :=
          (h.step (e := .resume r) hr).accurate h₁
        rw [lastResult_reentered_of_not_reads r (hqui r hr).1] at h₂
        have hlas : (State.entered now false last).lastResult = last := rfl
        have hzer : (State.entered now false last).enabledTime = 0 := rfl
        have htim := (hqui r hr).2
        rw [State.Accurate, timer_eq_div h₁ (by omega)] at hacc
        exact .inl (by omega)
  · rintro ⟨hqui, hlas | hlas | rfl⟩ es hes hs
    · exact accurate_of_kept (kept_run hqui hes (kept_entered now enabled last (.inl hlas))) hs
    · exact accurate_of_kept (kept_run hqui hes (kept_entered now enabled last (.inr hlas))) hs
    · cases enabled with
      | true =>
        exact accurate_of_kept (kept_run hqui hes (kept_entered now true last (.inl rfl))) hs
      | false =>
        rw [disabled_run hes rfl] at hs
        cases hs

/-- The handler that `resume` runs reads `TIMER`: the three seconds before are lost. -/
theorem timer_lost_in_handler : ¬AlwaysAccurate {⟨[], some [.read]⟩} (.entered 0 true 0) := by
  intro h
  have hacc := h [.act (.pass 3000000), .disable, .resume ⟨[], some [.read]⟩]
    (by simp [Event.Of]) rfl
  exact absurd hacc.2 (by decide)

end Clockwork.StateTimer
