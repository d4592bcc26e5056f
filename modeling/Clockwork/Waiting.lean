import Clockwork.MachineCommand
import Clockwork.Value

namespace Clockwork.Waiting

open MachineCommand (Status)

variable {F : Type}

structure Template where
  waitTime : Int64
  propertyName : String
deriving DecidableEq, Repr

namespace Template

def ofProperty (name : String) : Template := ⟨-1, name⟩

def ofValue : Value F → Template
  | .integer i => ⟨i, ""⟩
  | .symbol s _ => ⟨-1, s⟩
  | .string s => ⟨-1, s⟩
  | _ => ⟨-1, ""⟩

end Template

/-- `WaitAction`. The trigger is known by whether it has fired. -/
structure Wait where
  waitTime : Int64
  propertyName : String
  useProperty : Bool
  status : Status
  trigger : Option Bool
deriving DecidableEq, Repr

def Template.factory (t : Template) : Wait where
  waitTime := t.waitTime
  propertyName := t.propertyName
  useProperty := t.waitTime = -1
  status := .new
  trigger := none

namespace Wait

def ofValue [Double F] : Value F → Int64
  | .float f => Double.toLong f
  | .integer i => i
  | _ => 0

/-- `WaitAction::run`, with the delay of the `ScheduledItem` in microseconds if there is one. The
owner stops an action that is complete and drops its trigger. -/
def run [Double F] (getValue : String → Value F) (w : Wait) : Option Int64 × Wait :=
  let waitTime := if w.waitTime = -1 then ofValue (getValue w.propertyName) else w.waitTime
  if waitTime = 0 then (none, { w with waitTime, status := .complete, trigger := none })
  else
    (some (waitTime * 1000),
      { w with
        waitTime := if w.useProperty then -1 else waitTime
        status := .running
        trigger := some false })

def call [Double F] (getValue : String → Value F) (w : Wait) : Option Int64 × Wait :=
  { w with status := .running, trigger := none }.run getValue

def checkComplete (w : Wait) : Wait :=
  if w.trigger = some false then w else { w with status := .complete, trigger := none }

def complete (w : Wait) : Wait :=
  if w.status = .running ∨ w.status = .suspended then w.checkComplete else w

def fire (w : Wait) : Wait := { w with trigger := w.trigger.map fun _ => true }

end Wait

inductive Event where
  | execute (value : Int64)
  | fire
  | complete
deriving DecidableEq, Repr

def step [Double F] (w : Wait) : Event → Wait
  | .execute value => (w.call fun _ => (.integer value : Value F)).2
  | .fire => w.fire
  | .complete => w.complete

def run [Double F] (w : Wait) (es : List Event) : Wait := es.foldl (step (F := F)) w

/-- The trigger is scheduled for the number of milliseconds; for none the action is complete. -/
def WaitsFor (value : Int64) (out : Option Int64 × Wait) : Prop :=
  if value = 0 then out.1 = none ∧ out.2.status = .complete
  else (∃ delay, out.1 = some delay ∧ delay.toInt = 1000 * value.toInt) ∧ out.2.status = .running

/-- Each execution waits for what the property is at the time. -/
def UsesCurrent (F : Type) [Double F] (w : Wait) (es : List Event) : Prop :=
  ∀ before value after, es = before ++ .execute value :: after →
    WaitsFor value ((run (F := F) w before).call fun _ => (.integer value : Value F))

def Fits (value : Int64) : Prop :=
  Int64.minValue.toInt ≤ 1000 * value.toInt ∧ 1000 * value.toInt ≤ Int64.maxValue.toInt

theorem toInt_mul_thousand_iff (value : Int64) :
    (value * 1000).toInt = 1000 * value.toInt ↔ Fits value := by
  have htho : (1000 : Int64).toInt = 1000 := by decide
  rw [Int64.toInt_mul, htho, mul_comm]
  constructor
  · intro h
    rw [Fits, ← h]
    constructor
    · exact Int.le_bmod (by decide)
    · have hlt := Int.bmod_lt (x := 1000 * value.toInt) (m := 2 ^ 64) (by decide)
      have hmax : Int64.maxValue.toInt = 2 ^ 63 - 1 := by decide
      omega
  · intro h
    have hmin : Int64.minValue.toInt = -2 ^ 63 := by decide
    have hmax : Int64.maxValue.toInt = 2 ^ 63 - 1 := by decide
    rw [Fits, hmax] at h
    exact Int.bmod_eq_of_le (by omega) (by omega)

section Executions

variable [Double F]

/-- An action that looks its property up, and one that was left with 0. -/
structure Rests (w : Wait) : Prop where
  useProperty : w.useProperty = true
  waitTime : w.waitTime = -1 ∨ w.waitTime = 0

theorem rests_factory (name : String) : Rests (Template.ofProperty name).factory := ⟨rfl, .inl rfl⟩

variable {w : Wait}

theorem call_of_zero (hw : w.waitTime = 0) (getValue : String → Value F) :
    w.call getValue = (none, { w with status := .complete, trigger := none }) := by
  simp [Wait.call, Wait.run, hw]

theorem call_of_lookup (hw : w.waitTime = -1) (huse : w.useProperty = true) (value : Int64) :
    (w.call fun _ => (.integer value : Value F)) =
      if value = 0 then (none, { w with waitTime := 0, status := .complete, trigger := none })
      else (some (value * 1000), { w with status := .running, trigger := some false }) := by
  split_ifs with hzer
  · simp [Wait.call, Wait.run, Wait.ofValue, hw, hzer]
  · simp [Wait.call, Wait.run, Wait.ofValue, hw, hzer, huse]

theorem step_rests (h : Rests w) (e : Event) : Rests (step (F := F) w e) ∧
      ((step (F := F) w e).waitTime = 0 ↔ w.waitTime = 0 ∨ e = .execute 0) := by
  obtain ⟨huse, hwai⟩ := h
  cases e with
  | fire => exact ⟨⟨huse, hwai⟩, by simp [step, Wait.fire]⟩
  | complete =>
    have hsam : w.complete.useProperty = w.useProperty ∧ w.complete.waitTime = w.waitTime := by
      unfold Wait.complete Wait.checkComplete
      split_ifs <;> exact ⟨rfl, rfl⟩
    exact ⟨⟨hsam.1.trans huse, by rwa [step, hsam.2]⟩, by simp [step, hsam.2]⟩
  | execute value =>
    rcases hwai with hloo | hzer
    · rw [step, call_of_lookup hloo huse]
      split_ifs with hval
      · exact ⟨⟨huse, .inr rfl⟩, by simp [hval]⟩
      · exact ⟨⟨huse, .inl hloo⟩, by simp [hval]⟩
    · rw [step, call_of_zero hzer]
      exact ⟨⟨huse, .inr hzer⟩, by simp [hzer]⟩

theorem run_rests (h : Rests w) (es : List Event) : Rests (run (F := F) w es) ∧
      ((run (F := F) w es).waitTime = 0 ↔ w.waitTime = 0 ∨ .execute 0 ∈ es) := by
  induction es generalizing w with
  | nil => exact ⟨h, by simp [run]⟩
  | cons e es ih =>
    obtain ⟨hste, hzer⟩ := step_rests (F := F) h e
    obtain ⟨hrun, hwai⟩ := ih hste
    refine ⟨hrun, hwai.trans ?_⟩
    rw [hzer, List.mem_cons, or_assoc, eq_comm (a := e)]

theorem waitsFor_call_iff (h : Rests w) (value : Int64) :
    WaitsFor value (w.call fun _ => (.integer value : Value F)) ↔
      (value ≠ 0 → w.waitTime ≠ 0 ∧ Fits value) := by
  obtain ⟨huse, hwai⟩ := h
  unfold WaitsFor
  by_cases hval : value = 0
  · subst hval
    refine iff_of_true ?_ (by simp)
    rcases hwai with hloo | hzer
    · simp [call_of_lookup hloo huse]
    · simp [call_of_zero hzer]
  · rw [if_neg hval]
    rcases hwai with hloo | hzer
    · have hne : (-1 : Int64) ≠ 0 := by decide
      simp [call_of_lookup hloo huse, hval, hloo, hne, ← toInt_mul_thousand_iff]
    · simp [call_of_zero hzer, hval, hzer]

/-- `WAIT property` waits for what the property is exactly until the property is 0 once, and for
numbers of milliseconds whose microseconds are a `long`. -/
theorem usesCurrent_iff (name : String) (es : List Event) :
    UsesCurrent F (Template.ofProperty name).factory es ↔
      ∀ before value after, es = before ++ .execute value :: after →
        value ≠ 0 → .execute 0 ∉ before ∧ Fits value := by
  refine forall_congr' fun before => forall_congr' fun value => forall_congr' fun after =>
    imp_congr_right fun _ => ?_
  obtain ⟨hres, hzer⟩ := run_rests (F := F) (rests_factory name) before
  rw [waitsFor_call_iff hres, ne_eq (Wait.waitTime _), hzer]
  have hfre : (Template.ofProperty name).factory.waitTime ≠ 0 := by
    change (-1 : Int64) ≠ 0
    decide
  simp [hfre]

end Executions

/-- Once the property was 0, an execution with 5 does not wait. -/
theorem five_after_zero_not_scheduled :
    let w := run (F := ℚ) (Template.ofProperty "delay").factory [.execute 0]
    ¬UsesCurrent ℚ (Template.ofProperty "delay").factory [.execute 0, .execute 5] ∧
      (w.call fun _ => (.integer 5 : Value ℚ)).1 = none ∧
      (w.call fun _ => (.integer 5 : Value ℚ)).2.status = .complete := by
  have hnon : ((run (F := ℚ) (Template.ofProperty "delay").factory [.execute 0]).call
      fun _ => (.integer 5 : Value ℚ)).1 = none := rfl
  refine ⟨?_, hnon, rfl⟩
  intro h
  have hfiv := h [.execute 0] 5 [] rfl
  rw [WaitsFor, if_neg (by decide), hnon] at hfiv
  obtain ⟨⟨delay, hdel, -⟩, -⟩ := hfiv
  cases hdel

end Clockwork.Waiting
