import Clockwork.Evaluators
import Clockwork.TimerClauses

namespace Clockwork

open Int64 Value

variable {F M : Type}

structure PredicateTimerDetails where
  delay : Int64
  label : String
deriving DecidableEq, Repr

structure TimerTarget (F M : Type) extends Scope F M where
  name : String
  machineName : M → String
  machineTimer : M → Int64

/-- What `scheduleTimerEvents` works on: the earliest event found so far, and whether
`setNeedsCheck()` was called on the target. -/
structure Scheduled where
  earliest : Option PredicateTimerDetails
  needsCheck : Bool
deriving DecidableEq, Repr

/-- `MIN_TIMER`, the mark of a node without a timer test. -/
def minTimer : Int64 := -100000

structure TimerTest (M : Type) where
  scheduledTime : Int64
  currentTime : Int64
  timedMachine : Option M

def TimerTest.delay (c : TimerTest M) : Int64 := (c.scheduledTime - c.currentTime) * 1000

section Schedule

variable [Double F]

/-- The operator table, the same in the four kinds of clause: the text of a failed
conversion still overwrites `scheduled_time`. -/
def timerTest (op : PredicateOperator) (v : Value F) (now : Int64) (timed : Option M) :
    TimerTest M :=
  let x := v.asIntegerInto minTimer
  if x.1 then ⟨if op = .opGT ∨ op = .opLE then x.2 + 1 else x.2, now, timed⟩
  else ⟨x.2, 0, timed⟩

def machinePart (s : String) : String := String.ofList (s.toList.takeWhile (· ≠ '.'))

/-- A clause on the timer of another machine; without that machine nothing is set. -/
def otherTimerTest (m : TimerTarget F M) (op : PredicateOperator) (entry v : Value F) :
    TimerTest M :=
  match m.lookup (machinePart entry.asString) with
  | some timed => timerTest op v (m.machineTimer timed) (some timed)
  | none => ⟨minTimer, 0, none⟩

/-- The chain of tests for a clause with a timer, `none` when its last branch is
reached. An operand without a defined value counts as `junk`, any value. -/
def timerClause (regex : String → String → Bool) (junk : Value F) (m : TimerTarget F M)
    (l : Predicate (Value F)) (op : PredicateOperator) (r : Predicate (Value F)) :
    Option (TimerTest M) :=
  let value (p : Predicate (Value F)) := (evaluate regex m.toScope p).getD junk
  if l.entry.isOwnTimer then some (timerTest op (value r) m.timerVal none)
  else if l.entry.isTimer then some (otherTimerTest m op l.entry (value r))
  else if r.entry.isOwnTimer then some (timerTest op (value l) m.timerVal none)
  else if r.entry.isTimer then some (otherTimerTest m op r.entry (value l))
  else none

def triggerName (m : TimerTarget F M) (timed : Option M) : String :=
  match timed with
  | some t => "Timer " ++ m.name ++ " " ++ m.machineName t
  | none => "Timer " ++ m.name

/-- The end of `scheduleTimerEvents`: keeps the earlier event, and asks for a check
when the time has passed by 2 ms at most. -/
def addEvent (m : TimerTarget F M) (c : TimerTest M) (s : Scheduled) : Scheduled :=
  if c.scheduledTime = minTimer then s
  else if 0 < c.delay then
    match s.earliest with
    | some e =>
      if e.delay > c.delay then
        { s with earliest := some ⟨c.delay, triggerName m c.timedMachine⟩ }
      else s
    | none => { s with earliest := some ⟨c.delay, triggerName m c.timedMachine⟩ }
  else if -2000 ≤ c.delay then { s with needsCheck := true }
  else s

/-- `scheduleTimerEvents`. A node with a timer test does not search its left operand. -/
def scheduleTimerEvents (regex : String → String → Bool) (junk : Value F) (m : TimerTarget F M) :
    Predicate (Value F) → Scheduled → Scheduled
  | .leaf _, s => s
  | .unary _ r, s => scheduleTimerEvents regex junk m r s
  | .binary l op r, s =>
    match timerClause regex junk m l op r with
    | some c => addEvent m c (scheduleTimerEvents regex junk m r s)
    | none => scheduleTimerEvents regex junk m r (scheduleTimerEvents regex junk m l s)

end Schedule

def timer : Value F := .symbol "TIMER" (some "TIMER")

/-- The greatest value of `TIMER`: the milliseconds in a `long` of microseconds. -/
def maxTimer : Int64 := 9223372036854775

def Scope.atTime (m : Scope F M) (t : Int64) : Scope F M :=
  { m with
    timerVal := t
    resolve := fun s => if s = "TIMER" then .integer t else m.resolve s }

def TimerTarget.atTime (m : TimerTarget F M) (t : Int64) : TimerTarget F M :=
  { m with toScope := m.toScope.atTime t }

def isComparison : PredicateOperator → Bool
  | .opGE | .opGT | .opLE | .opLT | .opEQ | .opNE => true
  | _ => false

/-- Comparisons, `AND`, `OR` and integer arithmetic. -/
def timedOp : PredicateOperator → Bool
  | .opAND | .opOR | .opPlus | .opMinus | .opTimes | .opDivide | .opMod => true
  | op => isComparison op

namespace Predicate

/-- Comparisons, `AND`, `OR`, `NOT` and arithmetic over integers and `TIMER`. -/
def TimedTree : Predicate (Value F) → Prop
  | .leaf v => (∃ i, v = .integer i) ∨ v = timer
  | .unary _ _ => False
  | .binary l op r =>
    (timedOp op ∨ op = .opNOT ∧ l = .leaf (.integer 0)) ∧ l.TimedTree ∧ r.TimedTree

def TimerFree : Predicate (Value F) → Prop
  | .leaf v => ¬v.isTimer
  | .unary _ r => r.TimerFree
  | .binary l _ r => l.TimerFree ∧ r.TimerFree

end Predicate

section Values

variable [Double F] (regex : String → String → Bool) (m : Scope F M)

def valueAt (t : Int64) (p : Predicate (Value F)) : Option (Value F) :=
  evaluate regex (m.atTime t) p

def truthAt (t : Int64) (p : Predicate (Value F)) : Option Bool :=
  (valueAt regex m t p).map Value.truth

/-- The value of a tree does not change any more after `t₀`. -/
def Steady (t₀ : Int64) (p : Predicate (Value F)) : Prop :=
  ∀ t, t₀ ≤ t → t ≤ maxTimer → valueAt regex m t p = valueAt regex m t₀ p

open Predicate in
/-- Every part of the condition that will change is `TIMER` compared with an operand
free of timers, other than by `c > TIMER` and `c <= TIMER`. -/
def Regular (t₀ : Int64) : Predicate (Value F) → Prop
  | .binary l op r =>
    Steady regex m t₀ (.binary l op r) ∨
    (l.isTimerLeaf ∧ r.TimerFree ∧ isComparison op) ∨
    (r.isTimerLeaf ∧ l.TimerFree ∧ isComparison op ∧ op ≠ .opGT ∧ op ≠ .opLE) ∨
    (l.isTimerLeaf = false ∧ r.isTimerLeaf = false ∧ Regular t₀ l ∧ Regular t₀ r)
  | p => Steady regex m t₀ p

end Values

/-- The event found comes within `b` microseconds, or a check was asked for. -/
def Scheduled.Covers (s : Scheduled) (b : ℤ) : Prop :=
  s.needsCheck ∨ ∃ e, s.earliest = some e ∧ 0 < e.delay ∧ e.delay.toInt ≤ b

/-- When the condition changes at `t₁` for the first time, the events set up at `t₀`
come in time. -/
def NoMissedChange [Double F] (regex : String → String → Bool) (junk : Value F)
    (m : TimerTarget F M) (t₀ : Int64) (p : Predicate (Value F)) : Prop :=
  ∀ t₁, t₀ < t₁ → t₁ ≤ maxTimer →
    truthAt regex m.toScope t₁ p ≠ truthAt regex m.toScope t₀ p →
    (∀ t, t₀ < t → t < t₁ → truthAt regex m.toScope t p = truthAt regex m.toScope t₀ p) →
    (scheduleTimerEvents regex junk (m.atTime t₀) p ⟨none, false⟩).Covers
      ((t₁.toInt - t₀.toInt) * 1000)

open Predicate

variable {s : Scheduled} (m : TimerTarget F M) (c : TimerTest M)

theorem addEvent_cases (s : Scheduled) :
    (addEvent m c s = s ∧ (c.scheduledTime = minTimer ∨ c.delay < -2000 ∨
      ∃ e, s.earliest = some e ∧ 0 < c.delay ∧ e.delay ≤ c.delay)) ∨
    (addEvent m c s = { s with earliest := some ⟨c.delay, triggerName m c.timedMachine⟩ } ∧
      0 < c.delay ∧ ∀ e, s.earliest = some e → c.delay < e.delay) ∨
    (addEvent m c s = { s with needsCheck := true } ∧ -2000 ≤ c.delay ∧ c.delay ≤ 0) := by
  by_cases hmin : c.scheduledTime = minTimer
  · exact .inl ⟨by simp [addEvent, hmin], .inl hmin⟩
  by_cases ht : 0 < c.delay
  · cases he : s.earliest with
    | none => exact .inr (.inl ⟨by simp [addEvent, hmin, ht, he], ht, by simp⟩)
    | some e =>
      by_cases hlt : c.delay < e.delay
      · exact .inr (.inl ⟨by simp [addEvent, hmin, ht, he, hlt], ht, by simp [hlt]⟩)
      · exact .inl ⟨by simp [addEvent, hmin, ht, he, hlt],
          .inr (.inr ⟨e, rfl, ht, Int64.not_lt.mp hlt⟩)⟩
  · by_cases hn : -2000 ≤ c.delay
    · exact .inr (.inr ⟨by simp [addEvent, hmin, ht, hn], hn, Int64.not_lt.mp ht⟩)
    · exact .inl ⟨by simp [addEvent, hmin, ht, hn], .inr (.inl (Int64.not_le.mp hn))⟩

def Scheduled.Positive (s : Scheduled) : Prop := ∀ e, s.earliest = some e → 0 < e.delay

theorem Scheduled.Positive.addEvent (h : s.Positive) : (addEvent m c s).Positive := by
  rcases addEvent_cases m c s with ⟨heq, -⟩ | ⟨heq, ht, -⟩ | ⟨heq, -⟩
  · rwa [heq]
  · rw [heq]
    rintro e ⟨⟩
    exact ht
  · rw [heq]
    exact h

theorem Scheduled.Covers.addEvent {b : ℤ} (h : s.Covers b) : (addEvent m c s).Covers b := by
  rcases addEvent_cases m c s with ⟨heq, -⟩ | ⟨heq, ht, hlt⟩ | ⟨heq, -⟩
  · rwa [heq]
  · rw [heq]
    rcases h with h | ⟨e, he, -, hle⟩
    · exact .inl h
    · have := lt_iff_toInt_lt.mp (hlt e he)
      exact .inr ⟨_, rfl, ht, by dsimp only; omega⟩
  · rw [heq]
    exact .inl rfl

theorem toInt_maxTimer : maxTimer.toInt = 9223372036854775 := by decide

theorem toInt_minTimer : minTimer.toInt = -100000 := by decide

open TimerTest

theorem toInt_delay {c : TimerTest M} (h₀ : 0 ≤ c.currentTime.toInt)
    (hle : c.currentTime.toInt ≤ c.scheduledTime.toInt)
    (hmax : c.scheduledTime.toInt ≤ maxTimer.toInt) :
    c.delay.toInt = (c.scheduledTime.toInt - c.currentTime.toInt) * 1000 := by
  have hk : (1000 : Int64).toInt = 1000 := by decide
  rw [toInt_maxTimer] at hmax
  rw [delay, toInt_mul, toInt_sub, hk,
    Int.bmod_eq_of_le (n := c.scheduledTime.toInt - c.currentTime.toInt) (by omega) (by omega),
    Int.bmod_eq_of_le (by omega) (by omega)]

theorem addEvent_covers {t₁ : Int64} (hs : s.Positive) (h₀ : 0 ≤ c.currentTime.toInt)
    (hle : c.currentTime.toInt ≤ c.scheduledTime.toInt) (h₁ : c.scheduledTime.toInt ≤ t₁.toInt)
    (hmax : t₁.toInt ≤ maxTimer.toInt) :
    (addEvent m c s).Covers ((t₁.toInt - c.currentTime.toInt) * 1000) := by
  have hd := toInt_delay h₀ hle (h₁.trans hmax)
  rcases addEvent_cases m c s with ⟨heq, hmin | hlt | ⟨e, he, -, hle'⟩⟩ | ⟨heq, ht, -⟩ | ⟨heq, -⟩
  · rw [hmin, toInt_minTimer] at hle
    omega
  · rw [lt_iff_toInt_lt] at hlt
    have : (-2000 : Int64).toInt = -2000 := by decide
    omega
  · rw [heq]
    rw [le_iff_toInt_le] at hle'
    exact .inr ⟨e, he, hs e he, by omega⟩
  · rw [heq]
    exact .inr ⟨_, rfl, ht, by dsimp only; omega⟩
  · rw [heq]
    exact .inl rfl

theorem toInt_succ {i t : Int64} (h : i.toInt < t.toInt) : (i + 1).toInt = i.toInt + 1 := by
  have hone : (1 : Int64).toInt = 1 := by decide
  have hi := i.le_toInt
  have ht := t.toInt_lt
  rw [toInt_add, hone, Int.bmod_eq_of_le (by omega) (by omega)]

theorem delay_late {i t₀ : Int64} (h₀ : 0 ≤ t₀.toInt) (hlt : t₀.toInt < i.toInt)
    (hmax : i.toInt ≤ maxTimer.toInt) (timed : Option M) :
    (mk (i + 1) t₀ timed).delay.toInt = (i.toInt + 1 - t₀.toInt) * 1000 ∨
      (mk (i + 1) t₀ timed).delay.toInt < -2000 := by
  rw [toInt_maxTimer] at hmax
  have hk : (1000 : Int64).toInt = 1000 := by decide
  have hlas : i.toInt < maxValue.toInt := by
    have : maxValue.toInt = 9223372036854775807 := by decide
    omega
  rw [delay, toInt_mul, toInt_sub, toInt_succ hlas, hk,
    Int.bmod_eq_of_le (n := i.toInt + 1 - t₀.toInt) (by omega) (by omega), Int.bmod_def]
  omega

theorem not_covers_late {i t₀ : Int64} (h₀ : 0 ≤ t₀.toInt) (hlt : t₀.toInt < i.toInt)
    (hmax : i.toInt ≤ maxTimer.toInt) (timed : Option M) :
    ¬(addEvent m (mk (i + 1) t₀ timed) ⟨none, false⟩).Covers ((i.toInt - t₀.toInt) * 1000) := by
  have hd := delay_late h₀ hlt hmax timed
  have hz : (0 : Int64).toInt = 0 := by decide
  have hn : (-2000 : Int64).toInt = -2000 := by decide
  rcases addEvent_cases m (mk (i + 1) t₀ timed) ⟨none, false⟩ with
    ⟨heq, -⟩ | ⟨heq, hpos, -⟩ | ⟨heq, hlo, hhi⟩
  · rw [heq]
    rintro (h | ⟨e, he, -⟩)
    · cases h
    · cases he
  · rw [lt_iff_toInt_lt] at hpos
    rw [heq]
    rintro (h | ⟨e, he, -, hle⟩)
    · cases h
    · rw [← Option.some.inj he] at hle
      dsimp only at hle
      omega
  · rw [le_iff_toInt_le] at hlo
    rw [le_iff_toInt_le] at hhi
    omega

theorem stateComparison_timedTree (m : Scope F M) (op : PredicateOperator)
    {l r : Predicate (Value F)} (hl : l.TimedTree) (hr : r.TimedTree) :
    stateComparison m op l r = (false, false) := by
  unfold stateComparison
  split
  · next ls lt rs rt =>
    -- both leaves are `TIMER`, so both names are looked up alike
    obtain ⟨rfl, -⟩ : ls = "TIMER" ∧ lt = some "TIMER" := by simpa [TimedTree, timer] using hl
    obtain ⟨rfl, -⟩ : rs = "TIMER" ∧ rt = some "TIMER" := by simpa [TimedTree, timer] using hr
    cases m.lookup "TIMER" <;> simp
  · rfl

/-- The value of the leaf `TIMER`; a machine with a state of that name hides it. -/
def timerValue (m : Scope F M) (t : Int64) : Value F :=
  if m.hasState "TIMER" then timer else .integer t

theorem leafValue_timer (m : Scope F M) (t : Int64) (left : Bool) :
    leafValue (m.atTime t) left (timer : Value F) = timerValue m t := by
  have h : resolveCacheMiss (m.atTime t) left (timer : Value F) = timerValue m t := by
    simp [resolveCacheMiss, timerValue, timer, Scope.atTime, isNull]
  have hn : (timerValue m t : Value F).isNull = false := by
    unfold timerValue
    split_ifs <;> rfl
  simp [leafValue, h, hn]

theorem isTimer_timer : (timer : Value F).isTimer := rfl

theorem timedTree_timer : (Predicate.leaf (timer : Value F)).TimedTree := .inr rfl

theorem isOwnTimer_eq_false {v : Value F} (h : v.isTimer = false) : v.isOwnTimer = false := by
  by_contra hv
  simp [isTimer_of_isOwnTimer (by simpa using hv)] at h

variable {p : Predicate (Value F)}

theorem isTimerLeaf_timerFree (h : p.TimerFree) : p.isTimerLeaf = false := by
  cases p with
  | leaf v => simpa [TimerFree, isTimerLeaf] using h
  | _ => rfl

theorem eq_timer_of_isTimerLeaf (hp : p.TimedTree) (h : p.isTimerLeaf) : p = .leaf timer := by
  cases p with
  | leaf v =>
    rcases hp with ⟨i, rfl⟩ | rfl
    · cases h
    · rfl
  | _ => cases h

section Values

variable [Double F] (regex : String → String → Bool)

variable {p l r : Predicate (Value F)} {op : PredicateOperator} {s : Scheduled}

variable (m : Scope F M) (t : Int64)

theorem stackValue_left (left : Bool) (hp : p.TimedTree) :
    stackValue regex (m.atTime t) left false p = valueAt regex m t p := by
  rw [valueAt, evaluate_eq_stackValue]
  cases p with
  | leaf v =>
    rcases hp with ⟨i, rfl⟩ | rfl
    · rfl
    · simp [stackValue, leafValue_timer]
  | unary op r => cases hp
  | binary l op r => rfl

theorem valueAt_timer : valueAt regex m t (.leaf timer) = some (timerValue m t : Value F) := by
  rw [valueAt, evaluate_eq_stackValue]
  simp [stackValue, leafValue_timer]

theorem valueAt_binary (op : PredicateOperator) (hl : l.TimedTree) (hr : r.TimedTree) :
    valueAt regex m t (.binary l op r) = (valueAt regex m t r).bind fun b =>
      (valueAt regex m t l).bind fun a => stackOp regex op a b := by
  rw [valueAt, evaluate_eq_stackValue, stackValue, stateComparison_timedTree _ op hl hr,
    stackValue_left regex m t _ hl, stackValue_left regex m t _ hr]
  rfl

theorem valueAt_timerFree (t t' : Int64) (hp : p.TimedTree) (hf : p.TimerFree) :
    valueAt regex m t p = valueAt regex m t' p := by
  induction p with
  | leaf v =>
    rcases hp with ⟨i, rfl⟩ | rfl
    · rfl
    · exact absurd isTimer_timer hf
  | unary op r _ => cases hp
  | binary l op r ihl ihr =>
    rw [valueAt_binary regex m t op hp.2.1 hp.2.2, valueAt_binary regex m t' op hp.2.1 hp.2.2,
      ihl hp.2.1 hf.1, ihr hp.2.2 hf.2]

def compareInts : PredicateOperator → ℤ → ℤ → Bool
  | .opGE, a, b => b ≤ a
  | .opGT, a, b => b < a
  | .opLE, a, b => a ≤ b
  | .opLT, a, b => a < b
  | .opEQ, a, b => a = b
  | .opNE, a, b => a ≠ b
  | _, _, _ => false

theorem stackOp_integers (hc : isComparison op) (a b : Int64) :
    stackOp regex op (.integer a : Value F) (.integer b) =
      some (.bool (compareInts op a.toInt b.toInt)) := by
  have hge : (integer a : Value F).ge (.integer b) = decide (b ≤ a) := rfl
  have hle : (integer a : Value F).le (.integer b) = decide (a ≤ b) := rfl
  have heq : (integer a : Value F).eq (.integer b) = decide (a = b) := rfl
  have hne : (integer a : Value F).ne (.integer b) = decide (a ≠ b) := rfl
  have hlt : (integer a : Value F).lt (.integer b) = decide (a < b) := by
    simp only [lt, hge, ← decide_not, Int64.not_le]
  have hgt : (integer a : Value F).gt (.integer b) = decide (b < a) := by
    simp only [gt, hle, ← decide_not, Int64.not_le]
  cases op <;> simp only [isComparison, Bool.false_eq_true] at hc <;>
    simp [stackOp, compareInts, hge, hle, hlt, hgt, heq, hne, Int64.le_iff_toInt_le,
      Int64.lt_iff_toInt_lt, ← Int64.toInt_inj]

theorem stackOp_uncompared (hc : isComparison op) {a b : Value F} (hge : a.ge b = false)
    (hle : a.le b = false) (heq : a.eq b = false) (hne : a.ne b = true) : stackOp regex op a b =
      some (.bool (decide (op = .opLT ∨ op = .opGT ∨ op = .opNE))) := by
  cases op <;> simp only [isComparison, Bool.false_eq_true] at hc <;>
    simp [stackOp, lt, gt, hge, hle, heq, hne]

theorem stackOp_bool (hc : isComparison op) (a a' : Int64) (x : Bool) :
    stackOp regex op (.integer a : Value F) (.bool x) =
        stackOp regex op (.integer a') (.bool x) ∧
      stackOp regex op (.bool x : Value F) (.integer a) =
        stackOp regex op (.bool x) (.integer a') := by
  constructor <;>
    rw [stackOp_uncompared regex hc rfl rfl rfl rfl, stackOp_uncompared regex hc rfl rfl rfl rfl]

def Value.IsWhole (v : Value F) : Prop := (∃ i, v = .integer i) ∨ ∃ b, v = .bool b

theorem stackOp_isWhole (hop : timedOp op ∨ op = .opNOT) {a b v : Value F} (ha : a.IsWhole)
    (hb : b.IsWhole) (hv : stackOp regex op a b = some v) : v.IsWhole := by
  have hboo : ∀ {x : Option Bool}, x.map bool = some v → v.IsWhole := by
    intro x hx
    obtain ⟨y, -, rfl⟩ := Option.map_eq_some_iff.mp hx
    exact .inr ⟨y, rfl⟩
  have hint : ∀ {x : Option Int64}, x.map integer = some v → v.IsWhole := by
    intro x hx
    obtain ⟨y, -, rfl⟩ := Option.map_eq_some_iff.mp hx
    exact .inl ⟨y, rfl⟩
  have hsom : ∀ {w : Value F}, w.IsWhole → some w = some v → v.IsWhole := by
    rintro w hw ⟨⟩
    exact hw
  -- whole numbers and truth values are closed under the operators of a timed tree
  cases op <;>
    simp only [timedOp, isComparison, Bool.false_eq_true, reduceCtorEq, or_self] at hop <;>
    simp only [stackOp] at hv
  case opAND | opOR => exact hboo hv
  case opPlus | opMinus | opTimes =>
    rcases ha with ⟨i, rfl⟩ | ⟨x, rfl⟩ <;> rcases hb with ⟨j, rfl⟩ | ⟨y, rfl⟩ <;>
      exact hsom (by simp [Value.IsWhole]) hv
  case opDivide =>
    rcases ha with ⟨i, rfl⟩ | ⟨x, rfl⟩ <;> rcases hb with ⟨j, rfl⟩ | ⟨y, rfl⟩ <;>
      simp only [div] at hv
    · split_ifs at hv
      · exact hsom (by simp [Value.IsWhole]) hv
      · exact hsom (by simp [Value.IsWhole]) hv
      · exact hint hv
    all_goals exact hsom (by simp [Value.IsWhole]) hv
  case opMod =>
    rcases ha with ⟨i, rfl⟩ | ⟨x, rfl⟩ <;> rcases hb with ⟨j, rfl⟩ | ⟨y, rfl⟩ <;>
      simp only [mod] at hv
    · split_ifs at hv
      · exact hsom (by simp [Value.IsWhole]) hv
      · exact hint hv
    all_goals exact hsom (by simp [Value.IsWhole]) hv
  all_goals exact hsom (.inr ⟨_, rfl⟩) hv

theorem isWhole_of_valueAt (hp : p.TimedTree) (hf : p.TimerFree) {v : Value F}
    (hv : valueAt regex m t p = some v) : v.IsWhole := by
  induction p generalizing v with
  | leaf w =>
    rcases hp with ⟨i, rfl⟩ | rfl
    · obtain rfl : integer i = v := Option.some.inj hv
      exact .inl ⟨i, rfl⟩
    · exact absurd isTimer_timer hf
  | unary op r _ => cases hp
  | binary l op r ihl ihr =>
    rw [valueAt_binary regex m t op hp.2.1 hp.2.2] at hv
    obtain ⟨b, hb, hv⟩ := Option.bind_eq_some_iff.mp hv
    obtain ⟨a, ha, hv⟩ := Option.bind_eq_some_iff.mp hv
    exact stackOp_isWhole regex (hp.1.imp_right And.left) (ihl hp.2.1 hf.1 ha)
      (ihr hp.2.2 hf.2 hb) hv

theorem scheduleTimerEvents_induction {P : Scheduled → Prop} {m : TimerTarget F M}
    (hadd : ∀ c s, P s → P (addEvent m c s)) (junk : Value F) (p : Predicate (Value F)) (h : P s) :
    P (scheduleTimerEvents regex junk m p s) := by
  induction p generalizing s with
  | leaf v => exact h
  | unary op r ih => exact ih h
  | binary l op r ihl ihr =>
    unfold scheduleTimerEvents
    split
    · exact hadd _ _ (ihr h)
    · exact ihr (ihl h)

theorem Scheduled.Positive.schedule (junk : Value F) (m : TimerTarget F M)
    (p : Predicate (Value F)) (h : s.Positive) : (scheduleTimerEvents regex junk m p s).Positive :=
  scheduleTimerEvents_induction regex (P := Scheduled.Positive)
    (fun c _ hs => hs.addEvent m c) junk p h

theorem Scheduled.Covers.schedule (junk : Value F) (m : TimerTarget F M) (p : Predicate (Value F))
    {b : ℤ} (h : s.Covers b) : (scheduleTimerEvents regex junk m p s).Covers b :=
  scheduleTimerEvents_induction regex (P := fun s => s.Covers b)
    (fun c _ hs => hs.addEvent m c) junk p h

theorem timerTest_integer (op : PredicateOperator) (i now : Int64) (timed : Option M) :
    timerTest op (.integer i : Value F) now timed =
      ⟨if op = .opGT ∨ op = .opLE then i + 1 else i, now, timed⟩ := rfl

variable {t₀ t₁ : Int64}

theorem timerTest_left (hc : isComparison op) {c : Value F} (hw : c.IsWhole)
    (hlt : t₀ < t₁) (hch : stackOp regex op (.integer t₁) c ≠ stackOp regex op (.integer t₀) c) :
    ∃ x, timerTest op c t₀ (none : Option M) = ⟨x, t₀, none⟩ ∧
      t₀.toInt ≤ x.toInt ∧ x.toInt ≤ t₁.toInt := by
  rcases hw with ⟨i, rfl⟩ | ⟨x, rfl⟩
  · rw [stackOp_integers regex hc, stackOp_integers regex hc] at hch
    rw [lt_iff_toInt_lt] at hlt
    refine ⟨_, timerTest_integer op i t₀ none, ?_⟩
    cases op <;> simp only [isComparison, Bool.false_eq_true] at hc <;>
      simp [compareInts, -toInt_add] at hch ⊢
    case opGT | opLE =>
      have hi : i.toInt < t₁.toInt := by omega
      have := toInt_succ hi
      omega
    all_goals omega
  · exact absurd (stackOp_bool regex hc t₁ t₀ x).1 hch

/-- The time set for `c op TIMER` lies within every change of the comparison, apart
from the two operators that set it one millisecond late. -/
theorem timerTest_right (hc : isComparison op) (hgt : op ≠ .opGT) (hle : op ≠ .opLE) {c : Value F}
    (hw : c.IsWhole) (hlt : t₀ < t₁)
    (hch : stackOp regex op c (.integer t₁) ≠ stackOp regex op c (.integer t₀)) :
    ∃ x, timerTest op c t₀ (none : Option M) = ⟨x, t₀, none⟩ ∧
      t₀.toInt ≤ x.toInt ∧ x.toInt ≤ t₁.toInt := by
  rcases hw with ⟨i, rfl⟩ | ⟨x, rfl⟩
  · rw [stackOp_integers regex hc, stackOp_integers regex hc] at hch
    rw [lt_iff_toInt_lt] at hlt
    refine ⟨i, by rw [timerTest_integer, if_neg (by simp [hgt, hle])], ?_⟩
    cases op <;>
      simp only [isComparison, Bool.false_eq_true, ne_eq, not_true_eq_false] at hc hgt hle <;>
      simp [compareInts] at hch
    all_goals omega
  · exact absurd (stackOp_bool regex hc t₁ t₀ x).2 hch

/-- If a value that is computed from `TIMER` and a tree without it changes, then the value of the
tree is whole, and the change is one between the two times. -/
theorem timer_change (hp : p.TimedTree) (hf : p.TimerFree)
    (g : Value F → Value F → Option (Value F))
    (hch : ((valueAt regex m t₁ p).bind fun c => g c (timerValue m t₁)) ≠
      (valueAt regex m t₀ p).bind fun c => g c (timerValue m t₀)) :
    ∃ c, valueAt regex m t₀ p = some c ∧ c.IsWhole ∧ m.hasState "TIMER" = false ∧
      g c (.integer t₁) ≠ g c (.integer t₀) := by
  rw [valueAt_timerFree regex m t₁ t₀ hp hf] at hch
  cases hc : valueAt regex m t₀ p with
  | none => simp [hc] at hch
  | some c =>
    refine ⟨c, rfl, isWhole_of_valueAt regex m t₀ hp hf hc, ?_⟩
    cases hst : m.hasState "TIMER" with
    | false => simpa [hc, timerValue, hst] using hch
    | true => simp [hc, timerValue, hst] at hch

theorem right_change (hl : l.TimedTree) (hf : l.TimerFree)
    (hch : valueAt regex m t₁ (.binary l op (.leaf timer)) ≠
      valueAt regex m t₀ (.binary l op (.leaf timer))) :
    ∃ c, valueAt regex m t₀ l = some c ∧ c.IsWhole ∧ m.hasState "TIMER" = false ∧
      stackOp regex op c (.integer t₁) ≠ stackOp regex op c (.integer t₀) := by
  refine timer_change regex m hl hf (stackOp regex op) ?_
  simpa [valueAt_binary regex m _ op hl timedTree_timer, valueAt_timer] using hch

variable (junk : Value F) (m : TimerTarget F M) (t₀ : Int64)

theorem schedule_rightClause (hl : l.TimerFree) (op : PredicateOperator) (s : Scheduled) :
    scheduleTimerEvents regex junk (m.atTime t₀) (.binary l op (.leaf timer)) s =
      addEvent (m.atTime t₀)
        (timerTest op ((valueAt regex m.toScope t₀ l).getD junk) t₀ none) s := by
  have hle : l.entry.isTimer = false := by rw [isTimer_entry, isTimerLeaf_timerFree hl]
  have hcla : timerClause regex junk (m.atTime t₀) l op (.leaf timer) =
      some (timerTest op ((valueAt regex m.toScope t₀ l).getD junk) t₀ none) := by
    simp only [timerClause, hle, isOwnTimer_eq_false hle, Bool.false_eq_true, if_false]
    rfl
  rw [scheduleTimerEvents, hcla]
  rfl

theorem schedule_noClause (hl : l.isTimerLeaf = false) (hr : r.isTimerLeaf = false)
    (op : PredicateOperator) (s : Scheduled) :
    scheduleTimerEvents regex junk (m.atTime t₀) (.binary l op r) s =
      scheduleTimerEvents regex junk (m.atTime t₀) r
        (scheduleTimerEvents regex junk (m.atTime t₀) l s) := by
  rw [← isTimer_entry] at hl hr
  simp [scheduleTimerEvents, timerClause, hl, hr, isOwnTimer_eq_false]

variable {t₀}

theorem covers_of_change (hp : p.TimedTree) (hreg : Regular regex m.toScope t₀ p)
    (h₀ : 0 ≤ t₀.toInt) {t₁ : Int64} (hlt : t₀ < t₁) (hmax : t₁ ≤ maxTimer)
    (hch : valueAt regex m.toScope t₁ p ≠ valueAt regex m.toScope t₀ p) (hs : s.Positive) :
    (scheduleTimerEvents regex junk (m.atTime t₀) p s).Covers ((t₁.toInt - t₀.toInt) * 1000) := by
  have hle : t₀ ≤ t₁ := Int64.le_of_lt hlt
  have hmai := Int64.le_iff_toInt_le.mp hmax
  induction p generalizing s with
  | leaf v => exact absurd (hreg t₁ hle hmax) hch
  | unary op r _ => cases hp
  | binary l op r ihl ihr =>
    obtain ⟨-, hl, hr⟩ := hp
    rcases hreg with hst | ⟨htl, hf, hc⟩ | ⟨htr, hf, hc, hgt, hle'⟩ | ⟨hnl, hnr, hrel, hrer⟩
    · exact absurd (hst t₁ hle hmax) hch
    · obtain rfl := eq_timer_of_isTimerLeaf hl htl
      rw [valueAt_binary regex _ t₁ op hl hr, valueAt_binary regex _ t₀ op hl hr, valueAt_timer,
        valueAt_timer] at hch
      obtain ⟨c, hval, hw, -, hop⟩ :=
        timer_change regex m.toScope hr hf (fun c t => stackOp regex op t c) hch
      obtain ⟨x, hx, hx₀, hx₁⟩ := timerTest_left (M := M) regex hc hw hlt hop
      change (addEvent (m.atTime t₀) (timerTest op ((valueAt regex m.toScope t₀ r).getD junk)
        t₀ none) _).Covers _
      rw [hval, Option.getD_some, hx]
      exact addEvent_covers _ _ (hs.schedule regex junk _ r) h₀ hx₀ hx₁ hmai
    · obtain rfl := eq_timer_of_isTimerLeaf hr htr
      obtain ⟨c, hval, hw, -, hop⟩ := right_change regex m.toScope hl hf hch
      obtain ⟨x, hx, hx₀, hx₁⟩ := timerTest_right (M := M) regex hc hgt hle' hw hlt hop
      rw [schedule_rightClause regex junk m t₀ hf, hval, Option.getD_some, hx]
      exact addEvent_covers _ _ hs h₀ hx₀ hx₁ hmai
    · rw [schedule_noClause regex junk m t₀ hnl hnr]
      -- the node changes, so one of its operands does
      by_cases hchl : valueAt regex m.toScope t₁ l = valueAt regex m.toScope t₀ l
      · have hchr : valueAt regex m.toScope t₁ r ≠ valueAt regex m.toScope t₀ r := by
          intro hchr
          rw [valueAt_binary regex _ t₁ op hl hr, valueAt_binary regex _ t₀ op hl hr, hchl,
            hchr] at hch
          exact hch rfl
        exact ihr hr hrer hchr (hs.schedule regex junk _ l)
      · exact (ihl hl hrel hchl hs).schedule regex junk _ r

theorem steady_of_late (hl : l.TimedTree) (hf : l.TimerFree) (hop : op = .opGT ∨ op = .opLE)
    (h₀ : 0 ≤ t₀.toInt) (h : NoMissedChange regex junk m t₀ (.binary l op (.leaf timer))) :
    Steady regex m.toScope t₀ (.binary l op (.leaf timer)) := by
  intro t hle hmax
  by_contra hch
  have hc : isComparison op := by rcases hop with rfl | rfl <;> rfl
  obtain ⟨c, hval, hw, hst, hne⟩ := right_change regex m.toScope hl hf hch
  rcases hw with ⟨i, rfl⟩ | ⟨x, rfl⟩
  swap
  · exact hne (stackOp_bool regex hc t t₀ x).2
  -- the clause changes at `i`
  have htru : ∀ u, truthAt regex m.toScope u (.binary l op (.leaf timer)) =
      some (compareInts op i.toInt u.toInt) := by
    intro u
    rw [truthAt, valueAt_binary regex _ u op hl timedTree_timer, valueAt_timer,
      valueAt_timerFree regex _ u t₀ hl hf, hval]
    simp [timerValue, hst, stackOp_integers regex hc, truth]
  rw [stackOp_integers regex hc, stackOp_integers regex hc] at hne
  rw [le_iff_toInt_le] at hle hmax
  have hi : t₀.toInt < i.toInt ∧ i.toInt ≤ t.toInt := by
    rcases hop with rfl | rfl <;> simp [compareInts] at hne <;> omega
  have hcov := h i (lt_iff_toInt_lt.mpr hi.1)
    (le_iff_toInt_le.mpr (hi.2.trans hmax))
    (by rw [htru, htru]; rcases hop with rfl | rfl <;> simp [compareInts] <;> omega)
    (by
      intro u hu hui
      rw [lt_iff_toInt_lt] at hu hui
      rw [htru, htru]
      rcases hop with rfl | rfl <;> simp [compareInts] <;> omega)
  rw [schedule_rightClause regex junk m t₀ hf, hval, Option.getD_some, timerTest_integer,
    if_pos hop] at hcov
  exact not_covers_late (m.atTime t₀) h₀ hi.1 (hi.2.trans hmax) none hcov

/-- No change of a regular condition is missed, and a single comparison with `TIMER`
misses no change only if it is regular. -/
theorem no_change_missed (t₀ : Int64) (p : Predicate (Value F)) (hp : p.TimedTree) (h₀ : 0 ≤ t₀) :
    (Regular regex m.toScope t₀ p → NoMissedChange regex junk m t₀ p) ∧
      ∀ l op r, p = .binary l op r → isComparison op →
        (l.isTimerLeaf ∧ r.TimerFree ∨ r.isTimerLeaf ∧ l.TimerFree) →
        (NoMissedChange regex junk m t₀ p ↔ Regular regex m.toScope t₀ p) := by
  have h₀' : 0 ≤ t₀.toInt := le_iff_toInt_le.mp h₀
  have hsuf : Regular regex m.toScope t₀ p → NoMissedChange regex junk m t₀ p := by
    intro hreg t₁ hlt hmax hch _
    refine covers_of_change regex junk m hp hreg h₀' hlt hmax (fun heq => hch ?_) ?_
    · rw [truthAt, heq, truthAt]
    · rintro e ⟨⟩
  refine ⟨hsuf, ?_⟩
  rintro l op r rfl hc (⟨htl, hf⟩ | ⟨htr, hf⟩)
  · exact iff_of_true (hsuf (.inr (.inl ⟨htl, hf, hc⟩))) (.inr (.inl ⟨htl, hf, hc⟩))
  · by_cases hop : op = .opGT ∨ op = .opLE
    · refine ⟨fun h => .inl ?_, hsuf⟩
      obtain rfl := eq_timer_of_isTimerLeaf hp.2.2 htr
      exact steady_of_late regex junk m hp.2.1 hf hop h₀' h
    · rw [not_or] at hop
      have hreg : Regular regex m.toScope t₀ (.binary l op r) :=
        .inr (.inr (.inl ⟨htr, hf, hc, hop.1, hop.2⟩))
      exact iff_of_true (hsuf hreg) hreg

end Values

def timerOnly : TimerTarget ℚ Unit where
  toScope := emptyScope
  name := "M"
  machineName _ := ""
  machineTimer _ := 0

theorem no_change_missed_timer_ge_ten :
    (Predicate.binary (.leaf timer) .opGE (.leaf (.integer 10 : Value ℚ))).TimedTree ∧
      (0 : Int64) ≤ 3 ∧ NoMissedChange (fun _ _ => false) .empty timerOnly 3
        (.binary (.leaf timer) .opGE (.leaf (.integer 10))) := by
  have hp : (Predicate.binary (.leaf timer) .opGE (.leaf (.integer 10 : Value ℚ))).TimedTree :=
    ⟨.inl rfl, .inr rfl, .inl ⟨10, rfl⟩⟩
  refine ⟨hp, by decide, ?_⟩
  refine (no_change_missed (fun _ _ => false) .empty timerOnly 3 _ hp (by decide)).1 ?_
  exact .inr (.inl ⟨rfl, by simp [TimerFree, isTimer], rfl⟩)

/-- `10 <= TIMER` becomes true 7 ms after the timer reads 3; the event set up then
comes after 8 ms. -/
theorem ten_le_timer_missed : scheduleTimerEvents (fun _ _ => false) .empty (timerOnly.atTime 3)
        (.binary (.leaf (.integer 10)) .opLE (.leaf timer)) ⟨none, false⟩ =
      ⟨some ⟨8000, "Timer M"⟩, false⟩ ∧
    truthAt (fun _ _ => false) emptyScope 10 (.binary (.leaf (.integer 10)) .opLE (.leaf timer)) ≠
      truthAt (fun _ _ => false) emptyScope 3 (.binary (.leaf (.integer 10)) .opLE (.leaf timer)) ∧
    ¬NoMissedChange (fun _ _ => false) .empty timerOnly 3
      (.binary (.leaf (.integer 10)) .opLE (.leaf timer)) := by
  refine ⟨by decide, by decide, fun h => ?_⟩
  have hst := steady_of_late (fun _ _ => false) .empty timerOnly (l := .leaf (.integer 10))
    (Or.inl ⟨10, rfl⟩) (by simp [TimerFree, isTimer]) (.inr rfl) (by decide) h
  exact absurd (hst 10 (by decide) (by decide)) (by decide)

end Clockwork
