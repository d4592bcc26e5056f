import Clockwork.TimerEvents
import Clockwork.Library.Minimum

namespace Clockwork

open List Predicate Scheduled

variable {F M : Type}

structure TimerNode (F : Type) where
  left : Predicate (Value F)
  op : PredicateOperator
  right : Predicate (Value F)

def TimerNode.operand (c : TimerNode F) : Predicate (Value F) :=
  if c.left.entry.isTimer then c.right else c.left

namespace Predicate

def timerNodes : Predicate (Value F) → List (TimerNode F)
  | .leaf _ => []
  | .unary _ r => r.timerNodes
  | .binary l op r =>
    l.timerNodes ++ r.timerNodes ++
      if l.entry.isTimer || r.entry.isTimer then [⟨l, op, r⟩] else []

def visited : Predicate (Value F) → List (TimerNode F)
  | .leaf _ => []
  | .unary _ r => r.visited
  | .binary l op r =>
    if l.entry.isTimer || r.entry.isTimer then r.visited ++ [⟨l, op, r⟩] else l.visited ++ r.visited

def passedOver : Predicate (Value F) → List (TimerNode F)
  | .leaf _ => []
  | .unary _ r => r.passedOver
  | .binary l _ r =>
    if l.entry.isTimer then r.passedOver
    else if r.entry.isTimer then l.timerNodes
    else l.passedOver ++ r.passedOver

variable {p : Predicate (Value F)}

theorem timerNodes_of_isTimer (h : p.entry.isTimer) : p.timerNodes = [] := by
  cases p with
  | leaf v => rfl
  | unary op r => cases h
  | binary l op r => cases h

theorem visited_of_isTimer (h : p.entry.isTimer) : p.visited = [] := by
  cases p with
  | leaf v => rfl
  | unary op r => cases h
  | binary l op r => cases h

theorem mem_timerNodes_iff {c : TimerNode F} :
    c ∈ p.timerNodes ↔ c ∈ p.visited ∨ c ∈ p.passedOver := by
  induction p with
  | leaf v => simp [timerNodes, visited, passedOver]
  | unary op r ih => exact ih
  | binary l op r ihl ihr =>
    by_cases hl : l.entry.isTimer
    · simp only [timerNodes, visited, passedOver, hl, timerNodes_of_isTimer hl, Bool.true_or,
        if_true, nil_append, mem_append, ihr]
      exact or_right_comm
    · by_cases hr : r.entry.isTimer
      · simp [timerNodes, visited, passedOver, hl, hr, timerNodes_of_isTimer hr,
          visited_of_isTimer hr, or_comm]
      · simp only [timerNodes, visited, passedOver, hl, hr, Bool.or_self, if_false,
          append_nil, mem_append, ihl, ihr, Bool.false_eq_true]
        exact or_or_or_comm

end Predicate

def TimerTest.due (c : TimerTest M) : Option ℤ :=
  if c.scheduledTime ≠ minTimer ∧ 0 < c.delay then some c.delay.toInt else none

def Scheduled.delays (s : Scheduled) : List ℤ := s.earliest.toList.map fun e => e.delay.toInt

def Scheduled.delay (s : Scheduled) : Option ℤ := s.earliest.map fun e => e.delay.toInt

theorem Scheduled.min?_delays (s : Scheduled) : s.delays.min? = s.delay := by
  cases h : s.earliest <;> simp [delays, delay, h]

/-- The later list of events has one for each of the earlier one, the same or a sooner one. -/
def Scheduled.NoLater (s s' : Scheduled) : Prop :=
  ∀ e, s.earliest = some e → ∃ e', s'.earliest = some e' ∧ (e' = e ∨ e'.delay < e.delay)

theorem Scheduled.NoLater.refl (s : Scheduled) : s.NoLater s := fun e he => ⟨e, he, .inl rfl⟩

theorem Scheduled.NoLater.trans {s t u : Scheduled} (h : s.NoLater t) (h' : t.NoLater u) :
    s.NoLater u := by
  intro e he
  obtain ⟨e₁, he₁, hlt₁⟩ := h e he
  obtain ⟨e₂, he₂, hlt₂⟩ := h' e₁ he₁
  refine ⟨e₂, he₂, ?_⟩
  rcases hlt₂ with rfl | hlt₂
  · exact hlt₁
  · rcases hlt₁ with rfl | hlt₁
    · exact .inr hlt₂
    · exact .inr (Int64.lt_trans hlt₂ hlt₁)

section Added

variable (m : TimerTarget F M) (c : TimerTest M) (s : Scheduled)

theorem noLater_addEvent : s.NoLater (addEvent m c s) := by
  rcases addEvent_cases m c s with ⟨heq, -⟩ | ⟨heq, -, hlt⟩ | ⟨heq, -⟩
  · rw [heq]
    exact .refl s
  · rw [heq]
    intro e he
    exact ⟨_, rfl, .inr (hlt e he)⟩
  · rw [heq]
    intro e he
    exact ⟨e, he, .inl rfl⟩

theorem delay_addEvent : (addEvent m c s).delay = (s.delays ++ c.due.toList).min? := by
  by_cases hmin : c.scheduledTime = minTimer
  · simp [addEvent, TimerTest.due, hmin, min?_delays]
  by_cases hpos : 0 < c.delay
  · have hdue : c.due = some c.delay.toInt := by simp [TimerTest.due, hmin, hpos]
    cases he : s.earliest with
    | none => simp [addEvent, delay, delays, hmin, hpos, he, hdue]
    | some e =>
      have hdel : s.delays ++ c.due.toList = [e.delay.toInt, c.delay.toInt] := by
        simp [delays, he, hdue]
      rw [hdel]
      simp only [addEvent, hmin, hpos, he, if_false, if_true]
      split_ifs with hlt
      · have hlt := Int64.lt_iff_toInt_lt.mp hlt
        simp only [delay, Option.map_some, min?_cons', foldl_cons, foldl_nil, Option.some.injEq]
        omega
      · have hle := Int64.le_iff_toInt_le.mp (Int64.not_lt.mp hlt)
        simp only [delay, he, Option.map_some, min?_cons', foldl_cons, foldl_nil, Option.some.injEq]
        omega
  · have hdue : c.due = none := by simp [TimerTest.due, hpos]
    have hear : (addEvent m c s).earliest = s.earliest := by
      unfold addEvent
      split_ifs <;> rfl
    simp [delay, min?_delays, hear, hdue]

end Added

section Schedule

variable [Double F] (regex : String → String → Bool) (junk : Value F) (m : TimerTarget F M)

namespace TimerNode

def integerOperand (c : TimerNode F) : Bool :=
  (((evaluate regex m.toScope c.operand).getD junk).asInteger).isSome

def delay (c : TimerNode F) : Option ℤ :=
  (timerClause regex junk m c.left c.op c.right).bind TimerTest.due

def integerDelay (c : TimerNode F) : Option ℤ :=
  if c.integerOperand regex junk m then c.delay regex junk m else none

theorem integerDelay_eq_some_iff {c : TimerNode F} {d : ℤ} : c.integerDelay regex junk m = some d ↔
      c.integerOperand regex junk m ∧ c.delay regex junk m = some d := by
  unfold integerDelay
  split_ifs with h
  · simp [h]
  · simp [h]

end TimerNode

theorem timerClause_eq_none_iff (l : Predicate (Value F)) (op : PredicateOperator)
    (r : Predicate (Value F)) :
    timerClause regex junk m l op r = none ↔ (l.entry.isTimer || r.entry.isTimer) = false := by
  have hl : l.entry.isOwnTimer → l.entry.isTimer := Value.isTimer_of_isOwnTimer
  have hr : r.entry.isOwnTimer → r.entry.isTimer := Value.isTimer_of_isOwnTimer
  simp only [timerClause]
  split_ifs <;> simp_all

variable (p : Predicate (Value F))

theorem noLater_scheduleTimerEvents (s : Scheduled) :
    s.NoLater (scheduleTimerEvents regex junk m p s) := by
  induction p generalizing s with
  | leaf v => exact .refl s
  | unary op r ih => exact ih s
  | binary l op r ihl ihr =>
    rw [scheduleTimerEvents]
    split
    · exact (ihr s).trans (noLater_addEvent m _ _)
    · exact (ihl s).trans (ihr _)

open TimerNode

theorem delay_scheduleTimerEvents (s : Scheduled) :
    (scheduleTimerEvents regex junk m p s).delay =
      (s.delays ++ p.visited.filterMap (delay regex junk m)).min? := by
  induction p generalizing s with
  | leaf v => simp [scheduleTimerEvents, visited, min?_delays]
  | unary op r ih => exact ih s
  | binary l op r ihl ihr =>
    rw [scheduleTimerEvents]
    cases h : timerClause regex junk m l op r with
    | none =>
      have hnot := (timerClause_eq_none_iff regex junk m l op r).mp h
      simp only [visited, hnot, Bool.false_eq_true, if_false, filterMap_append]
      rw [ihr, ← append_assoc]
      apply Minimum.min?_append_congr _ rfl
      rw [min?_delays, ihl]
    | some c =>
      have htim : (l.entry.isTimer || r.entry.isTimer) = true := by
        rw [← Bool.not_eq_false, ← timerClause_eq_none_iff regex junk m l op r, h]
        simp
      have hdel : [(⟨l, op, r⟩ : TimerNode F)].filterMap (delay regex junk m) =
          c.due.toList := by
        cases hdue : c.due <;> simp [TimerNode.delay, h, hdue]
      simp only [visited, htim, if_true, filterMap_append, hdel]
      rw [delay_addEvent, ← append_assoc]
      apply Minimum.min?_append_congr _ rfl
      rw [min?_delays, ihr]

/-- The event returned has the least delay of the first event and of all the comparisons of a
timer with an integer, and the first event is only replaced by a sooner one. -/
def TakesEarliest (p : Predicate (Value F)) (s : Scheduled) : Prop :=
  (scheduleTimerEvents regex junk m p s).delay =
      (s.delays ++ p.timerNodes.filterMap (TimerNode.integerDelay regex junk m)).min? ∧
    s.NoLater (scheduleTimerEvents regex junk m p s)

/-- That is so exactly if no comparison with something that is no integer, and none passed over,
would be the earliest. -/
theorem takesEarliest_iff (p : Predicate (Value F)) (s : Scheduled) :
    TakesEarliest regex junk m p s ↔ (∀ c ∈ p.visited, c.integerOperand regex junk m = false →
        ∀ d, c.delay regex junk m = some d →
          ∃ d' ∈ s.delays ++ p.timerNodes.filterMap (TimerNode.integerDelay regex junk m), d' ≤ d) ∧
      ∀ c ∈ p.passedOver, c.integerOperand regex junk m → ∀ d, c.delay regex junk m = some d →
          ∃ d' ∈ s.delays ++ p.visited.filterMap (TimerNode.delay regex junk m), d' ≤ d := by
  unfold TakesEarliest
  rw [and_iff_left (noLater_scheduleTimerEvents regex junk m p s), delay_scheduleTimerEvents,
    Minimum.min?_eq_min?_iff]
  refine and_congr ⟨?_, ?_⟩ ⟨?_, ?_⟩
  · intro h c hc _ d hd
    exact h d (mem_append_right _ (mem_filterMap.mpr ⟨c, hc, hd⟩))
  · intro h d hd
    rcases mem_append.mp hd with hfir | hd
    · exact ⟨d, mem_append_left _ hfir, le_rfl⟩
    · obtain ⟨c, hc, hcd⟩ := mem_filterMap.mp hd
      cases hint : c.integerOperand regex junk m with
      | false => exact h c hc hint d hcd
      | true =>
        have hnod : c ∈ p.timerNodes := mem_timerNodes_iff.mpr (.inl hc)
        have hcou := (integerDelay_eq_some_iff regex junk m).mpr ⟨hint, hcd⟩
        exact ⟨d, mem_append_right _ (mem_filterMap.mpr ⟨c, hnod, hcou⟩), le_rfl⟩
  · intro h c hc hint d hd
    have hnod : c ∈ p.timerNodes := mem_timerNodes_iff.mpr (.inr hc)
    have hcou := (integerDelay_eq_some_iff regex junk m).mpr ⟨hint, hd⟩
    exact h d (mem_append_right _ (mem_filterMap.mpr ⟨c, hnod, hcou⟩))
  · intro h d hd
    rcases mem_append.mp hd with hfir | hd
    · exact ⟨d, mem_append_left _ hfir, le_rfl⟩
    · obtain ⟨c, hc, hcd⟩ := mem_filterMap.mp hd
      obtain ⟨hint, hcd⟩ := (integerDelay_eq_some_iff regex junk m).mp hcd
      rcases mem_timerNodes_iff.mp hc with hc | hc
      · exact ⟨d, mem_append_right _ (mem_filterMap.mpr ⟨c, hc, hcd⟩), le_rfl⟩
      · exact h c hc hint d hcd

end Schedule

/-- `TIMER >= "5x"` is no comparison with an integer, but an event is set up after 5 ms. -/
theorem not_takesEarliest_five_x : scheduleTimerEvents (fun _ _ => false) .empty timerOnly
        (.binary (.leaf timer) .opGE (.leaf (.string "5x"))) ⟨none, false⟩ =
      ⟨some ⟨5000, "Timer M"⟩, false⟩ ∧ ¬TakesEarliest (fun _ _ => false) .empty timerOnly
      (.binary (.leaf timer) .opGE (.leaf (.string "5x"))) ⟨none, false⟩ := by
  have heve : scheduleTimerEvents (fun _ _ => false) .empty timerOnly
      (.binary (.leaf timer) .opGE (.leaf (.string "5x"))) ⟨none, false⟩ =
        ⟨some ⟨5000, "Timer M"⟩, false⟩ := by decide
  refine ⟨heve, fun h => ?_⟩
  have hlea := h.1
  rw [heve] at hlea
  cases hlea

end Clockwork
