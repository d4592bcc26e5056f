import Clockwork.TimerClauses
import Clockwork.Library.Minimum

namespace Clockwork

open List Option Int64

variable {F : Type}

namespace Predicate

/-- `getTimerValue`, undefined on a node without a left operand: it reads `left_p->entry`. -/
def getTimerValue : Predicate (Value F) → Option (Value F)
  | .binary l _ r =>
    some (if l.entry.isTimer then r.entry else if r.entry.isTimer then l.entry else .empty)
  | _ => none

def isStrict : Predicate (Value F) → Bool
  | .binary _ op _ | .unary op _ => op == .opGT
  | .leaf _ => false

end Predicate

namespace SubconditionTriggers

/-- A subcondition handler, with the parts that decide when it is triggered. -/
structure ConditionHandler (F : Type) where
  usesTimer : Bool
  predicate : Predicate (Value F)

/-- The clause value `v` replaces `timer_val` if it is less, one more for `>`. -/
def consider (node : Predicate (Value F)) (v timerVal : Int64) : Int64 :=
  if v < timerVal then if node.isStrict then v + 1 else v else timerVal

def considerProperty (node : Predicate (Value F)) (property : Value F) (timerVal : Int64) : Int64 :=
  match property with
  | .integer v => if 0 ≤ v then consider node v timerVal else timerVal
  | _ => timerVal

section Setup

variable [Double F] (getValue : String → Value F)

def clauseStep (timerVal : Int64) (node : Predicate (Value F)) : Option Int64 :=
  node.getTimerValue.map fun tv =>
    if tv.eq .empty then timerVal
    else match tv with
      | .symbol s _ | .string s => considerProperty node (getValue s) timerVal
      | .integer v => consider node v timerVal
      | _ => timerVal

def timerVal (p : Predicate (Value F)) : Option Int64 :=
  p.findTimerClauses.foldlM (clauseStep getValue) Int64.maxValue

def handlerStep (stateName currentState : String) (earliestTimer result : Int64)
    (ch : ConditionHandler F) : Option Int64 :=
  if ch.usesTimer && stateName == currentState then
    (timerVal getValue ch.predicate).map fun t =>
      if t < Int64.maxValue ∧ t < earliestTimer then t else result
  else some result

/-- `setupSubconditionTriggers`. The caller's `int64_t` bound and the result pass through
`uint64_t` unchanged. -/
def setupSubconditionTriggers (stateName currentState : String)
    (handlers : List (ConditionHandler F)) (earliestTimer : Int64) : Option Int64 :=
  handlers.foldlM (handlerStep getValue stateName currentState earliestTimer) earliestTimer

end Setup

def propertyValue : Value F → Option (Int64 × Bool)
  | .integer v => some (v, true)
  | _ => none

section Times

variable (getValue : String → Value F) (node : Predicate (Value F))

/-- The integer that a clause compares the timer with, and whether it comes from a property. -/
def clauseValue : Option (Int64 × Bool) :=
  node.getTimerValue.bind fun tv => match tv with
    | .symbol s _ | .string s => propertyValue (getValue s)
    | .integer v => some (v, false)
    | _ => none

def triggerTime (v : Int64) : ℤ :=
  v.toInt + if node.isStrict then 1 else 0

def clauseTime : Option ℤ :=
  (clauseValue getValue node).map fun x => triggerTime node x.1

def isLeftOut : Bool :=
  match clauseValue getValue node with
  | some (v, true) => v < 0
  | _ => false

def countedTime : Option ℤ :=
  if isLeftOut getValue node then none else clauseTime getValue node

def clauseTimes (p : Predicate (Value F)) : List ℤ :=
  p.findTimerClauses.filterMap (clauseTime getValue)

def handlerTime (p : Predicate (Value F)) : Option ℤ :=
  (p.findTimerClauses.filterMap (countedTime getValue)).min?

end Times

def lastBelow (bound : ℤ) (times : List ℤ) : ℤ :=
  ((times.filter (· < bound)).getLast?).getD bound

def timed (handlers : List (ConditionHandler F)) : List (Predicate (Value F)) :=
  (handlers.filter ConditionHandler.usesTimer).map ConditionHandler.predicate

theorem lastBelow_cases (bound : ℤ) (times : List ℤ) : lastBelow bound times = bound ∨
      lastBelow bound times ∈ times ∧ lastBelow bound times < bound := by
  unfold lastBelow
  cases h : (times.filter (· < bound)).getLast? with
  | none => exact .inl rfl
  | some t =>
    have hmem := mem_filter.mp (mem_of_getLast? h)
    exact .inr ⟨hmem.1, by simpa using hmem.2⟩

theorem toInt_consider (node : Predicate (Value F)) (v timerVal : Int64) :
    (consider node v timerVal).toInt = min timerVal.toInt (triggerTime node v) := by
  unfold consider triggerTime
  by_cases hlt : v < timerVal
  · have hlt' := lt_iff_toInt_lt.mp hlt
    by_cases hstr : node.isStrict
    · have hadd : (v + 1).toInt = v.toInt + 1 := by
        have hmax := timerVal.toInt_lt
        have hmin := v.le_toInt
        rw [toInt_add, toInt_one]
        exact Int.bmod_eq_of_le (by omega) (by omega)
      simp only [hlt, hstr, if_true, hadd]
      omega
    · simp only [hlt, hstr, if_true, Bool.false_eq_true, if_false]
      omega
  · have hle := Int64.le_iff_toInt_le.mp (Int64.not_lt.mp hlt)
    split_ifs <;> omega

theorem getTimerValue_eq_none_iff {node : Predicate (Value F)} :
    node.getTimerValue = none ↔ node.hasLeft = false := by
  cases node <;> simp [Predicate.getTimerValue, Predicate.hasLeft]

section Times

variable (getValue : String → Value F) {node : Predicate (Value F)}

theorem toInt_considerProperty {v : Value F}
    (h : clauseValue getValue node = propertyValue v) (timerVal : Int64) :
    some (considerProperty node v timerVal).toInt =
      (timerVal.toInt :: (countedTime getValue node).toList).min? := by
  cases v with
  | integer i =>
    by_cases hneg : i < 0
    · have hnot : ¬0 ≤ i := Int64.not_le.mpr hneg
      simp [considerProperty, countedTime, isLeftOut, h, propertyValue, hneg, hnot]
    · have hpos : 0 ≤ i := Int64.not_lt.mp hneg
      simp [considerProperty, countedTime, clauseTime, isLeftOut, h, propertyValue, hneg, hpos,
        toInt_consider]
  | _ => simp [considerProperty, countedTime, clauseTime, isLeftOut, h, propertyValue]

/-- The times that compete: the bound and those of all the timer clauses of the handlers. -/
def candidates (handlers : List (ConditionHandler F)) (bound : Int64) : List ℤ :=
  bound.toInt :: (timed handlers).flatMap (clauseTimes getValue)

def lastTime (handlers : List (ConditionHandler F)) (bound : Int64) : ℤ :=
  lastBelow bound.toInt ((timed handlers).filterMap (handlerTime getValue))

theorem lastTime_le (handlers : List (ConditionHandler F)) (bound : Int64) :
    lastTime getValue handlers bound ≤ bound.toInt := by
  have hcas := lastBelow_cases bound.toInt ((timed handlers).filterMap (handlerTime getValue))
  unfold lastTime
  omega

theorem countedTime_eq_some {t : ℤ}
    (h : countedTime getValue node = some t) : clauseTime getValue node = some t := by
  unfold countedTime at h
  split_ifs at h
  exact h

variable {p : Predicate (Value F)}

theorem handlerTime_mem {handlers : List (ConditionHandler F)}
    (hp : p ∈ timed handlers) {t : ℤ} (ht : handlerTime getValue p = some t) (bound : Int64) :
    t ∈ candidates getValue handlers bound := by
  obtain ⟨c, hc, hct⟩ := mem_filterMap.mp (min?_eq_some_iff.mp ht).1
  have htim : t ∈ clauseTimes getValue p :=
    mem_filterMap.mpr ⟨c, hc, countedTime_eq_some getValue hct⟩
  exact mem_cons_of_mem _ (mem_flatMap.mpr ⟨p, hp, htim⟩)

theorem lastTime_mem (handlers : List (ConditionHandler F)) (bound : Int64) :
    lastTime getValue handlers bound ∈ candidates getValue handlers bound := by
  unfold lastTime
  rcases lastBelow_cases bound.toInt ((timed handlers).filterMap (handlerTime getValue)) with h | h
  · rw [h]
    exact mem_cons_self
  · obtain ⟨p, hp, hlas⟩ := mem_filterMap.mp h.1
    exact handlerTime_mem getValue hp hlas bound

theorem le_clauseTimes_iff {b : ℤ} :
    (∀ t ∈ clauseTimes getValue p, b ≤ t) ↔ (∀ t, handlerTime getValue p = some t → b ≤ t) ∧
        ∀ c ∈ p.findTimerClauses, isLeftOut getValue c → ∀ t, clauseTime getValue c = some t →
          b ≤ t := by
  constructor
  · intro h
    refine ⟨fun t ht => ?_, fun c hc _ t ht => h t (mem_filterMap.mpr ⟨c, hc, ht⟩)⟩
    obtain ⟨c, hc, hct⟩ := mem_filterMap.mp (min?_eq_some_iff.mp ht).1
    exact h t (mem_filterMap.mpr ⟨c, hc, countedTime_eq_some getValue hct⟩)
  · intro ⟨hcou, hout⟩ t ht
    obtain ⟨c, hc, hct⟩ := mem_filterMap.mp ht
    by_cases hlef : isLeftOut getValue c
    · exact hout c hc hlef t hct
    · have hmem : t ∈ p.findTimerClauses.filterMap (countedTime getValue) :=
        mem_filterMap.mpr ⟨c, hc, by rw [countedTime, if_neg hlef, hct]⟩
      obtain ⟨u, hu⟩ := isSome_iff_exists.mp (isSome_min?_of_mem hmem)
      exact (hcou u hu).trans ((min?_eq_some_iff.mp hu).2 t hmem)

end Times

theorem timed_cons (ch : ConditionHandler F) (handlers : List (ConditionHandler F)) :
    timed (ch :: handlers) =
      if ch.usesTimer then ch.predicate :: timed handlers else timed handlers := by
  unfold timed
  rw [filter_cons]
  split_ifs <;> rfl

section Setup

variable [Double F] (getValue : String → Value F)

theorem clauseStep_spec (timerVal : Int64) {node : Predicate (Value F)} (h : node.hasLeft) :
    ∃ t, clauseStep getValue timerVal node = some t ∧
      some t.toInt = (timerVal.toInt :: (countedTime getValue node).toList).min? := by
  obtain ⟨tv, htv⟩ := ne_none_iff_exists'.mp
    (mt getTimerValue_eq_none_iff.mp (by simp [h] : ¬node.hasLeft = false))
  refine ⟨_, by rw [clauseStep, htv]; rfl, ?_⟩
  cases tv with
  | integer v =>
    simp [countedTime, clauseTime, clauseValue, htv, isLeftOut, Value.eq_empty_iff, toInt_consider]
  | string s =>
    dsimp only
    rw [if_neg (by simp [Value.eq_empty_iff])]
    exact toInt_considerProperty getValue (by simp [clauseValue, htv]) timerVal
  | symbol s t =>
    dsimp only
    rw [if_neg (by simp [Value.eq_empty_iff])]
    exact toInt_considerProperty getValue (by simp [clauseValue, htv]) timerVal
  | _ => simp [countedTime, clauseTime, clauseValue, htv, isLeftOut]

variable {nodes : List (Predicate (Value F))}

theorem foldlM_clauseStep (h : ∀ c ∈ nodes, c.hasLeft)
    (timerVal : Int64) : ∃ t, nodes.foldlM (clauseStep getValue) timerVal = some t ∧
      some t.toInt = (timerVal.toInt :: nodes.filterMap (countedTime getValue)).min? := by
  induction nodes generalizing timerVal with
  | nil => exact ⟨timerVal, rfl, rfl⟩
  | cons node nodes ih =>
    obtain ⟨u, hu, hmin⟩ := clauseStep_spec getValue timerVal (h node mem_cons_self)
    obtain ⟨t, ht, htmi⟩ := ih (fun c hc => h c (mem_cons_of_mem _ hc)) u
    refine ⟨t, by simp [hu, ht], ?_⟩
    have hcon : (node :: nodes).filterMap (countedTime getValue) =
        (countedTime getValue node).toList ++ nodes.filterMap (countedTime getValue) := by
      cases hc : countedTime getValue node <;> simp [hc]
    rw [htmi, hcon, ← cons_append, ← singleton_append]
    exact Minimum.min?_append_congr hmin rfl

theorem foldlM_clauseStep_eq_none (h : ∃ c ∈ nodes, c.hasLeft = false) (timerVal : Int64) :
    nodes.foldlM (clauseStep getValue) timerVal = none := by
  induction nodes generalizing timerVal with
  | nil => simp at h
  | cons node nodes ih =>
    cases hnod : node.hasLeft with
    | false => simp [clauseStep, getTimerValue_eq_none_iff.mpr hnod]
    | true =>
      obtain ⟨u, hu, -⟩ := clauseStep_spec getValue timerVal hnod
      have hres : ∃ c ∈ nodes, c.hasLeft = false := by simpa [hnod] using h
      simp [hu, ih hres]

/-- The two operands of every timer clause of the condition are there. -/
def Defined (p : Predicate (Value F)) : Prop := ∀ c ∈ p.findTimerClauses, c.hasLeft

theorem timerVal_eq_none {p : Predicate (Value F)} (h : ¬Defined p) :
    timerVal getValue p = none := by
  refine foldlM_clauseStep_eq_none getValue ?_ maxValue
  simpa [Defined] using h

variable {ch : ConditionHandler F}

/-- A time below the bound is below the greatest `long` as well, so the first test of the two adds
nothing. -/
theorem handlerStep_spec (state : String) (bound result : Int64)
    (huse : ch.usesTimer) (h : Defined ch.predicate) :
    ∃ r, handlerStep getValue state state bound result ch = some r ∧ r.toInt =
        ((handlerTime getValue ch.predicate).filter (· < bound.toInt)).getD result.toInt := by
  obtain ⟨t, ht, hmin⟩ := foldlM_clauseStep getValue h maxValue
  obtain ⟨hmem, hle⟩ := min?_eq_some_iff.mp hmin.symm
  have hmax : bound.toInt ≤ maxValue.toInt :=
    le_iff_toInt_le.mp (le_maxValue _)
  have hste : handlerStep getValue state state bound result ch =
      some (if t < maxValue ∧ t < bound then t else result) := by
    simp [handlerStep, huse, timerVal, ht]
  refine ⟨_, hste, ?_⟩
  by_cases hbou : t < bound
  · have hlt := lt_iff_toInt_lt.mp hbou
    have hmos : t < maxValue := lt_iff_toInt_lt.mpr (by omega)
    have hcou := (mem_cons.mp hmem).resolve_left (by omega)
    have htim : handlerTime getValue ch.predicate = some t.toInt :=
      min?_eq_some_iff.mpr ⟨hcou, fun u hu => hle u (mem_cons_of_mem _ hu)⟩
    rw [if_pos ⟨hmos, hbou⟩]
    simp [htim, hlt, Option.filter]
  · have hle' := Int64.le_iff_toInt_le.mp (Int64.not_lt.mp hbou)
    rw [if_neg (fun h => hbou h.2)]
    cases htim : handlerTime getValue ch.predicate with
    | none => rfl
    | some u =>
      have hu := hle u (mem_cons_of_mem _ (min?_eq_some_iff.mp htim).1)
      have hnot : ¬u < bound.toInt := by omega
      simp [hnot, Option.filter]

theorem handlerStep_of_not_usesTimer {state : String} {bound result : Int64}
    (h : ch.usesTimer = false) :
    handlerStep getValue state state bound result ch = some result := by
  simp [handlerStep, h]

variable {handlers : List (ConditionHandler F)}

theorem foldlM_handlerStep (state : String) {bound : Int64}
    (h : ∀ p ∈ timed handlers, Defined p) (result : Int64) :
    ∃ r, handlers.foldlM (handlerStep getValue state state bound) result = some r ∧ r.toInt =
        ((((timed handlers).filterMap (handlerTime getValue)).filter
          (· < bound.toInt)).getLast?).getD result.toInt := by
  induction handlers generalizing result with
  | nil => exact ⟨result, rfl, rfl⟩
  | cons ch handlers ih =>
    rw [timed_cons] at h ⊢
    cases huse : ch.usesTimer with
    | false =>
      rw [huse] at h
      obtain ⟨r, hr, hlas⟩ := ih h result
      exact ⟨r, by simp [handlerStep_of_not_usesTimer getValue huse, hr], hlas⟩
    | true =>
      rw [huse] at h
      obtain ⟨u, hu, huva⟩ :=
        handlerStep_spec getValue state bound result huse (h _ mem_cons_self)
      obtain ⟨r, hr, hlas⟩ := ih (fun p hp => h p (mem_cons_of_mem _ hp)) u
      refine ⟨r, by simp [hu, hr], ?_⟩
      rw [hlas, huva, if_pos rfl]
      cases htim : handlerTime getValue ch.predicate with
      | none => simp [htim]
      | some u =>
        by_cases hlt : u < bound.toInt
        · simp [htim, hlt, Option.filter, getLast?_cons]
        · simp [htim, hlt, Option.filter]

theorem foldlM_handlerStep_eq_none {state : String} {bound : Int64}
    (h : ∃ p ∈ timed handlers, ¬Defined p) (result : Int64) :
    handlers.foldlM (handlerStep getValue state state bound) result = none := by
  induction handlers generalizing result with
  | nil => simp [timed] at h
  | cons ch handlers ih =>
    rw [timed_cons] at h
    cases huse : ch.usesTimer with
    | false =>
      rw [huse] at h
      simp [handlerStep_of_not_usesTimer getValue huse, ih h]
    | true =>
      rw [huse] at h
      by_cases hdef : Defined ch.predicate
      · obtain ⟨u, hu, -⟩ :=
          handlerStep_spec getValue state bound result huse hdef
        have hres : ∃ p ∈ timed handlers, ¬Defined p := by simpa [hdef] using h
        simp [hu, ih hres]
      · simp [handlerStep, huse, timerVal_eq_none getValue hdef]

theorem setupSubconditionTriggers_of_ne {stateName currentState : String}
    (h : stateName ≠ currentState) (handlers : List (ConditionHandler F)) (bound : Int64) :
    setupSubconditionTriggers getValue stateName currentState handlers bound = some bound := by
  have hste : handlerStep getValue stateName currentState bound =
      fun result (_ : ConditionHandler F) => some result := by
    funext result ch
    simp [handlerStep, h]
  unfold setupSubconditionTriggers
  rw [hste]
  induction handlers with
  | nil => rfl
  | cons ch handlers ih => exact ih

/-- The earliest candidate is returned for the current state, and the bound for another one. -/
def ReturnsEarliest (stateName currentState : String) (handlers : List (ConditionHandler F))
    (bound : Int64) : Prop :=
  (stateName = currentState →
    ∃ r, setupSubconditionTriggers getValue stateName currentState handlers bound = some r ∧
      (candidates getValue handlers bound).min? = some r.toInt) ∧
  (stateName ≠ currentState →
    setupSubconditionTriggers getValue stateName currentState handlers bound = some bound)

/-- For the current state the last handler below the bound must be the earliest, no property of a
clause left out may be below it, and every timer clause must have two operands. -/
theorem returnsEarliest_iff (stateName currentState : String)
    (handlers : List (ConditionHandler F)) (bound : Int64) :
    ReturnsEarliest getValue stateName currentState handlers bound ↔
      (stateName = currentState → ∀ p ∈ timed handlers, Defined p ∧
          (∀ t, handlerTime getValue p = some t → lastTime getValue handlers bound ≤ t) ∧
          ∀ c ∈ p.findTimerClauses, isLeftOut getValue c → ∀ t, clauseTime getValue c = some t →
            lastTime getValue handlers bound ≤ t) := by
  unfold ReturnsEarliest
  rw [and_iff_left fun h => setupSubconditionTriggers_of_ne getValue h handlers bound]
  refine forall_congr' fun heq => ?_
  subst heq
  by_cases hdef : ∀ p ∈ timed handlers, Defined p
  · obtain ⟨r, hr, hlas⟩ := foldlM_handlerStep getValue stateName hdef bound
    have hres : setupSubconditionTriggers getValue stateName stateName handlers bound = some r :=
      hr
    have hlas : r.toInt = lastTime getValue handlers bound := hlas
    simp only [hres, some.injEq, exists_eq_left', hlas, min?_eq_some_iff, lastTime_mem, true_and]
    simp only [candidates, forall_mem_cons, lastTime_le, true_and, forall_mem_flatMap,
      le_clauseTimes_iff]
    exact forall₂_congr fun p hp => (and_iff_right (hdef p hp)).symm
  · have hnon : setupSubconditionTriggers getValue stateName stateName handlers bound = none :=
      foldlM_handlerStep_eq_none getValue (by simpa using hdef) bound
    refine iff_of_false ?_ fun h => hdef fun p hp => (h p hp).1
    rw [hnon]
    simp

end Setup

def handlerFrom (n : Int64) : ConditionHandler ℚ :=
  ⟨true, .binary (.leaf (.symbol "TIMER" (some "TIMER"))) .opGE (.leaf (.integer n))⟩

/-- With handlers at 3 and 5 and the bound 10, the later one is returned. -/
theorem three_before_five_not_earliest :
    setupSubconditionTriggers (fun _ => .empty) "busy" "busy" [handlerFrom 3, handlerFrom 5] 10 =
      some 5 ∧
    ¬ReturnsEarliest (fun _ => .empty) "busy" "busy" [handlerFrom 3, handlerFrom 5] 10 := by
  have hfiv : setupSubconditionTriggers (fun _ => .empty) "busy" "busy"
      [handlerFrom 3, handlerFrom 5] 10 = some 5 := by decide
  refine ⟨hfiv, fun h => ?_⟩
  obtain ⟨r, hr, hlea⟩ := h.1 rfl
  cases hr
  cases hlea

end SubconditionTriggers

end Clockwork
