import Clockwork.Predicate

namespace Clockwork

open List

variable {F : Type}

def endsWithTimer (s : String) : Bool := ".TIMER".toList.isSuffixOf s.toList

def Value.isOwnTimer : Value F → Bool
  | .symbol _ t => t == some "TIMER"
  | _ => false

/-- The test of an entry for a timer: the machine's own one, or another machine's. -/
def Value.isTimer : Value F → Bool
  | .symbol s t => t == some "TIMER" || endsWithTimer s
  | _ => false

namespace Predicate

/-- `usesTimer`: what it returns and what it leaves in `timer_val`. -/
def usesTimer : Predicate (Value F) → Value F → Bool × Value F
  | .binary l _ r, timerVal =>
    if l.hasLeft then
      let inLeft := l.usesTimer timerVal
      if inLeft.1 then inLeft else r.usesTimer inLeft.2
    else if l.entry.isTimer then (true, r.entry)
    else (false, timerVal)
  | p, timerVal => (p.entry.isOwnTimer, timerVal)

def findTimerClauses : Predicate (Value F) → List (Predicate (Value F))
  | .leaf _ => []
  | .unary op r =>
    if r.hasLeft then r.findTimerClauses
    else if r.entry.isTimer then [.unary op r] else []
  | .binary l op r =>
    (if l.hasLeft then l.findTimerClauses
      else if l.entry.isTimer then [.binary l op r] else []) ++
    (if r.hasLeft then r.findTimerClauses
      else if r.entry.isTimer then [.binary l op r] else [])

def isTimerLeaf : Predicate (Value F) → Bool
  | .leaf v => v.isTimer
  | _ => false

def isTimerClause : Predicate (Value F) → Bool
  | .leaf _ => false
  | .unary _ r => r.isTimerLeaf
  | .binary l _ r => l.isTimerLeaf || r.isTimerLeaf

/-- Some node has a leaf operand that names a timer. -/
def HasTimerOperand (p : Predicate (Value F)) : Prop := ∃ q ∈ p.subtrees, q.isTimerClause

/-- A timer that `usesTimer` comes by: it is the left operand of a node, or a right
operand that is the machine's own timer, and from the root down to that node every
left operand passed has two operands itself. -/
inductive Exposed : Predicate (Value F) → Prop
  | left {v : Value F} (op : PredicateOperator) (r : Predicate (Value F)) (h : v.isTimer) :
      Exposed (.binary (.leaf v) op r)
  | right {l : Predicate (Value F)} (op : PredicateOperator) {v : Value F} (hl : l.hasLeft)
      (h : v.isOwnTimer) : Exposed (.binary l op (.leaf v))
  | belowLeft {l : Predicate (Value F)} (op : PredicateOperator) (r : Predicate (Value F))
      (hl : l.hasLeft) (h : Exposed l) : Exposed (.binary l op r)
  | belowRight {l : Predicate (Value F)} (op : PredicateOperator) {r : Predicate (Value F)}
      (hl : l.hasLeft) (h : Exposed r) : Exposed (.binary l op r)

end Predicate

open Predicate

theorem Value.isTimer_of_isOwnTimer {v : Value F} (h : v.isOwnTimer) : v.isTimer := by
  cases v <;> simp_all [Value.isOwnTimer, Value.isTimer]

variable (p : Predicate (Value F))

theorem isTimer_entry : p.entry.isTimer = p.isTimerLeaf := by
  cases p <;> rfl

variable {p : Predicate (Value F)}

theorem Predicate.Exposed.hasLeft (h : Exposed p) : p.hasLeft := by
  cases h <;> rfl

theorem exposed_binary_iff (l : Predicate (Value F)) (op : PredicateOperator)
    (r : Predicate (Value F)) : Exposed (.binary l op r) ↔
      if l.hasLeft then Exposed l ∨ Exposed r ∨ ∃ v, r = .leaf v ∧ v.isOwnTimer
      else l.isTimerLeaf := by
  split_ifs with hl
  · constructor
    · intro h
      cases h with
      | left _ _ _ => cases hl
      | right _ _ hv => exact .inr (.inr ⟨_, rfl, hv⟩)
      | belowLeft _ _ _ h => exact .inl h
      | belowRight _ _ h => exact .inr (.inl h)
    · rintro (h | h | ⟨v, rfl, hv⟩)
      · exact .belowLeft op r hl h
      · exact .belowRight op hl h
      · exact .right op hl hv
  · constructor
    · intro h
      cases h with
      | left _ _ hv => exact hv
      | _ => contradiction
    · intro ht
      cases l with
      | leaf v => exact .left op r ht
      | _ => cases ht

theorem usesTimer_iff (timerVal : Value F) :
    (p.usesTimer timerVal).1 ↔ Exposed p ∨ ∃ v, p = .leaf v ∧ v.isOwnTimer := by
  induction p generalizing timerVal with
  | leaf v =>
    constructor
    · intro h
      exact .inr ⟨v, rfl, h⟩
    · rintro (h | ⟨w, hw, h⟩)
      · cases h
      · cases hw
        exact h
  | unary op r _ =>
    constructor
    · intro h
      simp [usesTimer, Predicate.entry, Value.isOwnTimer] at h
    · rintro (h | ⟨w, hw, h⟩)
      · cases h
      · cases hw
  | binary l op r ihl ihr =>
    have hnod : ¬∃ v, Predicate.binary l op r = .leaf v ∧ v.isOwnTimer := by
      rintro ⟨v, hv, -⟩
      cases hv
    rw [or_iff_left hnod, exposed_binary_iff]
    by_cases hl : l.hasLeft
    -- the walk goes down on the left first and only then on the right
    · have hlef : (l.usesTimer timerVal).1 ↔ Exposed l := by
        rw [ihl, or_iff_left]
        rintro ⟨v, rfl, -⟩
        cases hl
      simp only [usesTimer, hl, if_true]
      split_ifs with hlt
      · exact iff_of_true hlt (.inl (hlef.mp hlt))
      · rw [ihr, or_iff_right fun h => hlt (hlef.mpr h)]
    -- a left operand without left part of its own is looked at directly
    · rw [usesTimer, if_neg hl, isTimer_entry]
      split_ifs with ht <;> simp [ht]

theorem mem_findTimerClauses {p q : Predicate (Value F)} (h : q ∈ p.findTimerClauses) :
    q ∈ p.subtrees ∧ q.isTimerClause := by
  induction p with
  | leaf v => cases h
  | unary op r ih =>
    simp only [findTimerClauses, isTimer_entry] at h
    split_ifs at h with hr ht
    · exact ⟨mem_cons_of_mem _ (ih h).1, (ih h).2⟩
    · obtain rfl := mem_singleton.mp h
      exact ⟨mem_subtrees_self _, ht⟩
    · cases h
  | binary l op r ihl ihr =>
    simp only [findTimerClauses, isTimer_entry, mem_append] at h
    rcases h with h | h
    · split_ifs at h with hl ht
      · exact ⟨mem_cons_of_mem _ (mem_append_left _ (ihl h).1), (ihl h).2⟩
      · obtain rfl := mem_singleton.mp h
        exact ⟨mem_subtrees_self _, by simp [isTimerClause, ht]⟩
      · cases h
    · split_ifs at h with hr ht
      · exact ⟨mem_cons_of_mem _ (mem_append_right _ (ihr h).1), (ihr h).2⟩
      · obtain rfl := mem_singleton.mp h
        exact ⟨mem_subtrees_self _, by simp [isTimerClause, ht]⟩
      · cases h

theorem findTimerClauses_of_exposed (h : Exposed p) : p.findTimerClauses ≠ [] := by
  induction h with
  | left op r h => simp [findTimerClauses, hasLeft, Predicate.entry, h]
  | right op hl h =>
    simp [findTimerClauses, hasLeft, Predicate.entry, Value.isTimer_of_isOwnTimer h]
  | belowLeft op r hl _ ih => simp [findTimerClauses, hl, ih]
  | belowRight op hl h ih => simp [findTimerClauses, h.hasLeft, ih]

/-- Detection and collection of timers agree with each other and with the tree. -/
def TimersAgree (p : Predicate (Value F)) (timerVal : Value F) : Prop :=
  ((p.usesTimer timerVal).1 ↔ p.findTimerClauses ≠ []) ∧
    ((p.usesTimer timerVal).1 ↔ HasTimerOperand p)

/-- They agree exactly on the trees that are not the bare symbol `TIMER` and whose
timer operands, if there are any, include an exposed one. -/
theorem timersAgree_iff (p : Predicate (Value F)) (timerVal : Value F) : TimersAgree p timerVal ↔
      (∀ v, p = .leaf v → ¬v.isOwnTimer) ∧ (HasTimerOperand p → Exposed p) := by
  have found : p.findTimerClauses ≠ [] → HasTimerOperand p := by
    intro h
    obtain ⟨q, hq⟩ := exists_mem_of_ne_nil _ h
    exact ⟨q, mem_findTimerClauses hq⟩
  unfold TimersAgree
  rw [usesTimer_iff]
  constructor
  · rintro ⟨-, hh⟩
    have hbar : ∀ v, p = .leaf v → ¬v.isOwnTimer := by
      rintro v rfl hv
      obtain ⟨q, hq, hc⟩ := hh.mp (.inr ⟨v, rfl, hv⟩)
      obtain rfl := mem_singleton.mp hq
      cases hc
    refine ⟨hbar, fun h => (hh.mpr h).resolve_right ?_⟩
    rintro ⟨v, hp, hv⟩
    exact hbar v hp hv
  · rintro ⟨hbar, hexp⟩
    have hno : ¬∃ v, p = .leaf v ∧ v.isOwnTimer := fun ⟨v, hp, hv⟩ => hbar v hp hv
    refine ⟨⟨fun h => findTimerClauses_of_exposed (h.resolve_right hno),
      fun h => .inl (hexp (found h))⟩, ⟨fun h => ?_, fun h => .inl (hexp h)⟩⟩
    exact found (findTimerClauses_of_exposed (h.resolve_right hno))

/-- `NOT TIMER >= 10` holds a timer that is collected and not detected. -/
theorem timersAgree_fails_under_not : ((Predicate.binary (.leaf (.integer 0)) .opNOT
        (.binary (.leaf (.symbol "TIMER" (some "TIMER"))) .opGE (.leaf (.integer 10)))).usesTimer
          (.empty : Value ℚ)).1 = false ∧ (Predicate.binary (.leaf (.integer 0)) .opNOT
        (.binary (.leaf (.symbol "TIMER" (some "TIMER"))) .opGE
          (.leaf (.integer 10 : Value ℚ)))).findTimerClauses =
        [.binary (.leaf (.symbol "TIMER" (some "TIMER"))) .opGE (.leaf (.integer 10))] := by
  decide

end Clockwork
