import Clockwork.Evaluators

namespace Clockwork

open Option

variable {F M : Type}

def twoOperands : PredicateOperator → Bool
  | .opGE | .opGT | .opLE | .opLT | .opEQ | .opNE | .opAND | .opOR => true
  | .opPlus | .opMinus | .opTimes | .opDivide | .opMod => true
  | .opBitAnd | .opBitOr | .opBitXOr | .opMatch => true
  | _ => false

/-- The operators the grammar applies with a null `left_p`. -/
def rightOperandOnly : PredicateOperator → Bool
  | .opNegate | .opInteger | .opFloat | .opString => true
  | _ => false

namespace Predicate

/-- The trees of the grammar whose leaves are literals. `NOT` is a node with two
operands, the left one the integer 0. -/
def LiteralTree : Predicate (Value F) → Prop
  | .leaf v => v.kind ≠ .symbol
  | .unary op r => rightOperandOnly op ∧ r.LiteralTree
  | .binary l op r =>
    (twoOperands op ∨ op = .opNOT ∧ l = .leaf (.integer 0)) ∧ l.LiteralTree ∧ r.LiteralTree

/-- The meaning of an expression over literals: each operator is applied to the
meanings of its operands. -/
def meaning [Double F] (regex : String → String → Bool) : Predicate (Value F) → Option (Value F)
  | .leaf v => some v
  | .unary op r => do
    let b ← r.meaning regex
    stackOp regex op .empty b
  | .binary l op r => do
    let a ← l.meaning regex
    let b ← r.meaning regex
    stackOp regex op a b

/-- Nothing in the tree makes the evaluators differ: no `AS STRING` and no match,
`AS INTEGER` only of a value that converts, bit negation only of the empty value,
and each other operator is defined on the meanings of its operands. -/
def Agreeable [Double F] (regex : String → String → Bool) : Predicate (Value F) → Prop
  | .leaf _ => True
  | .unary op r => r.Agreeable regex ∧ op ≠ .opString ∧ ∀ b, r.meaning regex = some b →
    (op = .opInteger → b.asInteger ≠ none) ∧ (op = .opNegate → b = .empty)
  | .binary l op r => l.Agreeable regex ∧ r.Agreeable regex ∧ op ≠ .opMatch ∧
    ∀ a b, l.meaning regex = some a → r.meaning regex = some b → stackOp regex op a b ≠ none

end Predicate

open Predicate

variable (m : Scope F M)

theorem leafValue_literal (left : Bool) {v : Value F} (hv : v.kind ≠ .symbol) :
    leafValue m left v = v := by
  have h : resolveCacheMiss m left v = v := by
    cases v with
    | symbol s t => exact absurd rfl hv
    | _ => rfl
  rw [leafValue, h, ite_self]

theorem resolveEntry_literal {v : Value F} (hv : v.kind ≠ .symbol) : resolveEntry m v = v := by
  cases v with
  | symbol s t => exact absurd rfl hv
  | _ => rfl

theorem rightOperandOnly_cases {op : PredicateOperator} (h : rightOperandOnly op) :
    op = .opNegate ∨ op = .opInteger ∨ op = .opFloat ∨ op = .opString := by
  cases op <;> simp [rightOperandOnly] at h ⊢

theorem stateComparison_literal (op : PredicateOperator) {l : Predicate (Value F)}
    (r : Predicate (Value F)) (hl : l.LiteralTree) : stateComparison m op l r = (false, false) := by
  unfold stateComparison
  split
  · simp [LiteralTree, Value.kind] at hl
  · rfl

theorem compl_eq_empty_iff (v : Value F) : v.compl = .empty ↔ v = .empty := by
  cases v <;> simp [Value.compl]

variable [Double F] (regex : String → String → Bool)

variable (m : Scope F M) {op : PredicateOperator}

theorem evalOp_eq_stackOp (h : twoOperands op ∨ op = .opNOT) (hm : op ≠ .opMatch) (a b : Value F) :
    evalOp regex op a b = stackOp regex op a b := by
  cases op with
  | opMatch => exact absurd rfl hm
  | opInteger | opString | opAny | opAll | opIncludes | opCount => simp [twoOperands] at h
  | _ => rfl

theorem agreeable_evaluators (left : Bool) {p : Predicate (Value F)} (hp : p.LiteralTree)
    (h : p.Agreeable regex) :
    ∃ v, p.meaning regex = some v ∧ stackValue regex m left false p = some v ∧
      eval regex m p = some v := by
  induction p generalizing left with
  | leaf v =>
    refine ⟨v, rfl, ?_, ?_⟩
    · simp [stackValue, leafValue_literal m left hp]
    · rw [eval, resolveEntry_literal m hp]
  | unary op r ih =>
    obtain ⟨hop, hr⟩ := hp
    obtain ⟨har, hs, hb⟩ := h
    obtain ⟨b, hm, hst, hev⟩ := ih false hr har
    obtain ⟨hint, hneg⟩ := hb b hm
    simp only [meaning, stackValue, eval, hm, hst, hev, bind_eq_bind, bind_some]
    obtain rfl | rfl | rfl | rfl := rightOperandOnly_cases hop
    · -- bit negation is not compiled: the empty value stands in its place
      obtain rfl := hneg rfl
      refine ⟨.empty, rfl, ?_, rfl⟩
      rw [if_neg (by decide), leafValue_literal m left (by simp [Value.kind])]
    · obtain ⟨i, hi⟩ := ne_none_iff_exists'.mp (hint rfl)
      refine ⟨.integer i, ?_, ?_, ?_⟩ <;> simp [compilesUnary, stackOp, evalOp, hi]
    · exact ⟨.float b.toFloat, rfl, rfl, rfl⟩
    · exact absurd rfl hs
  | binary l op r ihl ihr =>
    obtain ⟨hop, hl, hr⟩ := hp
    obtain ⟨hal, har, hne, hdef⟩ := h
    obtain ⟨a, hma, hsa, hea⟩ := ihl true hl hal
    obtain ⟨b, hmb, hsb, heb⟩ := ihr false hr har
    obtain ⟨v, hv⟩ := ne_none_iff_exists'.mp (hdef a b hma hmb)
    have hev := evalOp_eq_stackOp regex (hop.imp_right And.left) hne a b
    refine ⟨v, ?_, ?_, ?_⟩
    · simp [meaning, hma, hmb, hv]
    · simp [stackValue, stateComparison_literal m op r hl, hsa, hsb, hv]
    · simp [eval, hea, heb, hev, hv]

def EvaluatorsAgree (m : Scope F M) (p : Predicate (Value F)) : Prop :=
  ∃ v, evaluate regex m p = some v ∧ eval regex m p = some v

theorem agreeable_of_unary {r : Predicate (Value F)} (hop : rightOperandOnly op)
    (hr : r.LiteralTree) (har : r.Agreeable regex) (h : EvaluatorsAgree regex m (.unary op r)) :
    (Predicate.unary op r).Agreeable regex := by
  obtain ⟨v, hs, he⟩ := h
  obtain ⟨b, hm, hst, hev⟩ := agreeable_evaluators regex m false hr har
  rw [evaluate_eq_stackValue] at hs
  simp only [stackValue, eval, hst, hev, bind_eq_bind, bind_some] at hs he
  refine ⟨har, ?_, ?_⟩
  · rintro rfl
    simp only [compilesUnary, if_true, stackOp, evalOp, some.injEq] at hs he
    exact Value.kind_ofString_ne _ (k := .string) (by decide)
      (congrArg Value.kind (he.trans hs.symm))
  · intro b' hb'
    obtain rfl : b = b' := some.inj (hm.symm.trans hb')
    refine ⟨?_, ?_⟩
    · rintro rfl hnon
      simp [compilesUnary, stackOp, evalOp, hnon] at hs he
      simp [← hs] at he
    · rintro rfl
      simp [compilesUnary, evalOp, leafValue, resolveCacheMiss, Value.isNull] at hs he
      exact (compl_eq_empty_iff b).mp (he.trans hs.symm)

theorem agreeable_of_binary {l r : Predicate (Value F)} (hl : l.LiteralTree) (hr : r.LiteralTree)
    (hal : l.Agreeable regex) (har : r.Agreeable regex)
    (h : EvaluatorsAgree regex m (.binary l op r)) : (Predicate.binary l op r).Agreeable regex := by
  obtain ⟨v, hs, he⟩ := h
  obtain ⟨a, hma, hsa, hea⟩ := agreeable_evaluators regex m true hl hal
  obtain ⟨b, hmb, hsb, heb⟩ := agreeable_evaluators regex m false hr har
  rw [evaluate_eq_stackValue] at hs
  simp only [stackValue, stateComparison_literal m op r hl, eval, hsa, hsb, hea, heb,
    bind_eq_bind, bind_some] at hs he
  refine ⟨hal, har, ?_, ?_⟩
  · rintro rfl
    simp only [stackOp, evalOp, some.injEq] at hs he
    simp [← hs] at he
  · intro a' b' ha' hb'
    obtain rfl : a = a' := some.inj (hma.symm.trans ha')
    obtain rfl : b = b' := some.inj (hmb.symm.trans hb')
    simp [hs]

/-- On a tree over literals, and on every tree below it, the two evaluators agree
exactly when no node of the tree is disputed. -/
theorem evaluators_agree_iff (m : Scope F M) (p : Predicate (Value F)) (hp : p.LiteralTree) :
    (∀ q ∈ p.subtrees, EvaluatorsAgree regex m q) ↔ p.Agreeable regex := by
  induction p with
  | leaf v =>
    obtain ⟨w, -, hs, he⟩ := agreeable_evaluators regex m true hp trivial
    simp only [subtrees, List.mem_singleton, forall_eq, Agreeable, iff_true]
    exact ⟨w, by rw [evaluate_eq_stackValue, hs], he⟩
  | unary op r ih =>
    simp only [subtrees, List.forall_mem_cons]
    constructor
    · rintro ⟨h, hr⟩
      exact agreeable_of_unary regex m hp.1 hp.2 ((ih hp.2).mp hr) h
    · intro h
      obtain ⟨w, -, hs, he⟩ := agreeable_evaluators regex m true hp h
      exact ⟨⟨w, by rw [evaluate_eq_stackValue, hs], he⟩, (ih hp.2).mpr h.1⟩
  | binary l op r ihl ihr =>
    simp only [subtrees, List.forall_mem_cons, List.forall_mem_append]
    constructor
    · rintro ⟨h, hl, hr⟩
      exact agreeable_of_binary regex m hp.2.1 hp.2.2 ((ihl hp.2.1).mp hl) ((ihr hp.2.2).mp hr) h
    · intro h
      obtain ⟨w, -, hs, he⟩ := agreeable_evaluators regex m true hp h
      exact ⟨⟨w, by rw [evaluate_eq_stackValue, hs], he⟩,
        (ihl hp.2.1).mpr h.1, (ihr hp.2.2).mpr h.2.1⟩

theorem evaluators_agree_two_plus_three :
    (Predicate.binary (.leaf (.integer 2)) .opPlus (.leaf (.integer 3))).LiteralTree (F := ℚ) ∧
      ∀ q ∈ (Predicate.binary (.leaf (.integer 2)) .opPlus (.leaf (.integer 3))).subtrees,
        EvaluatorsAgree (fun _ _ => false) emptyScope q := by
  have hp : (Predicate.binary (.leaf (.integer 2)) .opPlus
      (.leaf (.integer 3))).LiteralTree (F := ℚ) := by
    simp [LiteralTree, twoOperands, Value.kind]
  refine ⟨hp, (evaluators_agree_iff (fun _ _ => false) emptyScope _ hp).mpr ?_⟩
  refine ⟨trivial, trivial, by decide, ?_⟩
  rintro _ _ ⟨⟩ ⟨⟩
  decide

/-- `~5` is empty in a condition and -6 in an assignment; `"abc" AS INTEGER` is 0 in
a condition and empty in an assignment. -/
theorem evaluators_disagree :
    evaluate (fun _ _ => false) emptyScope (.unary .opNegate (.leaf (.integer 5))) =
        some .empty ∧ eval (fun _ _ => false) emptyScope (.unary .opNegate (.leaf (.integer 5))) =
        some (.integer (-6)) ∧
      evaluate (fun _ _ => false) emptyScope (.unary .opInteger (.leaf (.string "abc"))) =
        some (.integer 0) ∧
      eval (fun _ _ => false) emptyScope (.unary .opInteger (.leaf (.string "abc"))) =
        some .empty := by
  decide

end Clockwork
