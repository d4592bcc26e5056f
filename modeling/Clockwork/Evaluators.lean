import Clockwork.Predicate

namespace Clockwork

open Option

variable {F M : Type}

inductive ExprNode (F : Type) where
  | op (o : PredicateOperator)
  | val (v : Value F)
deriving DecidableEq, Repr

def resolveCacheMiss (m : Scope F M) (left : Bool) (v : Value F) : Value F :=
  match v with
  | .symbol s _ =>
    if left && s == "DEFAULT" then .bool true
    else if s = "SELF" then m.currentStateVal
    else if s = "TRUE" then .bool true
    else if s = "FALSE" then .bool false
    else if m.hasState s then v
    else if (m.resolve s).isNull then v
    else m.resolve s
  | v => v

/-- The value `prep` pushes for a leaf: what it resolves to, or its entry when
that is null. -/
def leafValue (m : Scope F M) (left : Bool) (v : Value F) : Value F :=
  if (resolveCacheMiss m left v).isNull then v else resolveCacheMiss m left v

/-- The state comparison at the start of `prep`: of two symbols joined by `==` or
`!=`, one names a machine and the other one of its states and no machine. Tells
for the left and the right leaf whether its entry becomes a string. -/
def stateComparison (m : Scope F M) (op : PredicateOperator) (l r : Predicate (Value F)) :
    Bool × Bool :=
  match l, r with
  | .leaf (.symbol ls _), .leaf (.symbol rs _) =>
    if op = .opEQ ∨ op = .opNE then
      match m.lookup ls, m.lookup rs with
      | some lhm, none => (false, m.machineHasState lhm rs)
      | none, some rhm => (m.machineHasState rhm ls, false)
      | _, _ => (false, false)
    else (false, false)
  | _, _ => (false, false)

def compilesUnary : PredicateOperator → Bool
  | .opNOT | .opInteger | .opFloat | .opString => true
  | _ => false

/-- `prep`: pushes the code of a tree on the stack; `state` tells that the entry of
the tree was made a string by the comparison above it. A node without left operand
and with an operator not listed is pushed like a leaf, with its empty entry. -/
def prep (m : Scope F M) (left state : Bool) :
    Predicate (Value F) → List (ExprNode F) → List (ExprNode F)
  | .leaf v, st => .val (leafValue m left (if state then v.toStringKind else v)) :: st
  | .unary op r, st =>
    if compilesUnary op then .op op :: prep m false false r (.val (.bool true) :: st)
    else .val (leafValue m left .empty) :: st
  | .binary l op r, st =>
    .op op :: prep m false (stateComparison m op l r).2 r
      (prep m true (stateComparison m op l r).1 l st)

theorem prep_eq_append (m : Scope F M) (left state : Bool) (p : Predicate (Value F))
    (st : List (ExprNode F)) : prep m left state p st = prep m left state p [] ++ st := by
  induction p generalizing left state st with
  | leaf v => rfl
  | unary op r ih =>
    simp only [prep]
    split_ifs
    · rw [ih, ih _ _ [.val (.bool true)]]
      simp
    · rfl
  | binary l op r ihl ihr =>
    simp only [prep]
    rw [ihr, ihl, ihr _ _ (prep m true _ l [])]
    simp

variable [Double F] (regex : String → String → Bool)

/-- The operator switch of `eval_stack`; `matches` is the regular expression test. -/
def stackOp (o : PredicateOperator) (lhs rhs : Value F) : Option (Value F) :=
  match o with
  | .opGE => some (.bool (lhs.ge rhs))
  | .opGT => some (.bool (lhs.gt rhs))
  | .opLE => some (.bool (lhs.le rhs))
  | .opLT => some (.bool (lhs.lt rhs))
  | .opEQ => some (.bool (lhs.eq rhs))
  | .opNE => some (.bool (lhs.ne rhs))
  | .opAND => (lhs.and rhs).map .bool
  | .opOR => (lhs.or rhs).map .bool
  | .opNOT => some (.bool rhs.not)
  | .opUnaryMinus => some rhs.neg
  | .opPlus => lhs.add rhs
  | .opMinus => lhs.sub rhs
  | .opTimes => lhs.mul rhs
  | .opDivide => lhs.div rhs
  | .opAbsoluteValue => some (if rhs.lt (.integer 0) then rhs.neg else rhs)
  | .opMod => lhs.mod rhs
  | .opBitAnd => lhs.bitAnd rhs
  | .opBitOr => lhs.bitOr rhs
  | .opNegate => some rhs.compl
  | .opBitXOr => lhs.bitXor rhs
  | .opInteger => some (.integer (rhs.asInteger.getD 0))
  | .opFloat => some (.float rhs.toFloat)
  | .opString => some (.string rhs.asString)
  | .opAssign => some rhs
  | .opMatch => some (.bool (regex lhs.asString rhs.asString))
  | .opAny | .opCount | .opAll | .opIncludes => some lhs
  | .opNone => some (.integer 0)

/-- `eval_stack`: the value on top of the stack and what is left below it. Each call
consumes one node, so the length of the stack is fuel enough; `none` is a read
past the end of the stack or an operator without a defined result. -/
def evalStack (regex : String → String → Bool) :
    ℕ → List (ExprNode F) → Option (Value F × List (ExprNode F))
  | 0, _ => none
  | _ + 1, [] => none
  | _ + 1, .val v :: st => some (v, st)
  | n + 1, .op o :: st => do
    let b ← evalStack regex n st
    let a ← evalStack regex n b.2
    let v ← stackOp regex o a.1 b.1
    return (v, a.2)

def evaluate (m : Scope F M) (p : Predicate (Value F)) : Option (Value F) :=
  (evalStack regex (prep m true false p []).length (prep m true false p [])).map Prod.fst

/-- What `Condition::operator()` returns for a value: one that is not boolean is false. -/
def Value.truth : Value F → Bool
  | .bool b => b
  | _ => false

/-- `resolve(Predicate *, MachineInstance *)` of the assignment evaluator. -/
def resolveEntry (m : Scope F M) : Value F → Value F
  | .symbol s t =>
    if s = "TIMER" then .integer m.timerVal
    else if (m.getValue s).isNull then .symbol s t
    else m.getValue s
  | v => v

/-- The operator switch of `eval`. `matches` returns an `int` there, and a value
that is left unassigned is the empty one. -/
def evalOp (o : PredicateOperator) (l r : Value F) : Option (Value F) :=
  match o with
  | .opGE => some (.bool (l.ge r))
  | .opGT => some (.bool (l.gt r))
  | .opLE => some (.bool (l.le r))
  | .opLT => some (.bool (l.lt r))
  | .opEQ => some (.bool (l.eq r))
  | .opNE => some (.bool (l.ne r))
  | .opAND => (l.and r).map .bool
  | .opOR => (l.or r).map .bool
  | .opNOT => some (.bool r.not)
  | .opUnaryMinus => some r.neg
  | .opPlus => l.add r
  | .opMinus => l.sub r
  | .opTimes => l.mul r
  | .opDivide => l.div r
  | .opAbsoluteValue => some (if r.lt (.integer 0) then r.neg else r)
  | .opMod => l.mod r
  | .opBitAnd => l.bitAnd r
  | .opBitOr => l.bitOr r
  | .opBitXOr => l.bitXor r
  | .opNegate => some r.compl
  | .opInteger => some (match r.asInteger with
    | some i => .integer i
    | none => .empty)
  | .opFloat => some (.float r.toFloat)
  | .opString => some (Value.ofString r.asString)
  | .opAssign => some r
  | .opMatch => some (.integer (if regex l.asString r.asString then 1 else 0))
  | .opAny | .opAll | .opIncludes | .opCount => some .empty
  | .opNone => some (.integer 0)

/-- `eval`: a missing left operand is the empty value. -/
def eval (regex : String → String → Bool) (m : Scope F M) :
    Predicate (Value F) → Option (Value F)
  | .leaf v => some (resolveEntry m v)
  | .unary op r => do
    let b ← eval regex m r
    evalOp regex op .empty b
  | .binary l op r => do
    let a ← eval regex m l
    let b ← eval regex m r
    evalOp regex op a b

def stackValue (regex : String → String → Bool) (m : Scope F M) (left state : Bool) :
    Predicate (Value F) → Option (Value F)
  | .leaf v => some (leafValue m left (if state then v.toStringKind else v))
  | .unary op r =>
    if compilesUnary op then do
      let b ← stackValue regex m false false r
      stackOp regex op (.bool true) b
    else some (leafValue m left .empty)
  | .binary l op r => do
    let b ← stackValue regex m false (stateComparison m op l r).2 r
    let a ← stackValue regex m true (stateComparison m op l r).1 l
    stackOp regex op a b

variable (regex : String → String → Bool) (m : Scope F M)

theorem evalStack_val (n : ℕ) (v : Value F) (st : List (ExprNode F)) (h : 0 < n) :
    evalStack regex n (.val v :: st) = some (v, st) := by
  obtain ⟨k, rfl⟩ := Nat.exists_eq_succ_of_ne_zero h.ne'
  rfl

theorem evalStack_prep (left state : Bool) (p : Predicate (Value F)) (st : List (ExprNode F))
    (n : ℕ) (hn : (prep m left state p []).length ≤ n) :
    evalStack regex n (prep m left state p st) =
      (stackValue regex m left state p).map fun v => (v, st) := by
  -- induction on the tree, for every stack below its result
  induction p generalizing left state st n with
  | leaf v => exact evalStack_val regex n _ st (by simp [prep] at hn; omega)
  | unary op r ih =>
    simp only [prep, stackValue] at hn ⊢
    split_ifs at hn ⊢ with h
    · rw [prep_eq_append, List.length_cons, List.length_append] at hn
      obtain ⟨k, rfl⟩ : ∃ k, n = k + 1 := ⟨n - 1, by omega⟩
      rw [evalStack, ih _ _ _ k (by omega)]
      cases hr : stackValue regex m false false r with
      | none => rfl
      | some b =>
        simp only [map_some, bind_eq_bind, bind_some]
        rw [evalStack_val regex k _ st (by simp at hn; omega)]
        simp [map_eq_bind]
    · exact evalStack_val regex n _ st (by simp at hn; omega)
  | binary l op r ihl ihr =>
    simp only [prep, stackValue] at hn ⊢
    rw [prep_eq_append, List.length_cons, List.length_append] at hn
    obtain ⟨k, rfl⟩ : ∃ k, n = k + 1 := ⟨n - 1, by omega⟩
    rw [evalStack, ihr _ _ _ k (by omega)]
    cases hr : stackValue regex m false (stateComparison m op l r).2 r with
    | none => rfl
    | some b =>
      simp only [map_some, bind_eq_bind, bind_some]
      rw [ihl _ _ _ k (by omega)]
      cases hl : stackValue regex m true (stateComparison m op l r).1 l with
      | none => rfl
      | some a =>
        simp only [map_some, bind_some]
        simp [map_eq_bind]

theorem evaluate_eq_stackValue (p : Predicate (Value F)) :
    evaluate regex m p = stackValue regex m true false p := by
  rw [evaluate, evalStack_prep regex m true false p [] _ le_rfl, map_map]
  exact map_id'

end Clockwork
