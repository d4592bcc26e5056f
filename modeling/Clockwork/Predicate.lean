import Clockwork.Value

namespace Clockwork

inductive PredicateOperator where
  | opNone | opGE | opGT | opLE | opLT | opEQ | opNE | opAND | opOR | opNOT
  | opUnaryMinus | opPlus | opMinus | opTimes | opDivide | opMod | opAssign | opMatch
  | opBitAnd | opBitOr | opBitXOr | opNegate | opAny | opAll | opCount | opIncludes
  | opInteger | opFloat | opAbsoluteValue | opString
deriving DecidableEq, Repr

/-- A predicate tree. The parser builds leaves, nodes with two operands, and nodes
whose `left_p` is null; no constructor call leaves `right_p` of a node null. -/
inductive Predicate (α : Type) where
  | leaf (entry : α)
  | unary (op : PredicateOperator) (right : Predicate α)
  | binary (left : Predicate α) (op : PredicateOperator) (right : Predicate α)
deriving DecidableEq, Repr

namespace Predicate

variable {α : Type}

def hasLeft : Predicate α → Bool
  | .binary _ _ _ => true
  | _ => false

def subtrees : Predicate α → List (Predicate α)
  | .leaf v => [.leaf v]
  | .unary op r => .unary op r :: r.subtrees
  | .binary l op r => .binary l op r :: (l.subtrees ++ r.subtrees)

theorem mem_subtrees_self (p : Predicate α) : p ∈ p.subtrees := by
  cases p <;> simp [subtrees]

def map {β : Type} (f : α → β) : Predicate α → Predicate β
  | .leaf v => .leaf (f v)
  | .unary op r => .unary op (r.map f)
  | .binary l op r => .binary (l.map f) op (r.map f)

def leaves : Predicate α → List α
  | .leaf v => [v]
  | .unary _ r => r.leaves
  | .binary l _ r => l.leaves ++ r.leaves

end Predicate

def Predicate.entry {F : Type} : Predicate (Value F) → Value F
  | .leaf v => v
  | _ => .empty

/-- What the scope of a machine answers while a predicate is evaluated in it. The
machines it can look up are the type `M`. -/
structure Scope (F M : Type) where
  currentStateVal : Value F
  hasState : String → Bool
  resolve : String → Value F
  getValue : String → Value F
  timerVal : Int64
  lookup : String → Option M
  machineHasState : M → String → Bool

def emptyScope : Scope ℚ Unit where
  currentStateVal := .empty
  hasState _ := false
  resolve _ := .empty
  getValue _ := .empty
  timerVal := 0
  lookup _ := none
  machineHasState _ _ := false

end Clockwork
