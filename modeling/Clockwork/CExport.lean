import Clockwork.Library.CExpression
import Clockwork.Evaluators

namespace Clockwork.CExport

open List CExpression

open CExpression (Access Expr Operand Operator Path isWordChar literal ofBool)

variable {F M : Type}

/-- `operator<<` of `PredicateOperator`; the case of `opString` runs into the next one. -/
def operatorText : PredicateOperator → List Char
  | .opNone => "None".toList
  | .opGE => ['>', '=']
  | .opGT => ['>']
  | .opLE => ['<', '=']
  | .opLT => ['<']
  | .opEQ => ['=', '=']
  | .opNE => ['!', '=']
  | .opAND => "AND".toList
  | .opOR => "OR".toList
  | .opNOT => "NOT".toList
  | .opUnaryMinus => ['-']
  | .opPlus => ['+']
  | .opMinus => ['-']
  | .opTimes => ['*']
  | .opDivide => ['/']
  | .opAbsoluteValue => "ABS".toList
  | .opMod => ['%']
  | .opAssign => [':', '=']
  | .opMatch => ['~']
  | .opBitAnd => ['&']
  | .opBitOr => ['|']
  | .opNegate => ['~']
  | .opBitXOr => ['^']
  | .opInteger => "AS INTEGER".toList
  | .opFloat => "AS FLOAT".toList
  | .opString => "ANY".toList
  | .opAny => "ANY".toList
  | .opAll => "ALL".toList
  | .opCount => "COUNT".toList
  | .opIncludes => "INCLUDES".toList

def operatorToC : PredicateOperator → List Char
  | .opAND => ['&', '&']
  | .opOR => ['|', '|']
  | .opNOT => ['!']
  | .opAssign => ['=']
  | op => operatorText op

structure ExportState where
  canBlock : Bool
  exportName : String → Option String

namespace ExportState

variable (x : ExportState)

def variablePrefix : List Char :=
  if x.canBlock then ['c', 't', 'x', '-', '>', 'v', '-', '>', 'l', '_']
  else ['v', '-', '>', 'l', '_']

def nameOf (s : String) : List Char := ((x.exportName s).getD s).toList

end ExportState

section ToC

variable (x : ExportState) (streamFloat : F → List Char)

def symbolToC (s : String) : List Char :=
  if s = "TIMER" then
    ['m', '-', '>', 'm', 'a', 'c', 'h', 'i', 'n', 'e', '.', 'T', 'I', 'M', 'E', 'R']
  else x.variablePrefix ++ x.nameOf s

/-- The text of a predicate without left operand. How a `double` is printed is left open. -/
def entryToC : Value F → List Char
  | .symbol s _ => symbolToC x s
  | .empty => ['(', 'e', 'm', 'p', 't', 'y', ')']
  | .integer i => (toString i.toInt).toList
  | .float f => streamFloat f
  | .string s => '"' :: (s.toList ++ ['"'])
  | .bool b => if b then "true".toList else "false".toList

def ignoresLeft : PredicateOperator → Bool
  | .opNOT | .opInteger | .opFloat => true
  | _ => false

def toC : Predicate (Value F) → List Char
  | .leaf v => entryToC x streamFloat v
  | .unary _ _ => entryToC x streamFloat .empty
  | .binary l op r =>
    (if op = .opAssign then [] else ['(']) ++ (if ignoresLeft op then [] else toC l) ++
      ' ' :: (operatorToC op ++ ' ' :: (toC r ++ if op = .opAssign then [] else [')']))

end ToC

/-- The operator that the grammar joins two expressions with. `NOT GE` and its like are read as the
opposite comparison. -/
def predicateOperator : Operator → PredicateOperator
  | .lor => .opOR
  | .land => .opAND
  | .bor => .opBitOr
  | .bxor => .opBitXOr
  | .band => .opBitAnd
  | .eq => .opEQ
  | .ne => .opNE
  | .lt => .opLT
  | .gt => .opGT
  | .le => .opLE
  | .ge => .opGE
  | .add => .opPlus
  | .sub => .opMinus
  | .mul => .opTimes
  | .div => .opDivide
  | .mod => .opMod

inductive Expression where
  | integer (i : Int32)
  | symbol (s : String)
  | binary (l : Expression) (o : Operator) (r : Expression)
  | not (e : Expression)
  | bitNegate (e : Expression)
  | asInteger (e : Expression)
deriving DecidableEq, Repr

namespace Expression

def minus (e : Expression) : Expression := .binary (.integer (-1)) .mul e

def predicate : Expression → Predicate (Value F)
  | .integer i => .leaf (.integer i.toInt64)
  | .symbol s => .leaf (.ofString s)
  | .binary l o r => .binary l.predicate (predicateOperator o) r.predicate
  | .not e => .binary (.leaf (.integer 0)) .opNOT e.predicate
  | .bitNegate e => .unary .opNegate e.predicate
  | .asInteger e => .unary .opInteger e.predicate

def subexpressions : Expression → List Expression
  | .integer i => [.integer i]
  | .symbol s => [.symbol s]
  | .binary l o r => .binary l o r :: (l.subexpressions ++ r.subexpressions)
  | .not e => .not e :: e.subexpressions
  | .bitNegate e => .bitNegate e :: e.subexpressions
  | .asInteger e => .asInteger e :: e.subexpressions

theorem mem_subexpressions_self (e : Expression) : e ∈ e.subexpressions := by
  cases e <;> simp [subexpressions]

def symbols : Expression → List String
  | .integer _ => []
  | .symbol s => [s]
  | .binary l _ r => l.symbols ++ r.symbols
  | .not e => e.symbols
  | .bitNegate e => e.symbols
  | .asInteger e => e.symbols

end Expression

def arithmetic : Operator → Bool
  | .bor | .bxor | .band | .add | .sub | .mul | .div | .mod => true
  | _ => false

def Expression.isArithmetic : Expression → Bool
  | .binary _ o _ => arithmetic o
  | .not _ => false
  | _ => true

/-- A name of the lexer: `[A-Za-z][A-Za-z0-9_.]*`. -/
def IsSymbol (s : String) : Prop :=
  s.toList.head?.any Char.isAlpha = true ∧ s.toList.all fun c => isWordChar c || c == '.'

instance : DecidablePred IsSymbol := fun s =>
  inferInstanceAs (Decidable (_ ∧ s.toList.all _ = true))

def symbolPath (x : ExportState) (s : String) : Path :=
  if s = "TIMER" then
    ⟨['m'], [(.arrow, ['m', 'a', 'c', 'h', 'i', 'n', 'e']), (.dot, ['T', 'I', 'M', 'E', 'R'])]⟩
  else if x.canBlock then
    ⟨['c', 't', 'x'], [(.arrow, ['v']), (.arrow, 'l' :: '_' :: x.nameOf s)]⟩
  else ⟨['v'], [(.arrow, 'l' :: '_' :: x.nameOf s)]⟩

/-- The symbol is exported under a C name and holds an integer, to which its variable is bound. -/
structure Bound (x : ExportState) (m : Scope F M) (env : Path → Option Int64) (s : String) :
    Prop where
  symbol : IsSymbol s
  exported : (x.nameOf s).all isWordChar = true
  holds : ∃ i, (∀ left, leafValue m left (.ofString s) = .integer i) ∧
    env (symbolPath x s) = some i

/-- The symbols of an expression are bound, and nothing but exported symbols is declared. -/
structure Environment (x : ExportState) (m : Scope F M) (env : Path → Option Int64)
    (e : Expression) : Prop where
  bound : ∀ s ∈ e.symbols, Bound x m env s
  only : ∀ p, (env p).isSome → ∃ s, p = symbolPath x s

section Law

variable [Double F] (regex : String → String → Bool) (x : ExportState)
  (streamFloat : F → List Char) (m : Scope F M) (limit : ℤ) (env : Path → Option Int64)

/-- The text is a C expression over declared variables. If it has a value, the stack machine
computes one of the same truth, and for an arithmetic expression of the same integer. -/
def Preserved (e : Expression) : Prop :=
  ∃ c, CExpression.parse (toC x streamFloat e.predicate) = some c ∧ c.Declared env ∧
    ∀ n, c.eval limit env = some n →
      ∃ v, evaluate regex m e.predicate = some v ∧ (v.not = false ↔ n ≠ 0) ∧
        (e.isArithmetic → v.asInteger = some n)

end Law

/-- What the text of an expression is read as. A predicate without left operand that is no leaf
prints its empty entry. -/
def Expression.cexpr (x : ExportState) : Expression → Expr
  | .integer i => literal i.toInt
  | .symbol s => .path (symbolPath x s)
  | .binary l o r => .paren (.binary (l.cexpr x) o (r.cexpr x))
  | .not e => .paren (.not (e.cexpr x))
  | .bitNegate _ => .paren (.path ⟨['e', 'm', 'p', 't', 'y'], []⟩)
  | .asInteger _ => .paren (.path ⟨['e', 'm', 'p', 't', 'y'], []⟩)

variable {x : ExportState} {m : Scope F M} {env : Path → Option Int64} {s : String}

theorem Bound.ofString_eq (h : Bound x m env s) :
    (Value.ofString s : Value F) = .symbol s (some s) := by
  obtain ⟨i, hi, -⟩ := h.holds
  have hlea := hi true
  unfold Value.ofString at hlea ⊢
  split_ifs at hlea ⊢ with hemp
  · -- the empty name is no symbol
    subst hemp
    exact absurd h.symbol.1 (by decide)
  · cases hlea
  · cases hlea
  · cases hlea
  · rfl

theorem isIdentifier_member {n : List Char} (h : n.all isWordChar = true) :
    CExpression.IsIdentifier ('l' :: '_' :: n) := by
  have hkey : ∀ k ∈ keywords, k.tail.head? ≠ some '_' := by decide
  refine ⟨cons_ne_nil _ _, ?_, rfl, fun hmem => hkey _ hmem rfl⟩
  rw [all_cons, all_cons, h]
  rfl

theorem isIdentifier_fixed : ∀ s ∈ [['v'], ['c', 't', 'x'], ['m'],
    ['m', 'a', 'c', 'h', 'i', 'n', 'e'], ['T', 'I', 'M', 'E', 'R'], ['e', 'm', 'p', 't', 'y']],
    CExpression.IsIdentifier s := by decide

theorem Bound.valid (h : Bound x m env s) : (symbolPath x s).Valid := by
  have hmem := isIdentifier_member h.exported
  have hv := isIdentifier_fixed ['v'] (by simp)
  unfold symbolPath
  split_ifs
  · exact ⟨isIdentifier_fixed _ (by simp), forall_mem_cons.mpr
      ⟨isIdentifier_fixed _ (by simp),
        forall_mem_singleton.mpr (isIdentifier_fixed _ (by simp))⟩⟩
  · exact ⟨isIdentifier_fixed _ (by simp),
      forall_mem_cons.mpr ⟨hv, forall_mem_singleton.mpr hmem⟩⟩
  · exact ⟨hv, forall_mem_singleton.mpr hmem⟩

theorem text_symbolPath (x : ExportState) (s : String) :
    (Expr.path (symbolPath x s)).text = symbolToC x s := by
  unfold symbolPath symbolToC ExportState.variablePrefix
  split_ifs <;> simp [Expr.text, membersText, Access.text]

theorem operand_cexpr {e : Expression} (h : ∀ s ∈ e.symbols, Bound x m env s) :
    Operand (e.cexpr x) := by
  induction e with
  | integer i => exact operand_literal _
  | symbol s => exact .path (h s mem_cons_self).valid
  | binary l o r ihl ihr =>
    obtain ⟨hl, hr⟩ := forall_mem_append.mp h
    exact .binary (ihl hl) o (ihr hr)
  | not e ih => exact .not (ih h)
  | bitNegate e ih | asInteger e ih =>
    exact .paren (.path ⟨isIdentifier_fixed _ (by simp), forall_mem_nil _⟩)

theorem operatorToC_predicateOperator (o : Operator) :
    operatorToC (predicateOperator o) = o.text := by
  cases o <;> rfl

open Expression

theorem toC_predicate (streamFloat : F → List Char) {e : Expression}
    (h : ∀ s ∈ e.symbols, Bound x m env s) : toC x streamFloat e.predicate = (e.cexpr x).text := by
  induction e with
  | integer i =>
    rw [cexpr, text_literal, predicate, toC, entryToC, Int32.toInt_toInt64]
  | symbol s =>
    rw [cexpr, text_symbolPath, predicate, toC, (h s mem_cons_self).ofString_eq, entryToC]
  | binary l o r ihl ihr =>
    obtain ⟨hl, hr⟩ := forall_mem_append.mp h
    have hass : predicateOperator o ≠ .opAssign := by cases o <;> decide
    have hlef : ignoresLeft (predicateOperator o) = false := by cases o <;> rfl
    rw [predicate, toC, ihl hl, ihr hr, operatorToC_predicateOperator]
    simp [hass, hlef, cexpr, Expr.text]
  | not e ih =>
    rw [predicate, toC, ih h]
    rfl
  | bitNegate e ih => rfl
  | asInteger e ih => rfl

end Clockwork.CExport
