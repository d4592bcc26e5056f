import Clockwork.Evaluators
import Clockwork.Library.PrefixCode

namespace Clockwork.StackEvaluation

variable {F D P S α : Type}

inductive Cell (F D : Type) where
  | plain (v : Value F)
  | dynamic (d : D)
deriving DecidableEq

/-- A node of the stack with a value: its own `tmpval`, or a pointer to a value. -/
inductive Operand (F D P : Type) where
  | tmp (c : Cell F D)
  | ref (p : P)
deriving DecidableEq

abbrev Node (F D P : Type) := PrefixCode.Symbol PredicateOperator (Operand F D P)

structure World (F D P S : Type) where
  read : S → P → Cell F D
  call : D → S → Cell F D × S
  lastResult : D → P
  text : S → D → String
  regex : String → String → Bool
  dynamicOp : PredicateOperator → Cell F D → Cell F D → Option (Cell F D)

namespace Cell

def isDynamic : Cell F D → Bool
  | .plain _ => false
  | .dynamic _ => true

def isBool (b : Bool) : Cell F D → Bool
  | .plain (.bool c) => c == b
  | _ => false

end Cell

namespace World

variable (w : World F D P S)

def cell (s : S) : Operand F D P → Cell F D
  | .tmp c => c
  | .ref p => w.read s p

/-- A node that is no operator: a dynamic value is called and gives its last result. -/
def evalLeaf (o : Operand F D P) (s : S) : Operand F D P × S :=
  match w.cell s o with
  | .dynamic d => (.ref (w.lastResult d), (w.call d s).2)
  | .plain _ => (o, s)

/-- `lhs` and `rhs`: an operand that is still dynamic is called. -/
def operandValue (o : Operand F D P) (s : S) : Cell F D × S :=
  match w.cell s o with
  | .dynamic d => w.call d s
  | .plain v => (.plain v, s)

/-- `AND` and `OR` return `rhs` at once. -/
def returnsEarly (o : PredicateOperator) (b : Operand F D P) (s : S) : Bool :=
  let rhs := (w.operandValue b s).1
  (w.cell s b).isDynamic && (o == .opAND && rhs.isBool false || o == .opOR && rhs.isBool true)

def asString [Double F] (s : S) : Cell F D → String
  | .plain v => v.asString
  | .dynamic d => w.text s d

/-- The operator switch of `eval_stack`. A match reads the operands once more, and the operators
on lists return the pointer of the left one, which is gone if it is its `tmpval`. -/
def operate [Double F] (s : S) (o : PredicateOperator) (a b : Operand F D P)
    (lhs rhs : Cell F D) : Option (Operand F D P) :=
  match o with
  | .opMatch =>
    let found := w.regex (w.asString s (w.cell s a)) (w.asString s (w.cell s b))
    some (.tmp (.plain (.bool found)))
  | .opAny | .opCount | .opAll | .opIncludes =>
    match a with
    | .ref p => some (.ref p)
    | .tmp _ => none
  | o =>
    match lhs, rhs with
    | .plain l, .plain r => (stackOp w.regex o l r).map fun v => .tmp (.plain v)
    | l, r => (w.dynamicOp o l r).map .tmp

def evalStack [Double F] :
    ℕ → List (Node F D P) → S → Option (Operand F D P × List (Node F D P) × S)
  | 0, _, _ => none
  | _ + 1, [], _ => none
  | _ + 1, .leaf o :: st, s => some ((w.evalLeaf o s).1, st, (w.evalLeaf o s).2)
  | n + 1, .op o :: st, s =>
    (evalStack n st s).bind fun b =>
      let rhs := w.operandValue b.1 b.2.2
      if w.returnsEarly o b.1 b.2.2 then some (.tmp rhs.1, b.2.1, rhs.2)
      else
        (evalStack n b.2.1 rhs.2).bind fun a =>
          let lhs := w.operandValue a.1 a.2.2
          (w.operate lhs.2 o a.1 b.1 lhs.1 rhs.1).map fun v => (v, a.2.1, lhs.2)

end World

/-- `prep`; `resolve` gives the value to which a node that is pushed as a leaf resolves. -/
def prep (resolve : Bool → Predicate α → P) (left : Bool) :
    Predicate α → List (Node F D P) → List (Node F D P)
  | .leaf e, st => .leaf (.ref (resolve left (.leaf e))) :: st
  | .unary op r, st =>
    if compilesUnary op then
      .op op :: prep resolve false r (.leaf (.tmp (.plain (.bool true))) :: st)
    else .leaf (.ref (resolve left (.unary op r))) :: st
  | .binary l op r, st => .op op :: prep resolve false r (prep resolve true l st)

section Meaning

variable [Double F] (w : World F D P S) (resolve : Bool → Predicate α → P)

/-- An operator on the value of its right operand, and on the value that `left` finds for the
left one unless the operator returns early; the flag tells that an operand was skipped. -/
def applyOperator (op : PredicateOperator) (b : Operand F D P × Bool × S)
    (left : S → Option (Operand F D P × Bool × S)) : Option (Operand F D P × Bool × S) :=
  let rhs := w.operandValue b.1 b.2.2
  if w.returnsEarly op b.1 b.2.2 then some (.tmp rhs.1, true, rhs.2)
  else
    (left rhs.2).bind fun a =>
      let lhs := w.operandValue a.1 a.2.2
      (w.operate lhs.2 op a.1 b.1 lhs.1 rhs.1).map fun v => (v, b.2.1 || a.2.1, lhs.2)

def leafMeaning (o : Operand F D P) (s : S) : Option (Operand F D P × Bool × S) :=
  some ((w.evalLeaf o s).1, false, (w.evalLeaf o s).2)

/-- The value of a tree by recursion over it: every leaf is evaluated once, from the right to the
left, except for those of an operand that is skipped. -/
def meaning (left : Bool) : Predicate α → S → Option (Operand F D P × Bool × S)
  | .leaf e, s => leafMeaning w (.ref (resolve left (.leaf e))) s
  | .unary op r, s =>
    if compilesUnary op then
      (meaning false r s).bind fun b =>
        applyOperator w op b (leafMeaning w (.tmp (.plain (.bool true))))
    else leafMeaning w (.ref (resolve left (.unary op r))) s
  | .binary l op r, s =>
    (meaning false r s).bind fun b => applyOperator w op b (meaning true l)

def semantics : PrefixCode.Semantics PredicateOperator (Operand F D P) (Operand F D P)
    (Operand F D P × Cell F D) S where
  leaf o s := some (w.evalLeaf o s)
  first op b s :=
    let rhs := w.operandValue b s
    some (if w.returnsEarly op b s then .inl (.tmp rhs.1) else .inr (b, rhs.1), rhs.2)
  second op r a s :=
    let lhs := w.operandValue a s
    (w.operate lhs.2 op a r.1 lhs.1 r.2).map fun v => (v, lhs.2)

def tree (left : Bool) : Predicate α → PrefixCode.Tree PredicateOperator (Operand F D P)
  | .leaf e => .leaf (.ref (resolve left (.leaf e)))
  | .unary op r =>
    if compilesUnary op then .node op (tree false r) (.leaf (.tmp (.plain (.bool true))))
    else .leaf (.ref (resolve left (.unary op r)))
  | .binary l op r => .node op (tree false r) (tree true l)

omit [Double F] in
theorem prep_eq_code (left : Bool) (p : Predicate α) (st : List (Node F D P)) :
    prep resolve left p st = (tree resolve left p).code st := by
  induction p generalizing left st with
  | leaf e => rfl
  | unary op r ih =>
    rw [prep, tree]
    split_ifs
    · rw [ih]
      rfl
    · rfl
  | binary l op r ihl ihr =>
    rw [prep, ihr, ihl]
    rfl

theorem evalStack_eq_run (n : ℕ) (st : List (Node F D P)) (s : S) :
    w.evalStack n st s = (semantics w).run n st s := by
  induction n generalizing st s with
  | zero => rfl
  | succ n ih =>
    cases st with
    | nil => rfl
    | cons x st =>
      cases x with
      | leaf o => rfl
      | op o =>
        rw [World.evalStack, ih]
        refine congrArg _ (funext fun b => ?_)
        simp only [semantics, Option.bind_some]
        split_ifs
        · rfl
        · simp only [ih, Option.map_map]
          rfl

theorem bind_applyOperator (op : PredicateOperator)
    (f g : PrefixCode.Tree PredicateOperator (Operand F D P)) (s : S) :
    (((semantics w).value f s).bind fun b => applyOperator w op b ((semantics w).value g)) =
      (semantics w).value (.node op f g) s := by
  rw [PrefixCode.Semantics.value]
  refine congrArg _ (funext fun b => ?_)
  simp only [applyOperator, semantics, Option.bind_some]
  split_ifs
  · rfl
  · simp only [Option.map_map]
    rfl

theorem leafMeaning_eq_value (o : Operand F D P) :
    leafMeaning w o = (semantics w).value (.leaf o) :=
  rfl

theorem meaning_eq_value (left : Bool) (p : Predicate α) (s : S) :
    meaning w resolve left p s = (semantics w).value (tree resolve left p) s := by
  induction p generalizing left s with
  | leaf e => rfl
  | unary op r ih =>
    rw [meaning, tree]
    split_ifs
    · rw [ih, leafMeaning_eq_value, bind_applyOperator]
    · rfl
  | binary l op r ihl ihr =>
    have hl : meaning w resolve true l = (semantics w).value (tree resolve true l) := by
      funext s
      exact ihl true s
    rw [meaning, tree, ihr, hl, bind_applyOperator]

/-- `eval_stack` reads all the nodes that `prep` pushed and finds the meaning of the tree exactly
if no `AND` or `OR` skips its left operand. -/
theorem evalStack_prep_iff (p : Predicate α) (s : S) :
    (∃ v skipped s', meaning w resolve true p s = some (v, skipped, s') ∧
      w.evalStack (prep resolve true p [] : List (Node F D P)).length (prep resolve true p []) s =
        some (v, [], s')) ↔ ∃ v s', meaning w resolve true p s = some (v, false, s') := by
  simp only [meaning_eq_value, evalStack_eq_run, prep_eq_code]
  exact PrefixCode.Semantics.run_code_iff _ s

end Meaning

inductive Place where
  | x | y | firstOf | entry

def listWorld : World ℚ Bool Place Unit where
  read _ p :=
    match p with
    | .x => .plain (.bool true)
    | .y => .plain (.bool false)
    | .firstOf => .dynamic false
    | .entry => .dynamic true
  call d _ := (if d then .plain (.bool false) else .dynamic true, ())
  lastResult _ := .entry
  text _ _ := ""
  regex _ _ := false
  dynamicOp _ _ _ := none

def placeOf : Bool → Predicate Place → Place
  | _, .leaf p => p
  | _, _ => .entry

/-- The `AND` leaves its left operand on the stack, and the `OR` takes it for its own. -/
theorem listWorld_reads_wrong_operand : ¬∃ v skipped s', meaning listWorld placeOf true
        (.binary (.leaf .y) .opOR (.binary (.leaf .x) .opAND (.leaf .firstOf))) () =
          some (v, skipped, s') ∧ listWorld.evalStack 5
        (prep placeOf true (.binary (.leaf .y) .opOR (.binary (.leaf .x) .opAND (.leaf .firstOf)))
          []) () = some (v, [], s') := by
  rintro ⟨v, skipped, s', -, h⟩
  have hrun : listWorld.evalStack 5
      (prep placeOf true (.binary (.leaf .y) .opOR (.binary (.leaf .x) .opAND (.leaf .firstOf)))
        []) () = some (.tmp (.plain (.bool true)), [.leaf (.ref .y)], ()) := rfl
  rw [hrun] at h
  simp at h

end Clockwork.StackEvaluation
