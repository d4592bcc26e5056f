import Clockwork.Evaluators
import Clockwork.Library.Runs

namespace Clockwork

variable {F M R K : Type}

/-- What a condition sees of the machine it is evaluated in and of the machines
around it. `R` are the places where the machines keep values. -/
structure Environment (F M R : Type) where
  lookup : String → Option M
  resolve : String → R
  read : R → Value F
  currentStateVal : Value F

structure Classes (M : Type) where
  hasState : String → Bool
  machineHasState : M → String → Bool

/-- A dynamic value at a leaf. It may keep what it finds in the first evaluation (the
list of `INCLUDES`, the state property of `COUNT`, `ANY` and `ALL`); what it keeps is
not looked up again. Some of them change the machines (`TAKE`, `BECOMES`). -/
structure DynamicValue (F M R K : Type) where
  find : Environment F M R → Option K
  value : Option K → Environment F M R → Value F × Environment F M R

inductive Entry (F M R K : Type) where
  | value (v : Value F)
  | dynamic (d : DynamicValue F M R K)

def Entry.toStringKind : Entry F M R K → Entry F M R K
  | .value v => .value v.toStringKind
  | e => e

/-- What `cached_entry` points at: the leaf's own entry, one of the constants, the
current state of the machine, or a value of some machine. -/
inductive Pointer (R : Type) where
  | entry
  | bool (b : Bool)
  | state
  | place (r : R)
deriving DecidableEq

def Pointer.read (env : Environment F M R) (e : Entry F M R K) : Pointer R → Value F
  | .entry => match e with
    | .value v => v
    | .dynamic _ => .empty
  | .bool b => .bool b
  | .state => env.currentStateVal
  | .place r => env.read r

structure Leaf (F M R K : Type) where
  entry : Entry F M R K
  cachedMachine : Option M
  cachedEntry : Option (Pointer R)
  kept : Option K

def Leaf.fresh (e : Entry F M R K) : Leaf F M R K := ⟨e, none, none, none⟩

/-- A condition; of `needs_reevaluation` only the one at the root is ever read. -/
structure Condition (F M R K : Type) where
  predicate : Predicate (Leaf F M R K)
  needsReevaluation : Bool

namespace Condition

variable (cl : Classes M) (env : Environment F M R)

def resolveCacheMiss (left : Bool) :
    Entry F M R K → Pointer R
  | .value (.symbol s _) =>
    if left && s == "DEFAULT" then .bool true
    else if s = "SELF" then .state
    else if s = "TRUE" then .bool true
    else if s = "FALSE" then .bool false
    else if cl.hasState s then .entry
    else if (env.read (env.resolve s)).isNull then .entry
    else .place (env.resolve s)
  | _ => .entry

def prepLeaf (left reevaluate : Bool)
    (l : Leaf F M R K) : Leaf F M R K :=
  let cached := if reevaluate then none else l.cachedEntry
  let result := cached.getD (resolveCacheMiss cl env left l.entry)
  { l with cachedEntry := some (if (result.read env l.entry).isNull then .entry else result) }

/-- The test of two machines found for the operands of `==` or `!=`: does the left,
does the right operand name a state of the other's machine. -/
def stateTest (lhm rhm : Option M) (ls rs : String) : Bool × Bool :=
  match lhm, rhm with
  | some x, none => (false, cl.machineHasState x rs)
  | none, some y => (cl.machineHasState y ls, false)
  | _, _ => (false, false)

/-- What the state comparison does to an operand: `lookup(Value &)` keeps the machine
in the entry, and the name of a state becomes a string. -/
def compared (machine : Option M) (isState : Bool) (l : Leaf F M R K) : Leaf F M R K :=
  { l with
    cachedMachine := machine
    entry := if isState then l.entry.toStringKind else l.entry }

def compareStates (op : PredicateOperator)
    (l r : Predicate (Leaf F M R K)) :
    (Leaf F M R K → Leaf F M R K) × (Leaf F M R K → Leaf F M R K) :=
  match l, r with
  | .leaf a, .leaf b =>
    match a.entry, b.entry with
    | .value (.symbol ls _), .value (.symbol rs _) =>
      if op = .opEQ ∨ op = .opNE then
        let lhm := a.cachedMachine <|> env.lookup ls
        let rhm := b.cachedMachine <|> env.lookup rs
        let test := stateTest cl lhm rhm ls rs
        (compared lhm test.1, compared rhm test.2)
      else (id, id)
    | _, _ => (id, id)
  | _, _ => (id, id)

/-- `prep` as far as it changes the tree; `mark` is what the comparison above does to
the tree when it is a leaf. -/
def prep (cl : Classes M) (env : Environment F M R) (left reevaluate : Bool)
    (mark : Leaf F M R K → Leaf F M R K) :
    Predicate (Leaf F M R K) → Predicate (Leaf F M R K)
  | .leaf l => .leaf (prepLeaf cl env left reevaluate (mark l))
  | .unary op r =>
    if compilesUnary op then .unary op (prep cl env false reevaluate id r) else .unary op r
  | .binary l op r =>
    .binary (prep cl env true reevaluate (compareStates cl env op l r).1 l) op
      (prep cl env false reevaluate (compareStates cl env op l r).2 r)

variable [Double F]

/-- `eval_stack` on the code of a prepared tree: right operands first. A leaf is read
when its turn comes, after the effects of the dynamic values before it. -/
def eval (regex : String → String → Bool) :
    Predicate (Leaf F M R K) → Environment F M R →
      Option (Value F × Predicate (Leaf F M R K) × Environment F M R)
  | .leaf l, env =>
    match l.entry with
    | .value v =>
      some ((l.cachedEntry.getD .entry).read env (.value v : Entry F M R K), .leaf l, env)
    | .dynamic d =>
      let kept := l.kept <|> d.find env
      let result := d.value kept env
      some (result.1, .leaf { l with kept := kept }, result.2)
  | .unary op r, env =>
    if compilesUnary op then do
      let (b, r', env') ← eval regex r env
      let v ← stackOp regex op (.bool true) b
      return (v, .unary op r', env')
    else some (.empty, .unary op r, env)
  | .binary l op r, env => do
    let (b, r', env₁) ← eval regex r env
    let (a, l', env₂) ← eval regex l env₁
    let v ← stackOp regex op a b
    return (v, .binary l' op r', env₂)

def rootResolved : Predicate (Leaf F M R K) → Bool
  | .leaf _ => true
  | .unary op _ => !compilesUnary op
  | .binary _ _ _ => false

/-- `Condition::operator()`: the result, the condition and the machines after it. -/
def call (regex : String → String → Bool) (cl : Classes M) (c : Condition F M R K)
    (env : Environment F M R) : Option (Bool × Condition F M R K × Environment F M R) := do
  let (v, p, env') ← eval regex (prep cl env true c.needsReevaluation id c.predicate) env
  return (v.truth, ⟨p, c.needsReevaluation && !rootResolved c.predicate⟩, env')

def flushCache (c : Condition F M R K) : Condition F M R K where
  predicate := match c.predicate with
    | .leaf l => .leaf { l with cachedEntry := none }
    | p => p
  needsReevaluation := true

def fresh (p : Predicate (Entry F M R K)) : Condition F M R K := ⟨p.map Leaf.fresh, true⟩

inductive Event (F M R : Type) where
  | evaluate
  | flush
  | change (env : Environment F M R)

/-- One event; an evaluation without a defined result is not a step. -/
inductive Step (regex : String → String → Bool) (cl : Classes M) :
    Condition F M R K × Environment F M R → Event F M R →
      Condition F M R K × Environment F M R → Prop
  | evaluate {c c' : Condition F M R K} {env env' : Environment F M R} {b : Bool}
      (h : c.call regex cl env = some (b, c', env')) :
      Step regex cl (c, env) .evaluate (c', env')
  | flush (c : Condition F M R K) (env : Environment F M R) :
      Step regex cl (c, env) .flush (c.flushCache, env)
  | change (c : Condition F M R K) (env env' : Environment F M R) :
      Step regex cl (c, env) (.change env') (c, env')

end Condition

end Clockwork
