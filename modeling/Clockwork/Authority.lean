import Clockwork.Library.Runs
import Clockwork.Names
import Clockwork.Value

namespace Clockwork.Authority

variable {F M : Type}

structure Config (F M : Type) where
  name : String
  expectedAuthority : UInt64
  isShadow : Bool
  /-- a shadow whose channel is not disconnected takes requests for its owner -/
  channelConnected : Bool
  isConstant : Bool
  states : List String
  /-- the `GLOBAL` names of the class; an entry may be unbound -/
  globalReferences : String → Option (Option M)
  filter : Option (Value F → Int64)
  hasIoInterface : Bool

/-- The part of a machine instance that authority protects. An absent property reads as
`SymbolTable::Null`. -/
@[ext]
structure Instance (F : Type) where
  currentState : String
  properties : String → Value F

/-- The machines of a program, and how they find and read each other. -/
structure Env (F M : Type) where
  config : M → Config F M
  lookup : M → String → Option M
  find : String → Option M
  getValue : (M → Instance F) → M → String → Value F
  /-- the state an output of that name reports after it was asked for a state -/
  output : String → String → Option String

def Env.expected (env : Env F M) (x : M) : UInt64 := (env.config x).expectedAuthority

def identical [Double F] : Value F → Value F → Bool
  | .float x, .float y => Double.eq x y
  | a, b => a.eq b

inductive Outcome where
  | running | failed | complete
  | entered
deriving DecidableEq, Repr

variable [DecidableEq M] (env : Env F M) (w : M → Instance F)

def enterState (x : M) (st : String) : M → Instance F :=
  Function.update w x
    { currentState := st
      properties := Function.update (w x).properties "STATE" (.ofString st) }

def setState [Double F] (w : M → Instance F) (x : M) (newState : String) (authority : UInt64)
    (resume : Bool) : Outcome × (M → Instance F) :=
  if env.expected x ≠ 0 ∧ authority = 0 then
    -- a shadow asks its channel for the change
    (if (env.config x).isShadow then .running else .failed, w)
  else if env.expected x = 0 ∧ authority ≠ 0 then (.failed, w)
  else if resume = false ∧ (w x).currentState = newState then (.complete, w)
  else if newState ∈ (env.config x).states then (.entered, enterState w x newState)
  else
    -- the name of a property that holds the name of a state
    let st := (env.getValue w x newState).asString
    if st ∈ (env.config x).states then
      if resume = false ∧ (w x).currentState = st then (.complete, w)
      else (.entered, enterState w x st)
    else (.failed, w)

def setProperty (x : M) (property : String) (v : Value F) : M → Instance F :=
  Function.update w x
    { w x with properties := Function.update (w x).properties property v }

def filtered (x : M) (v : Value F) : Option (Value F) :=
  if v.kind = .float then none else (env.config x).filter.map fun f => .integer (f v)

def wasChanged [Double F] (prev v : Value F) : Option (Value F) → Bool
  | some u => !identical prev u || (!v.isNull && prev.isNull)
  | none => !identical prev v || prev.kind != v.kind || (!v.isNull && prev.isNull)

/-- The `VALUE` of a machine with an I/O point is the number that was sent to it. -/
def updateOutput [Double F] (w : M → Instance F) (x : M) (property : String) (v : Value F) :
    M → Instance F :=
  if property = "VALUE" ∧ (env.config x).hasIoInterface then
    match v.asInteger with
    | some i => setProperty w x "VALUE" (.integer i)
    | none => w
  else w

def assign [Double F] (w : M → Instance F) (x : M) (property : String) (v : Value F) :
    M → Instance F :=
  if wasChanged ((w x).properties property) v (filtered env x v) then
    updateOutput env (setProperty w x property ((filtered env x v).getD v)) x property v
  else w

inductive Route (M : Type) where
  | reply (result : Bool)
  /-- the call `setValue(property, new_value)` on another machine -/
  | forward (y : M) (property : String)
  | assign

/-- A request for a name that is another machine goes to its `VALUE`. -/
def toVariable (y : M) : Route M :=
  if (env.config y).isConstant then .reply false else .forward y "VALUE"

def route (x : M) (property : String) (authority : UInt64) : Route M :=
  if property = "" then .reply false
  else
    match splitDot property with
    | some (name, prop) =>
      match env.lookup x name with
      | some y => if prop = "" then .reply false else .forward y prop
      | none => .reply false
    | none =>
      if env.expected x ≠ 0 ∧ authority = 0 then
        .reply ((env.config x).isShadow && (env.config x).channelConnected)
      else if property = "TRACEABLE" then .reply true
      else
        match (env.config x).globalReferences property with
        | some (some y) => toVariable env y
        | some none => .reply false
        | none =>
          if ((w x).properties property).isNull ∧ property ≠ "VALUE" ∧
              property ≠ (env.config x).name then
            match env.lookup x property with
            | some y => toVariable env y
            | none => .assign
          else .assign

/-- `setValue`. The calls it makes on other machines carry no authority. The depth
bounds the nesting of calls. -/
def setValue [Double F] :
    ℕ → (M → Instance F) → M → String → Value F → UInt64 → Bool × (M → Instance F)
  | 0, w, _, _, _, _ => (false, w)
  | depth + 1, w, x, property, v, authority =>
    match route env w x property authority with
    | .reply result => (result, w)
    | .forward y prop => setValue depth w y prop v 0
    | .assign => (true, assign env w x property v)

/-- A state change that a command left on the stack of a machine, with the authority the
command carried. The action itself has none. -/
structure Pending (M : Type) where
  machine : M
  state : String
  authority : UInt64

def authorityOf [Double F] (v : Value F) : UInt64 :=
  match v.asInteger with
  | some i => i.toUInt64
  | none => 0

def setStatusParams [Double F] : List (Value F) → Option (String × String × UInt64)
  | [_, ds, _, st, auth] => some (ds.asString, st.asString, authorityOf auth)
  | [_, ds, p, q] =>
    if p.eq (.ofString "TO") then some (ds.asString, q.asString, 0)
    else some (ds.asString, p.asString, authorityOf q)
  | [_, ds, st] => some (ds.asString, st.asString, 0)
  | _ => none

/-- `IODCommandSetStatus::run`: the reply, the machines and the action it queued. -/
def runSetStatus [Double F] (w : M → Instance F) (params : List (Value F)) :
    Except String String × (M → Instance F) × List (Pending M) :=
  match setStatusParams params with
  | none => (.error "Usage: SET device TO state", w, [])
  | some (ds, st, auth) =>
    match env.output ds st with
    | some reported => (.ok reported, w, [])
    | none =>
      match env.find ds with
      | none => (.error ("Not found: " ++ ds), w, [])
      | some x =>
        if (env.config x).isShadow then
          -- `setState(const char *)` ignores an unknown state
          if st ∈ (env.config x).states then (.ok "OK", (setState env w x st auth false).2, [])
          else (.ok "OK", w, [])
        else if st ∈ (env.config x).states then (.ok "OK", w, [⟨x, st, auth⟩])
        else
          (.error
            ("Error: machine " ++ (env.config x).name ++ " has no state called '" ++ st ++ "'"),
            w, [])

/-- `SetStateAction::run` on the machine itself, for a state of its class. A transition
to that state is performed by a `MoveStateAction`, with the same effect. -/
def runSetStateAction [Double F] (w : M → Instance F) (x : M) (st : String) : M → Instance F :=
  if (env.config x).hasIoInterface then w else (setState env w x st 0 false).2

def propertyAuthority [Double F] : List (Value F) → Option UInt64
  | [_, _, _, _, auth] => auth.asInteger.map Int64.toUInt64
  | _ => none

def propertyValue [Double F] (v : Value F) : Value F :=
  if (v.kind = .string ∨ v.kind = .symbol) ∧ (strtol v.asString).2 then
    .integer (strtol v.asString).1
  else v

def runProperty [Double F] (depth : ℕ) (w : M → Instance F) (params : List (Value F)) :
    Except String String × (M → Instance F) :=
  match params with
  | _ :: machine :: rest =>
    match env.find machine.asString with
    | none => (.error ("Unknown device: " ++ machine.asString), w)
    | some x =>
      match rest with
      | [] | [_] => (.error "Could not set property", w)
      | property :: v :: more =>
        let auth := (propertyAuthority params).getD 0
        if 1 < more.length then (.error "Usage: PROPERTY machine property value", w)
        else if auth ≠ 0 ∧ (env.config x).isShadow = false then
          (.error "Refusing to change property due to authorisation conflict", w)
        else
          let r := setValue env depth w x property.asString (propertyValue v) auth
          (if r.1 then .ok "OK" else .error "Could not set property", r.2)
  | _ => (.error "", w)

inductive Call (F M : Type) where
  | setState (x : M) (newState : String) (authority : UInt64) (resume : Bool)
  | setValue (x : M) (property : String) (v : Value F) (authority : UInt64)
  | setStatus (params : List (Value F))
  | property (params : List (Value F))
  | runAction (i : ℕ)

/-- The machines, the queued state changes and, for each machine, the authorities of the
calls that changed it. -/
structure System (F M : Type) where
  world : M → Instance F
  pending : List (Pending M)
  changedBy : M → Set UInt64

def System.start : System F M := ⟨w, [], fun _ => ∅⟩

def Call.authority [Double F] (s : System F M) : Call F M → UInt64
  | .setState _ _ a _ => a
  | .setValue _ _ _ a => a
  | .setStatus params => ((setStatusParams params).map (·.2.2)).getD 0
  | .property params => (propertyAuthority params).getD 0
  | .runAction i => ((s.pending[i]?).map Pending.authority).getD 0

def perform [Double F] (depth : ℕ) (s : System F M) :
    Call F M → (M → Instance F) × List (Pending M)
  | .setState x st a resume => ((setState env s.world x st a resume).2, s.pending)
  | .setValue x p v a => ((setValue env depth s.world x p v a).2, s.pending)
  | .setStatus params =>
    let r := runSetStatus env s.world params
    (r.2.1, s.pending ++ r.2.2)
  | .property params => ((runProperty env depth s.world params).2, s.pending)
  | .runAction i =>
    match s.pending[i]? with
    | some p => (runSetStateAction env s.world p.machine p.state, s.pending.eraseIdx i)
    | none => (s.world, s.pending)

inductive Step [Double F] : System F M → Call F M → System F M → Prop
  | call (s : System F M) (c : Call F M) (depth : ℕ) :
      Step s c
        { world := (perform env depth s c).1
          pending := (perform env depth s c).2
          changedBy := fun x => s.changedBy x ∪
            {a | a = c.authority s ∧ (perform env depth s c).1 x ≠ s.world x} }

end Clockwork.Authority
