import Clockwork.Library.Runs
import Clockwork.Names
import Clockwork.Parameter

namespace Clockwork.Lookup

variable {F M : Type}

structure Bindings (F M : Type) where
  locals : List (Parameter F M)
  parameters : List (Parameter F M)
  localisedNames : String → Option M

structure Program (F M : Type) where
  name : M → String
  fullName : M → String
  owner : M → Option M
  isCondition : M → Bool
  classParameters : M → List (Parameter F M)
  machines : String → Option M
  getValue : (M → Bindings F M) → M → Value F → Value F

def isSymbol (v : Value F) (name : String) : Bool :=
  match v with
  | .symbol s _ => s = name
  | _ => false

def isParameter (p : Parameter F M) (name : String) : Bool :=
  match p.val with
  | .symbol s _ => s = name ∨ p.realName = name
  | _ => false

variable (prog : Program F M)

def ownerOrSelf (x : M) : M := (prog.owner x).getD x

variable (w : M → Bindings F M)

/-- The search of `lookup_cache_miss` for a name without a dot. A local without a
machine ends it. -/
def search (x : M) (name : String) : Option M :=
  if name = "SELF" ∨ name = prog.name x then
    some (if prog.isCondition x then ownerOrSelf prog x else x)
  else if name = "OWNER" then some (ownerOrSelf prog x)
  else
    match (w x).locals.find? (fun p => isSymbol p.val name) with
    | some p => p.machine
    | none =>
      ((w x).parameters.findSome? fun p => if isParameter p name then p.machine else none)
        <|> ((prog.classParameters x).zipIdx.findSome? fun (p, i) =>
          if isParameter p name then ((w x).parameters[i]?).bind Parameter.machine else none)
        <|> prog.machines name

def uncached (w : M → Bindings F M) (x : M) (name : String) : Option M :=
  match _h : splitDot name with
  | some (first, rest) =>
    match uncached w x first with
    | some y => uncached w y rest
    | none => none
  | none => search prog w x name
termination_by name.length
decreasing_by
  · exact (splitDot_length _h).1
  · exact (splitDot_length _h).2

variable [DecidableEq M]

def remember (x : M) (name : String) (found : Option M) : M → Bindings F M :=
  match found with
  | some m =>
    Function.update w x
      { w x with localisedNames := Function.update (w x).localisedNames name (some m) }
  | none => w

def lookup (w : M → Bindings F M) (x : M) (name : String) : Option M × (M → Bindings F M) :=
  match (w x).localisedNames name with
  | some m => (some m, w)
  | none =>
    match _h : splitDot name with
    | some (first, rest) =>
      match lookup w x first with
      | (some y, w') => lookup w' y rest
      | (none, w') => (none, w')
    | none => (search prog w x name, remember w x name (search prog w x name))
termination_by name.length
decreasing_by
  · exact (splitDot_length _h).1
  · exact (splitDot_length _h).2

def setLocals (x : M) (ls : List (Parameter F M)) : M → Bindings F M :=
  Function.update w x { w x with locals := ls }

def setParameters (x : M) (ps : List (Parameter F M)) : M → Bindings F M :=
  Function.update w x { w x with parameters := ps }

def forget (x : M) (name : String) : M → Bindings F M :=
  Function.update w x
    { w x with localisedNames := Function.update (w x).localisedNames name none }

/-- The member `sValue` of a value, empty if the value has no text. -/
def sValue : Value F → String
  | .symbol s _ => s
  | .string s => s
  | _ => ""

def addLocal (x : M) (param : Value F) (mi : Option M) : M → Bindings F M :=
  let w' := setLocals w x ((w x).locals ++ [⟨param, "", mi⟩])
  if mi = none ∧ param.kind = .symbol then (lookup prog w' x (sValue param)).2 else w'

def forgetLocal (x : M) (p : Parameter F M) : M → Bindings F M :=
  match p.machine with
  | some m => forget (forget w x (prog.name m)) x (sValue p.val)
  | none => forget w x (sValue p.val)

def removeLocal (x : M) (index : ℕ) : M → Bindings F M :=
  match (w x).locals[index]? with
  | none => w
  | some p => setLocals (forgetLocal prog w x p) x ((w x).locals.eraseIdx index)

/-- The entry that `addParameter` makes of a value. The machine comes from the caller,
from the cache of the value or from a lookup. The lookups inside `getValue` are calls of
their own before this one. -/
def makeParameter (x : M) (param : Value F) (cached mi : Option M) :
    Parameter F M × (M → Bindings F M) :=
  match mi with
  | some m => (⟨param, prog.fullName m, some m⟩, w)
  | none =>
    if param.kind = .symbol then
      let r :=
        match cached with
        | some m => (some m, w)
        | none => lookup prog w x (sValue param)
      match r with
      | (some m, w') => (⟨param, prog.fullName m, some m⟩, w')
      | (none, w') => (⟨prog.getValue w' x param, "", none⟩, w')
    else (⟨param, "", none⟩, w)

def addParameter (x : M) (param : Value F) (cached mi : Option M)
    (position : Int) (before : Bool) : Option (M → Bindings F M) :=
  let r := makeParameter prog w x param cached mi
  (Parameter.insert (r.2 x).parameters r.1 position before).map (setParameters r.2 x)

def removeParameter (x : M) (which : Int) : M → Bindings F M :=
  if which < 0 ∨ (w x).parameters.length ≤ which then w
  else setParameters w x ((w x).parameters.eraseIdx which.toNat)

inductive Event (F M : Type) where
  | lookup (x : M) (name : String)
  | addLocal (x : M) (param : Value F) (mi : Option M)
  | removeLocal (x : M) (index : ℕ)
  | addParameter (x : M) (param : Value F) (cached mi : Option M) (position : Int) (before : Bool)
  | removeParameter (x : M) (which : Int)

inductive Step : (M → Bindings F M) → Event F M → (M → Bindings F M) → Prop
  | lookup (w : M → Bindings F M) (x : M) (name : String) :
      Step w (.lookup x name) (lookup prog w x name).2
  | addLocal (w : M → Bindings F M) (x : M) (param : Value F) (mi : Option M) :
      Step w (.addLocal x param mi) (addLocal prog w x param mi)
  | removeLocal (w : M → Bindings F M) (x : M) (index : ℕ) :
      Step w (.removeLocal x index) (removeLocal prog w x index)
  | addParameter {w w' : M → Bindings F M} {x : M} {param : Value F} {cached mi : Option M}
      {position : Int} {before : Bool}
      (h : addParameter prog w x param cached mi position before = some w') :
      Step w (.addParameter x param cached mi position before) w'
  | removeParameter (w : M → Bindings F M) (x : M) (which : Int) :
      Step w (.removeParameter x which) (removeParameter w x which)

end Clockwork.Lookup
