import Mathlib.Data.Int.Notation
import Mathlib.Tactic.Common

namespace Clockwork.ModbusAddress

inductive Group where
  | coil | discrete | none | inputRegister | holdingRegister | string
deriving DecidableEq, Repr

def Group.number : Group → ℤ
  | .coil => 0
  | .discrete => 1
  | .none => 2
  | .inputRegister => 3
  | .holdingRegister => 4
  | .string => 5

def toGroup (g : ℤ) : Group :=
  if g = 0 then .coil
  else if g = 1 then .discrete
  else if g = 3 then .inputRegister
  else if g = 4 then .holdingRegister
  else .none

inductive ExportType where
  | none | discrete | coil | reg | reg32 | rwReg | rwReg32 | float32 | str
deriving DecidableEq, Repr

inductive Source where
  | unknown | machine | state | command | property
deriving DecidableEq, Repr

/-- `ModbusAddress`; the offset is always 0. -/
structure Address (M : Type) where
  group : Group
  address : ℤ
  allocated : ℤ
  exportType : ExportType
  source : Source
  owner : Option M
  name : String
deriving DecidableEq, Repr

def Address.null {M : Type} : Address M := ⟨.none, 0, 0, .none, .unknown, .none, ""⟩

def firstAutoAddress : ℤ := 1000

def indexOf (g : Group) (address : ℤ) : ℤ := g.number * 65536 + address

def Address.index {M : Type} (a : Address M) : ℤ := indexOf a.group a.address

/-- The numbers of a line of the file of mappings. -/
structure Line where
  group : ℤ
  address : ℤ
  length : ℤ
deriving DecidableEq, Repr

/-- `ModbusAddressDetails`, whose members are of the type `short`. -/
structure Details where
  group : ℤ
  address : ℤ
  len : ℤ
deriving DecidableEq, Repr

def short (x : ℤ) : ℤ := Int.bmod x 65536

def Line.details (l : Line) : Details := ⟨short l.group, short l.address, short l.length⟩

abbrev Mapping := String → Option Details

def raise (highest : Group → ℤ) (l : Line) : Group → ℤ :=
  let g := toGroup l.group
  if highest g ≤ l.address then Function.update highest g (l.address + 1) else highest

def loadLine (r : Mapping × (Group → ℤ)) (line : String × Line) : Mapping × (Group → ℤ) :=
  if (r.1 line.1).isSome then r
  else (Function.update r.1 line.1 (some line.2.details), raise r.2 line.2)

def loadLines (lines : List (String × Line)) : Mapping × (Group → ℤ) :=
  lines.foldl loadLine (fun _ => none, fun _ => 0)

def mapping (lines : List (String × Line)) : Mapping := (loadLines lines).1

/-- The static members of `ModbusAddress`, and the `modbus_exports` of the machines. -/
structure State (M : Type) where
  next : Group → ℤ
  userMappings : ℤ → Option (Address M)
  automaticMappings : ℤ → Option (Address M)
  modbusExports : M × String → Option (Address M)

def load {M : Type} (lines : List (String × Line)) : State M where
  next g :=
    if firstAutoAddress ≤ (loadLines lines).2 g then (loadLines lines).2 g + 1
    else firstAutoAddress
  userMappings _ := none
  automaticMappings _ := none
  modbusExports _ := none

structure Call (M : Type) where
  machine : M
  name : String
  group : Group
  n : ℕ
  owner : M
  kind : ExportType
  source : Source
  fullName : String

variable {M : Type}

def Call.key (c : Call M) : M × String := (c.machine, c.name)

def Group.counter : Group → Option Group
  | .discrete => some .discrete
  | .coil => some .coil
  | .inputRegister => some .inputRegister
  | .holdingRegister => some .holdingRegister
  | .string => some .inputRegister
  | .none => Option.none

def advance (next : Group → ℤ) (a : Address M) : Group → ℤ :=
  match a.group with
  | .discrete =>
    if next .discrete ≤ a.address then Function.update next .discrete (a.address + 1) else next
  | .coil => if next .coil ≤ a.address then Function.update next .coil (a.address + 1) else next
  | .inputRegister =>
    if next .inputRegister ≤ a.address then
      Function.update next .inputRegister (a.address + a.allocated)
    else next
  | .holdingRegister =>
    if next .holdingRegister ≤ a.address then
      Function.update next .holdingRegister (a.address + a.allocated)
    else next
  | .string =>
    if next .holdingRegister ≤ a.address then
      Function.update next .holdingRegister (a.address + a.allocated)
    else next
  | .none => next

def State.record (w : State M) (a : Address M) : State M :=
  let w := { w with next := advance w.next a }
  if a.address < firstAutoAddress then
    { w with userMappings := Function.update w.userMappings a.index (some a) }
  else { w with automaticMappings := Function.update w.automaticMappings a.index (some a) }

/-- The address is recorded by the constructor and once more, in the same place. -/
def alloc (w : State M) (g : Group) (n : ℕ) (owner : M) (source : Source) (fullName : String)
    (kind : ExportType) : Address M × State M :=
  if n = 0 then (.null, w)
  else
    match g.counter with
    | none => (.null, w)
    | some counter =>
      let a : Address M := ⟨g, w.next counter, n, kind, source, some owner, fullName⟩
      (a, { w with next := Function.update w.next counter (w.next counter + n) }.record a)

def Call.preset (c : Call M) (d : Details) : Address M :=
  ⟨toGroup d.group, d.address, d.len, c.kind, c.source, some c.owner, c.fullName⟩

/-- `lookup`; an address that is not found is null. -/
def State.lookup (w : State M) (group : Group) (address : ℤ) : Address M :=
  match w.automaticMappings (indexOf group address) with
  | some a => a
  | none => (w.userMappings (indexOf group address)).getD .null

variable [DecidableEq M]

def State.addExport (w : State M) (key : M × String) (a : Address M) : State M :=
  { w with modbusExports := Function.update w.modbusExports key (some a) }

def addModbusExport (preset : Mapping) (w : State M) (c : Call M) : State M :=
  match preset c.fullName with
  | some d => (w.record (c.preset d)).addExport c.key (c.preset d)
  | none =>
    let (a, w) := alloc w c.group c.n c.machine c.source c.fullName c.kind
    w.addExport c.key a

end Clockwork.ModbusAddress
