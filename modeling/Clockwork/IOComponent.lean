import Clockwork.IOMap
import Mathlib.Data.Finset.Card

namespace Clockwork.IOComponent

open Image (Byte bit byte setBit)

variable {C M : Type}

inductive Direction where
  | input | output | bidirectional
deriving DecidableEq, Repr

inductive HardwareState where
  | preinit | init | operational
deriving DecidableEq, Repr

inductive Event where
  | on | off | change | none
deriving DecidableEq, Repr

structure Hardware (C M : Type) extends Layout C where
  direction : C → Direction
  isOutput : C → Bool
  owners : C → List M
  filter : C → BitVec 32 → BitVec 32
  regularPolls : C → Bool

structure Component where
  value : BitVec 32
  pendingValue : BitVec 32
  rawValue : BitVec 32
  lastEvent : Event
deriving DecidableEq, Repr

structure State (C : Type) where
  hardwareState : HardwareState
  processData : List Byte
  lastProcessData : Option (List Byte)
  updateData : Option (List Byte)
  defaultData : Option (List Byte)
  defaultMask : Option (List Byte)
  updatedComponentsIn : Finset C
  updatedComponentsOut : Finset C
  updatesSent : Bool
  outputsWaiting : ℕ
  component : C → Component

/-- `getUpdateData`: made from the process data when it is first needed. -/
def State.getUpdateData (s : State C) : List Byte := s.updateData.getD s.processData

section Requests

variable [DecidableEq C]

def State.setComponent (s : State C) (c : C) (k : Component) : State C :=
  { s with component := Function.update s.component c k }

def State.setEvent (s : State C) (c : C) (e : Event) : State C :=
  s.setComponent c { s.component c with lastEvent := e }

def markBit (a : IOAddress) (e : Event) (data : List Byte) : Option (List Byte × Bool) :=
  let offset := a.ioOffset + a.ioBitpos / 8
  let bitpos := a.ioBitpos % 8
  if offset < data.length then
    let value := (byte data offset).getLsbD bitpos
    if value = false ∧ e = .on then
      some (data.set offset (setBit (byte data offset) bitpos true), true)
    else if value = true ∧ e = .off then
      some (data.set offset (setBit (byte data offset) bitpos false), true)
    else some (data, false)
  else none

/-- Values are written in whole bytes; other lengths than these are not written. -/
def markValue (a : IOAddress) (x : BitVec 32) (data : List Byte) : Option (List Byte) :=
  let offset := a.ioOffset + a.ioBitpos / 8
  if a.bitlen = 8 then Image.write data offset (Image.toLE 1 x)
  else if a.bitlen = 16 then Image.write data offset (Image.toLE 2 x)
  else if a.bitlen = 32 then Image.write data offset (Image.toLE 4 x)
  else some data

def markChange (L : Layout C) (c : C) (s : State C) : Option (State C) :=
  let data := s.getUpdateData
  if (L.address c).bitlen = 1 then do
    let (data, changed) ← markBit (L.address c) (s.component c).lastEvent data
    some (({ s with
      updateData := some data
      updatesSent := if changed then false else s.updatesSent } : State C).setEvent c .none)
  else if (s.component c).lastEvent = .change then do
    let data ← markValue (L.address c) (s.component c).pendingValue data
    some (({ s with updateData := some data, updatesSent := false } : State C).setEvent c .none)
  else some { s with updateData := some data }

def State.enqueue (s : State C) (c : C) (e : Event) : State C :=
  ({ s with
    updatedComponentsOut := insert c s.updatedComponentsOut
    updatesSent := false
    outputsWaiting := s.outputsWaiting + 1 } : State C).setEvent c e

/-- The requests; `setValue` has an overload for each kind of value. -/
inductive Request where
  | turnOn
  | turnOff
  | setUnsigned (x : BitVec 32)
  | setSigned (x : BitVec 32)
deriving DecidableEq, Repr

def turnOn (hw : Hardware C M) (c : C) (s : State C) : Option (State C) :=
  if hw.isOutput c then markChange hw.toLayout c (s.enqueue c .on) else some s

def turnOff (hw : Hardware C M) (c : C) (s : State C) : Option (State C) :=
  if hw.isOutput c then markChange hw.toLayout c (s.enqueue c .off) else some s

/-- Both overloads of `setValue`: they assert that the address has their sign. -/
def setValue (L : Layout C) (isSigned : Bool) (c : C) (x : BitVec 32) (s : State C) :
    Option (State C) :=
  if (L.address c).isSigned = isSigned then
    markChange L c ((s.setComponent c { s.component c with pendingValue := x }).enqueue c .change)
  else none

def request (hw : Hardware C M) (c : C) : Request → State C → Option (State C)
  | .turnOn, s => turnOn hw c s
  | .turnOff, s => turnOff hw c s
  | .setUnsigned x, s => setValue hw.toLayout false c x s
  | .setSigned x, s => setValue hw.toLayout true c x s

def readBits : ℕ → ℕ → Byte → BitVec 32 → List Byte → Option (BitVec 32 × Byte)
  | 0, _, bitmask, val, _ => some (val, bitmask)
  | n + 1, offset, bitmask, val, im =>
    if offset < im.length then
      let val := val + (byte im offset &&& bitmask).setWidth 32
      if bitmask >>> 1 = 0 then readBits n (offset + 1) 0x80 val im
      else readBits n offset (bitmask >>> 1) val im
    else none

/-- `while (bitmask)`: a byte is zero after eight shifts. -/
def shiftDown : ℕ → Byte → BitVec 32 → BitVec 32
  | 0, _, val => val
  | n + 1, bitmask, val =>
    if bitmask = 0 then val else shiftDown n (bitmask >>> 1) (val.sshiftRight 1)

def readShort (offset bitpos bitlen : ℕ) (im : List Byte) : Option (BitVec 32) := do
  let (val, bitmask) ← readBits bitlen offset (0x8#8 >>> bitpos) 0 im
  some (shiftDown 8 bitmask val)

/-- The number that `handleChange` finds for a component of more than one bit. -/
def readValue (a : IOAddress) (im : List Byte) : Option (BitVec 32) :=
  let offset := a.ioOffset + a.ioBitpos / 8
  if a.bitlen < 8 then readShort offset (a.ioBitpos % 8) a.bitlen im
  else if a.bitlen = 8 then (Image.read im offset 1).map fun xs => (Image.ofLE 8 xs).signExtend 32
  else if a.bitlen = 16 then (Image.read im offset 2).map (Image.ofLE 32)
  else if a.bitlen = 32 then (Image.read im offset 4).map (Image.ofLE 32)
  else some 0

def changeMessages (hw : Hardware C M) (c : C) (old value : BitVec 32) : List (M × String) :=
  if old = value then []
  else
    ((hw.owners c).map fun o => (o, if old ≠ 0 then "on_leave" else "off_leave")) ++
      (hw.owners c).map fun o => (o, if value ≠ 0 then "on_enter" else "off_enter")

def handleChange (hw : Hardware C M) (c : C) (s : State C) : Option (State C × List (M × String)) :=
  let a := hw.address c
  let k := s.component c
  if a.bitlen = 1 then
    if a.ioOffset + a.ioBitpos / 8 < s.processData.length then
      let on := (byte s.processData (a.ioOffset + a.ioBitpos / 8)).getLsbD (a.ioBitpos % 8)
      let value : BitVec 32 := if on then 1 else 0
      some (s.setComponent c { k with value := value }, changeMessages hw c k.value value)
    else none
  else do
    let val ← readValue a s.processData
    if hw.regularPolls c then
      some (s.setComponent c { k with rawValue := val, value := val }, [])
    else if s.hardwareState = .init then some (s.setComponent c { k with rawValue := val }, [])
    else if s.hardwareState = .operational ∧ k.rawValue ≠ val then
      some (s.setComponent c { k with rawValue := val, value := hw.filter c val }, [])
    else some (s, [])

end Requests

def ownersEnabled (hw : Hardware C M) (enabled : M → Bool) (c : C) : Bool :=
  (hw.owners c).isEmpty || (hw.owners c).any enabled

structure Update where
  size : ℕ
  data : List Byte
  mask : List Byte
deriving DecidableEq, Repr

section Updates

variable [DecidableEq C]

/-- The components that wait, in the order of the queue. The order of the source is that of
their addresses; the mask does not depend on it. -/
def waiting (hw : Hardware C M) (s : State C) : List C :=
  hw.queue.filter (· ∈ s.updatedComponentsOut)

/-- No mask if nothing waits. Components whose owners are all disabled leave the queue, but
only after this mask. -/
def generateUpdateMask (hw : Hardware C M) (map : IOMap C) (enabled : M → Bool) (s : State C) :
    Option (Option (List Byte) × State C) :=
  if s.updatedComponentsOut = ∅ then some (none, s)
  else do
    let mask ← ((waiting hw s).filter fun c => hw.direction c ≠ .input).foldlM
      (fun res c => markComponent (hw.address c) res) (List.replicate map.processDataSize 0)
    some (some mask, { s with
      updatedComponentsOut := s.updatedComponentsOut.filter fun c => ownersEnabled hw enabled c })

def getUpdates (hw : Hardware C M) (map : IOMap C) (enabled : M → Bool) (s : State C) :
    Option (Option Update × State C) := do
  let (mask, s) ← generateUpdateMask hw map enabled s
  match mask with
  | none => some (none, s)
  | some mask =>
    some (some ⟨map.maxOffset - map.minOffset + 1, s.getUpdateData, mask⟩,
      { s with updateData := some s.getUpdateData })

end Updates

def copyByte (dest src mask : Byte) : Byte :=
  [7, 6, 5, 4, 3, 2, 1, 0].foldl
    (fun d j => if mask.getLsbD j then setBit d j (src.getLsbD j) else d) dest

def copyMaskedBits (dest src mask : List Byte) : List Byte :=
  List.zipWith (fun d x => copyByte d x.1 x.2) dest (src.zip mask)

variable (map : IOMap C)

def getDefaults (s : State C) : Option (Option Update × State C) :=
  if map.maxOffset < map.minOffset then some (none, s)
  else do
    let data ← s.defaultData
    let mask ← s.defaultMask
    let processData := copyMaskedBits s.processData data mask
    some (some ⟨map.maxOffset - map.minOffset + 1, processData, mask⟩,
      { s with processData := processData })

variable [DecidableEq C]

structure Scan (C : Type) where
  processData : List Byte
  justAdded : Option C
  updated : Finset C

/-- One bit of a byte that differs. Bits of the component that was looked at last, and bits
without a component, are merged and not reported. -/
def scanBit (p m : Byte) (i : ℕ) (r : Scan C) (j : ℕ) : Scan C :=
  if m.getLsbD j then
    let q := byte r.processData i
    let changed := p.getLsbD j != q.getLsbD j
    let processData :=
      if changed then r.processData.set i (setBit q j (p.getLsbD j)) else r.processData
    match map.index (8 * i + j) with
    | some c =>
      if r.justAdded = some c then { r with processData := processData }
      else ⟨processData, some c, if changed then insert c r.updated else r.updated⟩
    | none => { r with processData := processData }
  else r

def notifyComponentsAt (i : ℕ) (updated : Finset C) : Option (Finset C) :=
  if i ≤ map.maxOffset ∧ map.minOffset ≤ i then
    some (updated ∪ (map.ioMap.getD i []).toFinset)
  else none

/-- Until there is data to compare with, all components of a masked byte are notified. -/
def notifyFirst (first : Bool) (mask : List Byte) (i : ℕ) (updated : Finset C) :
    Option (Finset C) :=
  if first ∧ byte mask i ≠ 0 then notifyComponentsAt map i updated else some updated

def mergeByte (data mask : List Byte) (i : ℕ) (r : Scan C) : Scan C :=
  if byte data i ≠ byte r.processData i ∧ byte mask i ≠ 0 then
    (List.range 8).foldl (scanBit map (byte data i) (byte mask i) i) r
  else r

def scanByte (first : Bool) (data mask : List Byte) (r : Scan C) (i : ℕ) : Option (Scan C) := do
  let updated ← notifyFirst map first mask i r.updated
  some (mergeByte map data mask i { r with updated := updated })

def scan (data mask : List Byte) (s : State C) : Option (Scan C) :=
  (List.range map.processDataSize).foldlM (scanByte map s.lastProcessData.isNone data mask)
    ⟨s.processData, none, s.updatedComponentsIn⟩

/-- The requests that remain after components were updated. Once the requests were sent, those
of the updated components are settled, and those that ask for the value that was read. -/
def State.settle (s : State C) (updated : Finset C) : Finset C :=
  if s.updatesSent then
    (s.updatedComponentsOut \ updated).filter fun c =>
      (s.component c).pendingValue ≠ (s.component c).value
  else s.updatedComponentsOut

/-- The end of `processAll`: nothing is counted when no component was updated. -/
def State.finish (s : State C) (updatedMachines : Finset C) : Finset C × State C :=
  if s.updatedComponentsIn = ∅ then (updatedMachines, s)
  else
    (updatedMachines ∪ s.updatedComponentsIn,
      { s with
        updatedComponentsIn := ∅
        updatedComponentsOut := s.settle s.updatedComponentsIn
        outputsWaiting := (s.settle s.updatedComponentsIn).card })

def processAll (mask data : List Byte) (updatedMachines : Finset C)
    (s : State C) : Option (Finset C × State C) :=
  if data.length = map.processDataSize ∧ mask.length = map.processDataSize then
    if s.hardwareState = .preinit then some (updatedMachines, { s with processData := data })
    else do
      let r ← scan map data mask s
      some (({ s with
        processData := r.processData
        lastProcessData :=
          if s.hardwareState = .operational then some r.processData else s.lastProcessData
        updatedComponentsIn := r.updated } : State C).finish updatedMachines)
  else none

end Clockwork.IOComponent
