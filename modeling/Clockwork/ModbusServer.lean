import Clockwork.MessageEncoding

namespace Clockwork.ModbusServer

open CJson MessageEncoding

def tableSize : ℕ := 10000

inductive Group where
  | coil
  | register
deriving DecidableEq, Repr

def Group.number : Group → ℕ
  | .coil => 0
  | .register => 4

structure State where
  tabBits : Fin tableSize → UInt8
  tabRegisters : Fin tableSize → UInt16
  activeAddresses : Finset (Group × ℕ)
  /-- the addresses that are true in `initialised_address` -/
  initialisedAddress : Finset (Group × ℕ)
  iodcmd : Bool
  /-- `insert` writes the entry of the table before it activates an address. -/
  active_lt : ∀ p ∈ activeAddresses, p.2 < tableSize

def entry {α : Type} (table : Fin tableSize → α) (addr : ℕ) : Option α :=
  if h : addr < tableSize then some (table ⟨addr, h⟩) else none

/-- The requests with the function codes 5, 6, 15 and 16. There are as many bytes of data as the
byte count of the request says; nothing ties them to the quantity. -/
inductive Request where
  | writeCoil (addr : UInt16) (hi lo : UInt8)
  | writeRegister (addr value : UInt16)
  | writeCoils (addr quantity : UInt16) (data : List UInt8)
  | writeRegisters (addr quantity : UInt16) (data : List UInt8)
deriving DecidableEq, Repr

def getInt (hi lo : UInt8) : ℕ := hi.toNat * 256 + lo.toNat

def bits (data : List UInt8) : List Bool :=
  data.flatMap fun byte => (List.range 8).map byte.toNat.testBit

def words : List UInt8 → List ℕ
  | hi :: lo :: data => getInt hi lo :: words data
  | _ => []

/-- The message that every `getIODSyncCommand` encodes. -/
def iodCommand (group : Group) (addr value : ℕ) : Text :=
  encodeParams (F := ℚ) "MODBUS" (.integer (Int64.ofNat group.number))
    (.integer (Int64.ofNat addr)) (.integer (Int64.ofNat value)) .empty

def sendIODMessage (iodcmd : Bool) (msg : Text) : List Text := if iodcmd then [msg] else []

def getIODSyncCommandBool (group : Group) (addr : ℕ) (which : Bool) : Text :=
  iodCommand group addr (if which then 1 else 0)

/-- `getIODSyncCommand` for an `int`: the command, and what has been sent meanwhile. -/
def getIODSyncCommandInt (iodcmd : Bool) (group : Group) (addr newValue : ℕ) : Text × List Text :=
  let msg := iodCommand group addr newValue
  (msg, sendIODMessage iodcmd msg)

def inform (iodcmd : Bool) (group : Group) (addr newValue : ℕ) : List Text :=
  let (cmd, sent) := getIODSyncCommandInt iodcmd group addr newValue
  sent ++ [cmd]

structure Work where
  initialisedAddress : Finset (Group × ℕ)
  sent : List Text
  iodSyncCommands : List Text

def Work.push (w : Work) (key : Group × ℕ) (cmd : Text) (sent : List Text) : Work where
  initialisedAddress := insert key w.initialisedAddress
  sent := w.sent ++ sent
  iodSyncCommands := w.iodSyncCommands ++ [cmd]

structure CoilLoop where
  addr : ℕ
  currCoil : ℕ
  work : Work

/-- One coil. Once there are enough of them, those that follow meet the same `break`. -/
def coilBit (s : State) (numCoils : ℕ) (byte : UInt8) (l : CoilLoop) (bit : ℕ) : Option CoilLoop :=
  if numCoils ≤ l.currCoil then some l
  else do
    let key := (Group.coil, l.addr)
    let work ←
      if key ∈ s.activeAddresses then do
        let val := byte.toNat &&& (1 <<< bit)
        let old ← entry s.tabBits l.addr
        if key ∉ l.work.initialisedAddress ∨ (val ≠ 0 ∧ old = 0) ∨ (val = 0 ∧ old ≠ 0) then
          some (l.work.push key (getIODSyncCommandBool .coil (l.addr + 1) (val ≠ 0)) [])
        else some l.work
      else some l.work
    some ⟨l.addr + 1, l.currCoil + 1, work⟩

def coilBytes (s : State) (numCoils : ℕ) (data : List UInt8) (l : CoilLoop) : Option CoilLoop :=
  data.foldlM (fun l byte => (List.range 8).foldlM (coilBit s numCoils byte) l) l

/-- The loop over `numWords` registers. Only an active one moves the cursor of the data. -/
def registerWords (s : State) : ℕ → ℕ → List UInt8 → Work → Option Work
  | 0, _, _, w => some w
  | numWords + 1, addr, data, w =>
    let key := (Group.register, addr)
    if key ∈ s.activeAddresses then
      match data with
      | hi :: lo :: data => do
        let val := getInt hi lo
        let old ← entry s.tabRegisters addr
        if key ∉ w.initialisedAddress ∨ val ≠ old.toNat then
          let (cmd, sent) := getIODSyncCommandInt s.iodcmd .register (addr + 1) val
          registerWords s numWords (addr + 1) data (w.push key cmd sent)
        else registerWords s numWords (addr + 1) data w
      -- beyond the bytes that were received
      | _ => none
    else registerWords s numWords (addr + 1) data w

/-- The tables of the mapping that `modbus_reply`, a function of libmodbus, may write. -/
abbrev Tables : Type := (Fin tableSize → UInt8) × (Fin tableSize → UInt16)

def State.reply (modbusReply : Tables → Request → Tables) (s : State) (r : Request) : State :=
  let tables := modbusReply (s.tabBits, s.tabRegisters) r
  { s with tabBits := tables.1, tabRegisters := tables.2 }

/-- The state after a request and what is sent to `iod`: first by `g_iodcmd`, then by the command
interface. -/
def serve (modbusReply : Tables → Request → Tables) (s : State) (r : Request) :
    Option (State × List Text) :=
  match r with
  | .writeCoil addr hi _ => do
    let ignoreCoilChange ← if hi = 0 then some false else (entry s.tabBits addr.toNat).map (· ≠ 0)
    let s := s.reply modbusReply r
    if ignoreCoilChange then some (s, [])
    else some (s, inform s.iodcmd .coil (addr.toNat + 1) (if hi = 0 then 0 else 1))
  | .writeRegister addr _ => do
    let s := s.reply modbusReply r
    let value ← entry s.tabRegisters addr.toNat
    some (s, inform s.iodcmd .register (addr.toNat + 1) value.toNat)
  | .writeCoils addr quantity data => do
    let l ← coilBytes s quantity.toNat data ⟨addr.toNat, 0, ⟨s.initialisedAddress, [], []⟩⟩
    let s := { s with initialisedAddress := l.work.initialisedAddress }.reply modbusReply r
    some (s, l.work.sent ++ l.work.iodSyncCommands)
  | .writeRegisters addr quantity data => do
    let w ← registerWords s quantity.toNat addr.toNat data ⟨s.initialisedAddress, [], []⟩
    let s := { s with initialisedAddress := w.initialisedAddress }.reply modbusReply r
    some (s, w.sent ++ w.iodSyncCommands)

end Clockwork.ModbusServer
