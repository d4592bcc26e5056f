import Clockwork.Library.Image
import Mathlib.Algebra.Group.Nat.Defs

namespace Clockwork.IOComponent

open Image (Byte bit byte)

structure IOAddress where
  ioOffset : ℕ
  ioBitpos : ℕ
  bitlen : ℕ
  isSigned : Bool
deriving DecidableEq, Repr

namespace IOAddress

variable (a : IOAddress)

def start : ℕ := 8 * a.ioOffset + a.ioBitpos

def Owns (b : ℕ) : Prop := a.start ≤ b ∧ b < a.start + a.bitlen

instance (b : ℕ) : Decidable (a.Owns b) := inferInstanceAs (Decidable (_ ∧ _))

/-- `offset += bitpos / 8` on an `unsigned int`. -/
def firstByte : ℕ := (a.ioOffset + a.ioBitpos / 8) % 2 ^ 32

def lastByte : ℕ :=
  if 8 ≤ a.bitlen then (a.firstByte + (a.bitlen / 8 - 1)) % 2 ^ 32 else a.firstByte

/-- `offset * 8 + bitpos + i`: the whole bytes of `bitpos` are already in `offset`. -/
def indexOf (i : ℕ) : ℕ := (a.firstByte * 8 + a.ioBitpos + i) % 2 ^ 32

end IOAddress

structure Layout (C : Type) where
  queue : List C
  address : C → IOAddress
  ioName : C → String

structure IOMap (C : Type) where
  minOffset : ℕ
  maxOffset : ℕ
  indexedComponents : List (Option C)
  ioMap : List (List C)
  processMask : List Byte
deriving DecidableEq, Repr

variable {C : Type}

def IOMap.processDataSize (map : IOMap C) : ℕ := map.maxOffset + 1

def IOMap.index (map : IOMap C) (b : ℕ) : Option C := (map.indexedComponents[b]?).join

def setAt {α : Type} (xs : List α) (i : ℕ) (x : α) : Option (List α) :=
  if i < xs.length then some (xs.set i x) else none

variable (L : Layout C)

def widen (r : ℕ × ℕ) (c : C) : Option (ℕ × ℕ) :=
  let a := L.address c
  let minOffset := if a.firstByte < r.1 then a.firstByte else r.1
  let maxOffset := if r.2 < a.lastByte then a.lastByte else r.2
  -- `assert(max_offset < 10000)`
  if maxOffset < 10000 then some (minOffset, maxOffset) else none

def findOffsets : Option (ℕ × ℕ) := do
  let r ← L.queue.foldlM (widen L) (1000000, 0)
  some (if r.2 < r.1 then (r.2, r.2) else r)

def indexComponent (a : IOAddress) (c : C) (index : List (Option C)) : Option (List (Option C)) :=
  (List.range a.bitlen).foldlM (fun index i => setAt index (a.indexOf i) (some c)) index

/-- A component is listed at its first byte only: `bytes` is always 1. -/
def listComponent (a : IOAddress) (c : C) (ioMap : List (List C)) : Option (List (List C)) :=
  setAt ioMap a.firstByte (ioMap.getD a.firstByte [] ++ [c])

def enterComponent (maps : List (Option C) × List (List C)) (c : C) :
    Option (List (Option C) × List (List C)) :=
  if L.ioName c = "" then some maps
  else do
    let index ← indexComponent (L.address c) c maps.1
    let ioMap ← listComponent (L.address c) c maps.2
    some (index, ioMap)

def markBits : ℕ → ℕ → Byte → List Byte → Option (List Byte)
  | 0, _, _, res => some res
  | n + 1, offset, mask, res => do
    let res ← setAt res offset (byte res offset ||| mask)
    if mask <<< 1 = 0 then markBits n (offset + 1) 1 res else markBits n offset (mask <<< 1) res

def markComponent (a : IOAddress) (res : List Byte) : Option (List Byte) :=
  markBits a.bitlen a.firstByte (1#8 <<< (a.ioBitpos % 8)) res

def generateProcessMask (size : ℕ) : Option (List Byte) :=
  L.queue.foldlM (fun res c => markComponent (L.address c) res) (List.replicate size 0)

def setupIOMap : Option (IOMap C) := do
  let (minOffset, maxOffset) ← findOffsets L
  let (index, ioMap) ← L.queue.foldlM (enterComponent L)
    (List.replicate ((maxOffset + 1) * 8) none, List.replicate (maxOffset + 1) [])
  let processMask ← generateProcessMask L (maxOffset + 1)
  some ⟨minOffset, maxOffset, index, ioMap, processMask⟩

end Clockwork.IOComponent
