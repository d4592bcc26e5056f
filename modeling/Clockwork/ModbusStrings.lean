import Clockwork.ModbusServer

namespace Clockwork.ModbusServer

inductive Registers where
  | input
  | holding
deriving DecidableEq

/-- The register tables byte by byte; the low byte of a register comes first. -/
abbrev Bytes := Registers → ℕ → UInt8

/-- The copy loop of `insert`: `q` receives each pair of characters in the other order. -/
def swapPairs : List UInt8 → List UInt8
  | a :: b :: rest => b :: a :: swapPairs rest
  | _ => []

/-- The bytes stored one after the other by `insert` for a string, whose length is passed with
its NUL counted. -/
def written (value : List UInt8) : List UInt8 :=
  swapPairs (value ++ [0]) ++ 0 :: if (value.length + 1) % 2 = 1 then [0] else []

def store (table : ℕ → UInt8) (addr : ℕ) (bytes : List UInt8) (k : ℕ) : UInt8 :=
  if addr ≤ k then bytes[k - addr]?.getD (table k) else table k

/-- `insert` as `UPDATE` calls it; `none` is a write behind the table. -/
def insert (tables : Bytes) (group : Registers) (addr : ℕ) (value : List UInt8) : Option Bytes :=
  if 2 * addr + (written value).length ≤ 2 * tableSize then
    some (Function.update tables group (store (tables group) (2 * addr) (written value)))
  else none

/-- The place of a character of the string, counted from the start of the first register. -/
def swapped (j : ℕ) : ℕ := if j % 2 = 0 then j + 1 else j - 1

/-- The registers from `addr` on hold the string and its NUL, cut to `n` registers; the other
registers keep their values. -/
structure Holds (before after : Bytes) (group : Registers) (addr n : ℕ) (value : List UInt8) :
    Prop where
  content : ∀ j < 2 * n, ∀ b ∈ (value ++ [0])[j]?, after group (2 * addr + swapped j) = b
  frame : ∀ g k, (g = group → k < 2 * addr ∨ 2 * (addr + n) ≤ k) → after g k = before g k

@[simp] theorem written_cons_cons (a b : UInt8) (value : List UInt8) :
    written (a :: b :: value) = b :: a :: written value := by
  have hpar : (value.length + 1 + 1 + 1) % 2 = (value.length + 1) % 2 := by omega
  simp [written, swapPairs, hpar]

theorem length_written (value : List UInt8) : (written value).length = value.length + 2 := by
  induction value using List.twoStepInduction with
  | nil => rfl
  | singleton a => simp [written, swapPairs]
  | cons_cons a b value ih => simp [ih]

theorem written_swapped {value : List UInt8} {j : ℕ} (hj : j ≤ value.length) :
    (written value)[swapped j]? = (value ++ [0])[j]? := by
  induction value using List.twoStepInduction generalizing j with
  | nil =>
    obtain rfl := Nat.le_zero.mp hj
    rfl
  | singleton a =>
    obtain rfl | rfl := Nat.le_one_iff_eq_zero_or_eq_one.mp hj
    · rfl
    · rfl
  | cons_cons a b value ih _ =>
    rcases j with _ | _ | j
    · rfl
    · rfl
    · have hswa : swapped (j + 1 + 1) = swapped j + 1 + 1 := by
        unfold swapped
        split_ifs <;> omega
      simpa [hswa] using ih (by simpa using hj)

theorem written_last (value : List UInt8) : (written value)[value.length + 1]? = some 0 := by
  induction value using List.twoStepInduction with
  | nil => rfl
  | singleton a => rfl
  | cons_cons a b value ih => simpa using ih

/-- Whatever the tables held, a string is stored as it should exactly when it leaves two bytes
of the export's registers free and these registers are in the table. -/
theorem insert_holds_iff (group : Registers) (addr n : ℕ) (value : List UInt8) :
    (∀ tables, ∃ after, insert tables group addr value = some after ∧
      Holds tables after group addr n value) ↔
    value.length + 2 ≤ 2 * n ∧ 2 * addr + value.length + 2 ≤ 2 * tableSize := by
  have hlen := length_written value
  constructor
  · intro h
    obtain ⟨after, hrun, hhol⟩ := h fun _ _ => 255
    unfold insert at hrun
    split at hrun
    · next hfit =>
      -- the last byte stored is a NUL, and outside the export nothing may change
      by_contra hlon
      have hkee := hhol.frame group (2 * addr + (value.length + 1)) fun _ => by omega
      rw [← Option.some.inj hrun, Function.update_self, store, if_pos (by omega),
        Nat.add_sub_cancel_left, written_last] at hkee
      exact absurd hkee (by simp)
    · exact absurd hrun (by simp)
  · rintro ⟨hn, hfit⟩ tables
    refine ⟨_, if_pos (by omega), ⟨fun j hj b hb => ?_, fun g k hk => ?_⟩⟩
    · have hlt := (List.getElem?_eq_some_iff.mp hb).1
      rw [List.length_append, List.length_singleton] at hlt
      rw [Function.update_self, store, if_pos (by omega), Nat.add_sub_cancel_left,
        written_swapped (by omega), hb, Option.getD_some]
    · rcases eq_or_ne g group with rfl | hg
      · rw [Function.update_self, store]
        split_ifs with hadd
        · rw [List.getElem?_eq_none (by have := hk rfl; omega), Option.getD_none]
        · rfl
      · rw [Function.update_of_ne hg]

/-- Two characters in a register of their own clear the register behind it. -/
theorem string_clears_next_register :
    ∃ after, insert (fun _ _ => 255) .holding 0 [97, 98] = some after ∧
      ¬Holds (fun _ _ => 255) after .holding 0 1 [97, 98] := by
  refine ⟨_, rfl, fun h => ?_⟩
  exact absurd (h.frame .holding 2 fun _ => by decide) (by decide)

end Clockwork.ModbusServer
