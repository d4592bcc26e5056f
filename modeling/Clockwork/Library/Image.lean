import Mathlib.Data.List.Basic

namespace Image

open List BitVec

abbrev Byte := BitVec 8

def setBit (q : Byte) (j : ℕ) (v : Bool) : Byte :=
  if v then q ||| (1#8 <<< j) else q &&& ~~~(1#8 <<< j)

variable {j b i : ℕ} {im : List Byte}

theorem getLsbD_one_shiftLeft (hj : j < 8) (i : ℕ) : (1#8 <<< j).getLsbD i = decide (i = j) := by
  by_cases hij : i = j
  · subst hij
    simp [hj]
  · by_cases hlt : i < j
    · simp [hij, hlt]
    · have h0 : i - j ≠ 0 := by omega
      simp [hij, h0]

theorem getLsbD_setBit (q : Byte) (hj : j < 8) (v : Bool) (i : ℕ) :
    (setBit q j v).getLsbD i = if i = j then v else q.getLsbD i := by
  cases v with
  | true =>
    rw [setBit, if_pos rfl, getLsbD_or, getLsbD_one_shiftLeft hj]
    by_cases hij : i = j <;> simp [hij]
  | false =>
    rw [setBit, if_neg Bool.false_ne_true, getLsbD_and, getLsbD_not, getLsbD_one_shiftLeft hj]
    by_cases hij : i = j
    · simp [hij]
    · by_cases hi : i < 8
      · simp [hij, hi]
      · simp [hij, getLsbD_of_ge q i (by omega)]

theorem setBit_getLsbD (q : Byte) (hj : j < 8) : setBit q j (q.getLsbD j) = q := by
  refine eq_of_getLsbD_eq fun k _ => ?_
  rw [getLsbD_setBit _ hj]
  split
  · next hk => rw [hk]
  · rfl

def byte (im : List Byte) (i : ℕ) : Byte := im.getD i 0

/-- Bits are numbered through all bytes, from the least significant bit of each. -/
def bit (im : List Byte) (b : ℕ) : Bool := (byte im (b / 8)).getLsbD (b % 8)

theorem bit_eq (hb : b = 8 * i + j) (hj : j < 8) : bit im b = (byte im i).getLsbD j := by
  subst hb
  rw [bit, show (8 * i + j) / 8 = i by omega, show (8 * i + j) % 8 = j by omega]

theorem byte_eq {x y : List Byte} (h : ∀ j < 8, bit x (8 * i + j) = bit y (8 * i + j)) :
    byte x i = byte y i := by
  refine eq_of_getLsbD_eq fun j hj => ?_
  rw [← bit_eq rfl hj, ← bit_eq rfl hj, h j hj]

theorem ext {x y : List Byte} (hlen : x.length = y.length) (h : ∀ b, bit x b = bit y b) :
    x = y := by
  refine ext_getElem hlen fun i hx hy => ?_
  have hbyt : byte x i = byte y i := byte_eq fun j _ => h _
  simpa [byte, hx, hy] using hbyt

theorem bit_of_le (h : 8 * im.length ≤ b) : bit im b = false := by
  have hout : im.length ≤ b / 8 := by omega
  simp [bit, byte, hout]

theorem bit_replicate_zero (n b : ℕ) : bit (replicate n 0) b = false := by
  simp [bit, byte, getD_eq_getElem?_getD, getElem?_replicate]
  split <;> simp

theorem bit_replicate {n b : ℕ} (hb : b < 8 * n) (x : Byte) :
    bit (replicate n x) b = x.getLsbD (b % 8) := by
  have hlt : b / 8 < n := by omega
  simp [bit, byte, getD_eq_getElem?_getD, hlt]

theorem byte_set (hi : i < im.length) (x : Byte) (k : ℕ) :
    byte (im.set i x) k = if k = i then x else byte im k := by
  by_cases hk : k = i
  · subst hk
    simp [byte, getD_eq_getElem?_getD, hi]
  · simp [byte, getD_eq_getElem?_getD, getElem?_set_ne (Ne.symm hk), hk]

theorem set_byte (hi : i < im.length) : im.set i (byte im i) = im := by
  refine ext (length_set ..) fun b => ?_
  rw [bit, byte_set hi]
  split
  · next hb => rw [bit, hb]
  · rfl

theorem bit_set_or {i k : ℕ} (hi : i < im.length) (hk : k < 8) (b : ℕ) :
    bit (im.set i (byte im i ||| (1#8 <<< k))) b = (bit im b || decide (b = 8 * i + k)) := by
  rw [bit, byte_set hi]
  by_cases hb : b / 8 = i
  · have hbk : b % 8 = k ↔ b = 8 * i + k := by omega
    rw [if_pos hb, getLsbD_or, getLsbD_one_shiftLeft hk, bit, hb, decide_eq_decide.mpr hbk]
  · have hne : b ≠ 8 * i + k := by omega
    simp [hb, hne, bit]

def toLE {w : ℕ} (n : ℕ) (x : BitVec w) : List Byte :=
  (List.range n).map fun k => x.extractLsb' (8 * k) 8

def ofLE (w : ℕ) : List Byte → BitVec w
  | [] => 0
  | x :: xs => x.setWidth w ||| (ofLE w xs <<< 8)

/-- Writes bytes over those from `i` on; outside of the image there is nothing to write to. -/
def write (im : List Byte) (i : ℕ) (xs : List Byte) : Option (List Byte) :=
  if i + xs.length ≤ im.length then some (im.take i ++ xs ++ im.drop (i + xs.length)) else none

def read (im : List Byte) (i n : ℕ) : Option (List Byte) :=
  if i + n ≤ im.length then some ((im.drop i).take n) else none

theorem write_isSome {xs : List Byte} (h : i + xs.length ≤ im.length) :
    ∃ im', write im i xs = some im' := ⟨_, if_pos h⟩

theorem write_spec {im im' : List Byte} {xs : List Byte} (h : write im i xs = some im') :
    im'.length = im.length ∧ ∀ b, bit im' b =
      if 8 * i ≤ b ∧ b < 8 * (i + xs.length) then bit xs (b - 8 * i) else bit im b := by
  unfold write at h
  split at h
  · next hlen =>
    cases h
    refine ⟨by simp; omega, fun b => ?_⟩
    have hbyt : byte (im.take i ++ xs ++ im.drop (i + xs.length)) (b / 8) =
        if 8 * i ≤ b ∧ b < 8 * (i + xs.length) then byte xs (b / 8 - i) else byte im (b / 8) := by
      simp only [byte, getD_eq_getElem?_getD, getElem?_append, length_append,
        length_take, getElem?_take, getElem?_drop]
      rcases Nat.lt_or_ge b (8 * i) with hlow | hlow
      · rw [if_pos (by omega), if_pos (by omega), if_pos (by omega), if_neg (by omega)]
      · rcases Nat.lt_or_ge b (8 * (i + xs.length)) with hhig | hhig
        · rw [if_pos (by omega), if_neg (by omega), if_pos ⟨hlow, hhig⟩, Nat.min_eq_left (by omega)]
        · rw [if_neg (by omega), if_neg (by omega)]
          congr 2
          omega
    rw [bit, hbyt]
    split
    · have hdiv : (b - 8 * i) / 8 = b / 8 - i := by omega
      have hmod : (b - 8 * i) % 8 = b % 8 := by omega
      rw [bit, hdiv, hmod]
    · rfl
  · cases h

theorem read_spec {i n : ℕ} (h : i + n ≤ im.length) :
    ∃ xs, read im i n = some xs ∧ xs.length = n ∧ ∀ b < 8 * n, bit xs b = bit im (8 * i + b) := by
  refine ⟨_, if_pos h, by simp; omega, fun b hb => ?_⟩
  have hdiv : (8 * i + b) / 8 = i + b / 8 := by omega
  have hmod : (8 * i + b) % 8 = b % 8 := by omega
  rw [bit, bit, hdiv, hmod]
  simp only [byte, getD_eq_getElem?_getD, getElem?_take, getElem?_drop]
  rw [if_pos (by omega)]

theorem length_toLE {w : ℕ} (n : ℕ) (x : BitVec w) : (toLE n x).length = n := by
  simp [toLE]

theorem bit_toLE {w : ℕ} (n : ℕ) (x : BitVec w) (hb : b < 8 * n) :
    bit (toLE n x) b = x.getLsbD b := by
  have hbyt : byte (toLE n x) (b / 8) = x.extractLsb' (8 * (b / 8)) 8 := by
    have hlt : b / 8 < n := by omega
    simp [byte, toLE, getD_eq_getElem?_getD, hlt]
  have hmod : b % 8 < 8 := Nat.mod_lt b (by decide)
  rw [bit, hbyt, getLsbD_extractLsb', Nat.div_add_mod]
  simp [hmod]

theorem bit_cons (x : Byte) (xs : List Byte) (b : ℕ) :
    bit (x :: xs) b = if b < 8 then x.getLsbD b else bit xs (b - 8) := by
  split
  · next hb => rw [bit_eq (i := 0) (j := b) (by omega) hb]; rfl
  · next hb =>
    have hdiv : b / 8 = (b - 8) / 8 + 1 := by omega
    have hmod : b % 8 = (b - 8) % 8 := by omega
    rw [bit, hdiv, hmod]
    rfl

theorem getLsbD_ofLE (w : ℕ) (xs : List Byte) (b : ℕ) :
    (ofLE w xs).getLsbD b = (decide (b < w) && bit xs b) := by
  induction xs generalizing b with
  | nil => simp [ofLE, bit, byte]
  | cons x xs ih =>
    rw [ofLE, getLsbD_or, getLsbD_shiftLeft, ih, bit_cons]
    rcases Nat.lt_or_ge b 8 with hb | hb
    · simp [hb]
    · have hx : x.getLsbD b = false := getLsbD_of_ge x b hb
      have hnot : ¬b < 8 := by omega
      by_cases hw : b < w
      · have hw' : b - 8 < w := by omega
        simp [hx, hnot, hw, hw']
      · simp [hw]

end Image
