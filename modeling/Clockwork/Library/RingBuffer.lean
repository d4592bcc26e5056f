import Mathlib.Algebra.BigOperators.Group.List.Basic
import Mathlib.Algebra.Group.Int.Defs
import Mathlib.Data.List.Basic
import Mathlib.Data.Int.Cast.Basic
import Mathlib.Logic.Function.Basic

/-- An array with the places of its newest and its oldest item, which are -1 while there is none.
The cells that hold no item have some content. -/
structure RingBuffer (α : Type*) where
  size : ℕ
  front : ℤ
  back : ℤ
  cells : ℤ → α

namespace RingBuffer

open List

variable {α : Type*}

def new (size : ℕ) (cells : ℤ → α) : RingBuffer α := ⟨size, -1, -1, cells⟩

variable (r : RingBuffer α)

def length : ℤ :=
  if r.front = -1 then 0 else (r.front - r.back + r.size) % r.size + 1

/-- The place of the item `i` steps before the newest one. -/
def place (i : ℤ) : ℤ := (r.front + r.size - i) % r.size

def next : ℤ := (r.front + 1) % r.size

/-- The place before another, found by counting down. -/
def prev (i : ℤ) : ℤ := if i - 1 = -1 then (r.size : ℤ) - 1 else i - 1

def push (a : α) : RingBuffer α where
  size := r.size
  front := r.next
  back := if r.next = r.back ∨ r.back = -1 then (r.back + 1) % r.size else r.back
  cells := Function.update r.cells r.next a

/-- The ring holds the items, newest first. -/
structure Holds (xs : List α) : Prop where
  size : 0 < r.size
  empty : xs = [] → r.front = -1 ∧ r.back = -1
  front : xs ≠ [] → r.front = r.place 0
  back : xs ≠ [] → r.back = r.place (xs.length - 1)
  length_le : xs.length ≤ r.size
  cells : ∀ (i : ℕ) (h : i < xs.length), r.cells (r.place i) = xs[i]

variable {r : RingBuffer α} {xs : List α}

theorem next_eq : r.next = r.place (r.size - 1) := by
  rw [next, place]
  congr 1
  omega

theorem place_succ (i : ℤ) : (r.place (i + 1) + 1) % r.size = r.place i := by
  rw [place, Int.emod_add_emod, place]
  congr 1
  omega

theorem place_push (a : α) (i : ℤ) : (r.push a).place (i + 1) = r.place i := by
  change (r.next + r.size - (i + 1)) % r.size = _
  rw [next, Int.add_sub_assoc, Int.emod_add_emod, place]
  congr 1
  omega

theorem place_nonneg (h : 0 < r.size) (i : ℤ) : 0 ≤ r.place i :=
  Int.emod_nonneg _ (by omega)

theorem prev_place (h : 0 < r.size) (i : ℤ) : r.prev (r.place i) = r.place (i + 1) := by
  have h0 := place_nonneg h i
  have hlt : r.place i < r.size := Int.emod_lt_of_pos _ (by omega)
  have hpre : r.place (i + 1) = (r.place i - 1) % r.size := by
    rw [place, place, Int.emod_sub_emod, Int.sub_sub]
  rw [hpre, prev]
  split
  · rw [← Int.add_emod_right, Int.emod_eq_of_lt (by omega) (by omega)]
    omega
  · exact (Int.emod_eq_of_lt (by omega) (by omega)).symm

theorem place_inj {i j : ℤ} (hi : 0 ≤ i) (hisi : i < r.size) (hj : 0 ≤ j) (hjsi : j < r.size) :
    r.place i = r.place j ↔ i = j := by
  rw [place, place, Int.emod_sub_cancel_left, Int.emod_eq_of_lt hi hisi,
    Int.emod_eq_of_lt hj hjsi]

theorem new_holds {size : ℕ} (h : 0 < size) (cells : ℤ → α) : (new size cells).Holds [] where
  size := h
  empty _ := ⟨rfl, rfl⟩
  front h := absurd rfl h
  back h := absurd rfl h
  length_le := Nat.zero_le _
  cells _ h := absurd h (Nat.not_lt_zero _)

namespace Holds

theorem length_eq (h : r.Holds xs) : r.length = xs.length := by
  by_cases hnil : xs = []
  · simp [RingBuffer.length, (h.empty hnil).1, hnil]
  · have h0 := place_nonneg h.size 0
    have hle := h.length_le
    have hpos := length_pos_iff.mpr hnil
    have hfro := h.front hnil
    rw [RingBuffer.length, if_neg (by omega), Int.add_emod_right, hfro, h.back hnil, place, place,
      Int.emod_sub_emod, Int.sub_emod_emod, Int.emod_eq_of_lt (by omega) (by omega)]
    omega

/-- Only a full ring overwrites an item, the oldest one. -/
theorem next_eq_back_iff (h : r.Holds xs) : r.next = r.back ↔ xs.length = r.size := by
  have hsiz := h.size
  rw [next_eq]
  by_cases hnil : xs = []
  · have h0 := place_nonneg hsiz (r.size - 1)
    rw [(h.empty hnil).2, hnil, length_nil]
    omega
  · have hpos := length_pos_iff.mpr hnil
    have hle := h.length_le
    rw [h.back hnil, place_inj (by omega) (by omega) (by omega) (by omega)]
    omega

theorem push (h : r.Holds xs) (a : α) : (r.push a).Holds ((a :: xs).take r.size) := by
  have hsiz := h.size
  have hle := h.length_le
  have hlen : ((a :: xs).take r.size).length = min r.size (xs.length + 1) := by simp
  have hfro : (r.push a).front = (r.push a).place 0 := by
    change r.next = (r.next + r.size - 0) % r.size
    rw [Int.sub_zero, Int.add_emod_right, next, Int.emod_emod]
  have hful := h.next_eq_back_iff
  refine ⟨hsiz, fun hnil => ?_, fun _ => hfro, fun _ => ?_, hlen ▸ Nat.min_le_left _ _,
    fun i hi => ?_⟩
  · simp at hnil
    omega
  · change (if r.next = r.back ∨ r.back = -1 then (r.back + 1) % r.size else r.back) = _
    by_cases hnil : xs = []
    · obtain ⟨hf, hb⟩ := h.empty hnil
      have hone : ((a :: xs).take r.size).length = 1 := by
        rw [hlen, hnil]
        exact Nat.min_eq_right hsiz
      rw [hone, if_pos (.inr hb), hb, ← hf]
      exact hfro
    · have hbac := h.back hnil
      have h0 := place_nonneg hsiz (xs.length - 1)
      by_cases heq : xs.length = r.size
      · rw [hlen, if_pos (.inl (hful.mpr heq)), hbac, ← heq, Nat.min_eq_left (by omega),
          ← Int.sub_add_cancel (xs.length - 1 : ℤ) 1, heq, place_succ, place_push]
      · rw [hlen, if_neg (by omega), hbac, Nat.min_eq_right (by omega), Int.natCast_succ,
          Int.add_sub_cancel, ← place_push a, Int.sub_add_cancel]
  · cases i with
    | zero =>
      rw [Int.natCast_zero, ← hfro]
      simp [RingBuffer.push]
    | succ i =>
      have hne : r.place i ≠ r.next := by
        rw [next_eq, Ne, place_inj (by omega) (by omega) (by omega) (by omega)]
        omega
      rw [Int.natCast_succ, place_push, getElem_take, getElem_cons_succ, ← h.cells i (by omega)]
      exact Function.update_of_ne hne a r.cells

/-- A running total that is kept along with the items. -/
theorem push_total {A : Type*} [AddCommGroup A] (h : r.Holds xs) (val : α → A) (a : α) :
    (if r.next = r.back then (xs.map val).sum - val (r.cells r.next) else (xs.map val).sum) +
      val a = (((a :: xs).take r.size).map val).sum := by
  have hful := h.next_eq_back_iff
  by_cases heq : xs.length = r.size
  · obtain rfl | ⟨ys, z, rfl⟩ := eq_nil_or_concat xs
    · exact absurd heq (Nat.ne_of_lt h.size)
    · have hcel := h.cells ys.length (by simp)
      have hbac : r.back = r.place ys.length := by
        rw [h.back (by simp)]
        simp
      rw [if_pos (hful.mpr heq), hful.mpr heq, hbac, hcel, ← heq]
      simp [add_comm]
  · have hle := h.length_le
    rw [take_of_length_le (by simp; omega)]
    simp [hful, heq, add_comm]

end Holds

/-- What holds the last items after each push holds the last ones of a whole list. -/
theorem foldl_last {S A : Type*} {f : S → A → S} {g : A → α} {Hold : S → List α → Prop} {n : ℕ}
    (step : ∀ s xs a, Hold s xs → Hold (f s a) ((g a :: xs).take n)) (as : List A) {s : S}
    (h : Hold s xs) (hlen : xs.length ≤ n) :
    Hold (as.foldl f s) (((as.map g).reverse ++ xs).take n) := by
  induction as generalizing s xs with
  | nil => simpa [take_of_length_le hlen] using h
  | cons a as ih =>
    have hfed := ih (step s xs a h) (length_take_le _ _)
    rw [take_append, take_take, Nat.min_eq_left (Nat.sub_le _ _), ← take_append] at hfed
    simpa using hfed

end RingBuffer
