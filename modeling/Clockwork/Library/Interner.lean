import Mathlib.Logic.Function.Basic
import Mathlib.Data.Nat.Notation

namespace Interner

variable {α : Type}

/-- The numbers given so far. No number is 0, and no two names have the same one. -/
structure Table (α : Type) where
  ids : α → Option ℕ
  next : ℕ
  bounded : ∀ a n, ids a = some n → 0 < n ∧ n ≤ next
  injective : ∀ a b n, ids a = some n → ids b = some n → a = b

namespace Table

def empty : Table α where
  ids _ := none
  next := 0
  bounded _ _ h := absurd h (by simp)
  injective _ _ _ h := absurd h (by simp)

variable [DecidableEq α] (t : Table α) (a : α)

def add : Table α where
  ids := Function.update t.ids a (some (t.next + 1))
  next := t.next + 1
  bounded b n hb := by
    by_cases hab : b = a
    · rw [hab, Function.update_self] at hb
      cases hb
      omega
    · rw [Function.update_of_ne hab] at hb
      have := t.bounded b n hb
      omega
  injective b c n hb hc := by
    have hnew {d : α} (hd : t.ids d = some n) : n ≤ t.next := (t.bounded d n hd).2
    by_cases hba : b = a
    · by_cases hca : c = a
      · rw [hba, hca]
      · rw [hba, Function.update_self] at hb
        rw [Function.update_of_ne hca] at hc
        have hn := Option.some.inj hb
        have := hnew hc
        omega
    · rw [Function.update_of_ne hba] at hb
      by_cases hca : c = a
      · rw [hca, Function.update_self] at hc
        have hn := Option.some.inj hc
        have := hnew hb
        omega
      · rw [Function.update_of_ne hca] at hc
        exact t.injective b c n hb hc

def intern : Table α × ℕ :=
  match t.ids a with
  | some n => (t, n)
  | none => (t.add a, t.next + 1)

theorem ids_intern_self : (t.intern a).1.ids a = some (t.intern a).2 := by
  unfold intern
  split
  · next n h => exact h
  · exact Function.update_self a _ _

variable {t}

theorem ids_intern_of_eq_some {b : α} {n : ℕ} (h : t.ids b = some n) :
    (t.intern a).1.ids b = some n := by
  unfold intern
  split
  · exact h
  · next hnon =>
    have hne : b ≠ a := by
      rintro rfl
      rw [h] at hnon
      cases hnon
    exact (Function.update_of_ne hne _ _).trans h

omit [DecidableEq α] in
theorem eq_iff_of_ids {a b : α} {m n : ℕ} (ha : t.ids a = some m) (hb : t.ids b = some n) :
    m = n ↔ a = b := by
  constructor
  · rintro rfl
    exact t.injective a b m ha hb
  · rintro rfl
    exact Option.some.inj (ha.symm.trans hb)

omit [DecidableEq α] in
theorem ids_ne_zero : t.ids a ≠ some 0 := fun h => absurd (t.bounded a 0 h).1 (Nat.lt_irrefl 0)

end Table

end Interner
