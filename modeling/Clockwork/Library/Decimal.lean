import Mathlib.Tactic.IntervalCases

namespace Decimal

open Nat

theorem isDigit_of_mem {n : ℕ} {c : Char} (h : c ∈ toDigits 10 n) : c.isDigit = true :=
  isDigit_of_mem_toDigits (by decide) (by decide) h

theorem toDigits_head {n : ℕ} (hn : 0 < n) :
    ∃ c ds, toDigits 10 n = c :: ds ∧ '1' ≤ c ∧ c ≤ '9' := by
  induction n using Nat.strong_induction_on with
  | _ n ih =>
    rcases lt_or_ge n 10 with hlt | hge
    · rw [toDigits_of_lt_base hlt]
      refine ⟨n.digitChar, [], rfl, ?_⟩
      interval_cases n <;> decide
    · obtain ⟨c, ds, hds, hc⟩ := ih (n / 10) (by omega) (by omega)
      rw [toDigits_of_base_le (by decide) hge, hds]
      exact ⟨c, _, rfl, hc⟩

theorem length_toDigits_le {n k : ℕ} (h : n < 10 ^ (k + 1)) : (toDigits 10 n).length ≤ k + 1 := by
  induction k generalizing n with
  | zero => rw [toDigits_of_lt_base (by omega), List.length_singleton]
  | succ k ih =>
    rcases lt_or_ge n 10 with hlt | hge
    · rw [toDigits_of_lt_base hlt, List.length_singleton]
      omega
    · have hdiv : n / 10 < 10 ^ (k + 1) := by
        omega
      have hlen := ih hdiv
      rw [toDigits_of_base_le (by decide) hge, List.length_append, List.length_singleton]
      omega

theorem isDigit_head (n : ℕ) (rest : List Char) :
    ∃ c ∈ (toDigits 10 n ++ rest).head?, c.isDigit = true := by
  cases hds : toDigits 10 n with
  | nil => exact absurd hds toDigits_ne_nil
  | cons c ds => exact ⟨c, rfl, isDigit_of_mem (hds ▸ List.mem_cons_self)⟩

theorem head_ne (n : ℕ) (rest : List Char) {c : Char} (hc : c.isDigit = false) :
    (toDigits 10 n ++ rest).head? ≠ some c := by
  obtain ⟨d, hd, hdig⟩ := isDigit_head n rest
  intro h
  obtain rfl : d = c := Option.some.inj (hd.symm.trans h)
  rw [hc] at hdig
  cases hdig

theorem toList_toString (z : ℤ) :
    (toString z).toList = (if z < 0 then ['-'] else []) ++ toDigits 10 z.natAbs := by
  rw [Int.toString_eq_repr, Int.repr_eq_if]
  split
  · next h =>
    have habs : z.toNat = z.natAbs := by omega
    rw [if_neg (by omega), habs, repr_eq_ofList_toDigits, String.toList_ofList]
    rfl
  · next h =>
    have habs : (-z).toNat = z.natAbs := by omega
    rw [if_pos (by omega), habs, String.toList_append]
    exact congrArg _ String.toList_ofList

theorem isDigit_or_sign {z : ℤ} {c : Char} (h : c ∈ (toString z).toList) :
    c = '-' ∨ c.isDigit = true := by
  rw [toList_toString, List.mem_append] at h
  rcases h with h | h
  · split at h
    · exact .inl (List.mem_singleton.mp h)
    · cases h
  · exact .inr (isDigit_of_mem h)

end Decimal
