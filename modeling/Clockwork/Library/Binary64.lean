import Mathlib.Tactic.Positivity
import Mathlib.Tactic.Ring

namespace Binary64

def exponent (n : ℕ) : ℕ := n.log2 - 52

/-- The natural number nearest to `n` among those with 53 significant bits, the even one
between two of them. -/
def round (n : ℕ) : ℕ :=
  let e := exponent n
  let q := n / 2 ^ e
  let r := n % 2 ^ e
  (if 2 ^ e < 2 * r ∨ 2 ^ e = 2 * r ∧ q % 2 = 1 then q + 1 else q) * 2 ^ e

def Exact (n : ℕ) : Prop := ∃ m e, m < 2 ^ 53 ∧ n = m * 2 ^ e

variable (n : ℕ)

open Nat

theorem quotient_lt : n / 2 ^ exponent n < 2 ^ 53 := by
  have hlt : n < 2 ^ (n.log2 + 1) := lt_log2_self
  have hle : n.log2 + 1 ≤ exponent n + 53 := by
    unfold exponent
    omega
  apply Nat.div_lt_of_lt_mul
  calc n < 2 ^ (n.log2 + 1) := hlt
    _ ≤ 2 ^ (exponent n + 53) := Nat.pow_le_pow_right (by decide) hle
    _ = 2 ^ exponent n * 2 ^ 53 := pow_add 2 _ _

theorem exact_round : Exact (round n) := by
  have hq := quotient_lt n
  unfold round
  dsimp only
  split
  · rcases lt_or_ge (n / 2 ^ exponent n + 1) (2 ^ 53) with hlt | hge
    · exact ⟨_, _, hlt, rfl⟩
    · -- rounded up to a power of two
      have heq : n / 2 ^ exponent n + 1 = 2 ^ 53 := by omega
      refine ⟨2 ^ 52, exponent n + 1, by decide, ?_⟩
      rw [heq, pow_succ]
      ring
  · exact ⟨_, _, hq, rfl⟩

theorem round_of_exact {n : ℕ} (h : Exact n) : round n = n := by
  obtain ⟨m, k, hm, rfl⟩ := h
  have hdvd : 2 ^ exponent (m * 2 ^ k) ∣ m * 2 ^ k := by
    rcases Nat.eq_zero_or_pos m with rfl | hpos
    · simp
    · refine (pow_dvd_pow 2 ?_).trans (dvd_mul_left _ m)
      have hne : m * 2 ^ k ≠ 0 := by positivity
      have hlt : m * 2 ^ k < 2 ^ (53 + k) := by
        rw [pow_add]
        exact mul_lt_mul_of_pos_right hm (by positivity)
      have hlog := (log2_lt hne).mpr hlt
      unfold exponent
      omega
  have hzer : m * 2 ^ k % 2 ^ exponent (m * 2 ^ k) = 0 := mod_eq_zero_of_dvd hdvd
  unfold round
  dsimp only
  rw [if_neg (by omega)]
  exact Nat.div_mul_cancel hdvd

theorem round_eq_self_iff : round n = n ↔ Exact n := by
  constructor
  · intro h
    rw [← h]
    exact exact_round n
  · exact round_of_exact

theorem round_eq_zero_iff : round n = 0 ↔ n = 0 := by
  constructor
  · intro h
    by_contra hne
    have hle : 2 ^ exponent n ≤ n :=
      (Nat.pow_le_pow_right (by decide) (Nat.sub_le _ _)).trans (Nat.log2_self_le hne)
    have hq : 0 < n / 2 ^ exponent n := div_pos hle (by positivity)
    rcases Nat.mul_eq_zero.mp h with h | h
    · split at h <;> omega
    · exact absurd h (by positivity)
  · rintro rfl
    rfl

theorem round_le {n k : ℕ} (hk : 53 ≤ k) (hn : n < 2 ^ k) : round n ≤ 2 ^ k := by
  have he : exponent n ≤ k := by
    rcases Nat.eq_zero_or_pos n with rfl | hpos
    · simp [exponent]
    · have hlog := (log2_lt (by omega)).mpr hn
      unfold exponent
      omega
  have hspl : 2 ^ k = 2 ^ (k - exponent n) * 2 ^ exponent n := by
    rw [← pow_add]
    congr 1
    omega
  have hq : n / 2 ^ exponent n < 2 ^ (k - exponent n) := by
    apply Nat.div_lt_of_lt_mul
    rw [Nat.mul_comm, ← hspl]
    exact hn
  unfold round
  dsimp only
  rw [hspl]
  split
  · exact mul_le_mul_right _ hq
  · exact mul_le_mul_right _ hq.le

end Binary64
