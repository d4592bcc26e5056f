import Clockwork.Library.Decimal
import Clockwork.Value
import Mathlib.Data.List.TakeWhile

namespace Clockwork

open List

theorem digitsValue_toDigits (n : ℕ) : digitsValue (Nat.toDigits 10 n) = n :=
  Nat.ofDigitChars_toDigits (by decide) (by decide)

theorem clampLong_toInt (i : Int64) : clampLong i.toInt = i := by
  have hlow := i.le_toInt
  have hhig := i.toInt_lt
  rw [clampLong, Int64.toInt_maxValue, Int64.toInt_minValue, if_neg (by omega), if_neg (by omega),
    Int64.ofInt_toInt]

variable {s : String} {c : Char}

theorem cStr_of_forall (h : ∀ c ∈ s.toList, c ≠ '\x00') : cStr s = s.toList :=
  takeWhile_eq_self_iff.mpr fun c hc => decide_eq_true (h c hc)

theorem isSpace_of_lt (h : 32 < c.toNat) : isSpace c = false := by
  have hbla : ¬c ≤ '\r' := fun hle => by
    have hhig : c.toNat ≤ 13 := hle
    omega
  have hspa : c ≠ ' ' := by
    rintro rfl
    exact absurd h (by decide)
  simp [isSpace, hbla, hspa]

theorem isSpace_of_isDigit (h : c.isDigit = true) : isSpace c = false := by
  simp only [Char.isDigit, Bool.and_eq_true, decide_eq_true_eq, ge_iff_le] at h
  have hlow : 48 ≤ c.toNat := h.1
  exact isSpace_of_lt (by omega)

theorem strtol_digits (negative : Bool) {ds : List Char} (hne : ds ≠ [])
    (hds : ∀ c ∈ ds, c.isDigit = true) (h : cStr s = (if negative then ['-'] else []) ++ ds) :
    strtol s = (clampLong (if negative then -(digitsValue ds : ℤ) else digitsValue ds), true) := by
  have htak : ds.takeWhile Char.isDigit = ds := takeWhile_eq_self_iff.mpr hds
  have hdro : ds.dropWhile Char.isDigit = [] := dropWhile_eq_nil_iff.mpr hds
  have hemp : ds.isEmpty = false := isEmpty_eq_false_iff.mpr hne
  obtain ⟨c, ds', rfl⟩ := exists_cons_of_ne_nil hne
  have hc := hds c mem_cons_self
  unfold strtol
  rw [h]
  cases negative with
  | true =>
    change (if ((c :: ds').takeWhile Char.isDigit).isEmpty then _ else
      (clampLong (-(digitsValue ((c :: ds').takeWhile Char.isDigit) : ℤ)),
        ((c :: ds').dropWhile Char.isDigit).isEmpty)) = _
    rw [htak, hdro]
    rfl
  | false =>
    have hbla : (c :: ds').dropWhile isSpace = c :: ds' := by
      simp [isSpace_of_isDigit hc]
    have hmin : c ≠ '-' := fun h => absurd (h ▸ hc) (by decide)
    have hplu : c ≠ '+' := fun h => absurd (h ▸ hc) (by decide)
    simp only [Bool.false_eq_true, if_false, nil_append, hbla, head?_cons,
      Option.some.injEq, hmin, hplu, or_self, htak, hdro, hemp, isEmpty_nil]

theorem strtol_of_head {cs : List Char} (h : cStr s = c :: cs) (hspa : isSpace c = false)
    (hmin : c ≠ '-') (hplu : c ≠ '+') (hdig : c.isDigit = false) : strtol s = (0, false) := by
  have hbla : (c :: cs).dropWhile isSpace = c :: cs := by simp [hspa]
  unfold strtol
  simp only [h, hbla, head?_cons, Option.some.injEq, hmin, hplu, or_self, if_false,
    takeWhile_cons, hdig, Bool.false_eq_true, isEmpty_nil, if_true, isEmpty_cons]

theorem le_toNat_of_isAlpha (h : c.isAlpha = true) : 65 ≤ c.toNat ∧ c.isDigit = false := by
  have hlet : (decide (c.val ≥ 'A'.val ∧ c.val ≤ 'Z'.val) ||
      (decide (c.val ≥ 'a'.val) && decide (c.val ≤ 'z'.val))) = true := h
  simp only [Bool.or_eq_true, Bool.and_eq_true, decide_eq_true_eq] at hlet
  have hlow : 65 ≤ c.toNat := by
    rcases hlet with ⟨h, -⟩ | ⟨h, -⟩
    · exact h
    · exact (by decide : 65 ≤ 97).trans h
  rw [Char.isDigit, Bool.and_eq_false_iff]
  refine ⟨hlow, .inr (decide_eq_false fun h => ?_)⟩
  have hhig : c.toNat ≤ 57 := h
  omega

theorem strtol_of_isAlpha {cs : List Char} (h : cStr s = c :: cs) (halp : c.isAlpha = true) :
    strtol s = (0, false) := by
  obtain ⟨hlow, hdig⟩ := le_toNat_of_isAlpha halp
  apply strtol_of_head h (isSpace_of_lt (by omega)) _ _ hdig
  · rintro rfl
    exact absurd hlow (by decide)
  · rintro rfl
    exact absurd hlow (by decide)

theorem strtol_toString (i : Int64) : strtol (toString i.toInt) = (i, true) := by
  have hcs : cStr (toString i.toInt) = (toString i.toInt).toList := by
    refine cStr_of_forall fun c hc hnul => ?_
    rcases Decimal.isDigit_or_sign hc with rfl | hdig
    · cases hnul
    · rw [hnul] at hdig
      cases hdig
  have hsig : (if decide (i.toInt < 0) then -(i.toInt.natAbs : ℤ) else i.toInt.natAbs) =
      i.toInt := by
    split
    · next hneg =>
      have hneg' := of_decide_eq_true hneg
      omega
    · next hneg =>
      have hneg' := of_decide_eq_false (Bool.not_eq_true _ ▸ hneg)
      omega
  have htex : cStr (toString i.toInt) =
      (if decide (i.toInt < 0) then ['-'] else []) ++ Nat.toDigits 10 i.toInt.natAbs := by
    rw [hcs, Decimal.toList_toString]
    simp only [decide_eq_true_eq]
  rw [strtol_digits _ Nat.toDigits_ne_nil (fun _ => Decimal.isDigit_of_mem) htex,
    digitsValue_toDigits, hsig, clampLong_toInt]

end Clockwork
