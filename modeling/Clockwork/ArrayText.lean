import Clockwork.LongText

namespace Clockwork.ArrayText

open List Nat

abbrev Text := List Char

def printed (v : Int64) : Text := (toString v.toInt).toList

/-- The loop of `longArrayToString` with what the buffer holds so far. `snprintf` cuts a number
to the room that is left; a delimiter or its NUL behind the buffer is `none`. -/
def printLoop (buflen : ℕ) : Text → List Int64 → Option Text
  | buf, [] => some buf
  | buf, v :: vs =>
    let stored := buf ++ (printed v).take (buflen - buf.length - 1)
    if buflen ≤ (printed v).length + 1 ∨ vs = [] then some stored
    else if buflen < buf.length + (printed v).length + 2 then none
    else printLoop buflen (stored ++ [',']) vs

/-- `longArrayToString`; `none` is also an overflow of the size. -/
def longArrayToString (values : List Int64) : Option Text :=
  if 12 * values.length < 2147483648 then printLoop (12 * values.length) [] values else none

/-- The last number is stored without its sign. -/
def finish : Option (Bool × ℕ) → List ℤ
  | none => []
  | some number => [(number.2 : ℤ)]

/-- `stringToLongArray`: the room left in the array, the sign and value of the number being
read, if any, and the text. -/
def stringToLongArray : ℕ → Option (Bool × ℕ) → Text → List ℤ
  | _, number, [] => finish number
  | 0, number, _ :: _ => finish number
  | n + 1, some (neg, val), ch :: p =>
    if ch.isDigit then stringToLongArray (n + 1) (some (neg, 10 * val + (ch.toNat - '0'.toNat))) p
    else (if neg then -(val : ℤ) else val) :: stringToLongArray n none p
  | n + 1, none, ch :: p =>
    if ch = '-' then stringToLongArray (n + 1) (some (true, 0)) p
    else if ch.isDigit then stringToLongArray (n + 1) (some (false, ch.toNat - '0'.toNat)) p
    else stringToLongArray (n + 1) none p

def joined : List Int64 → Text
  | [] => []
  | [v] => printed v
  | v :: vs => printed v ++ ',' :: joined vs

theorem joined_cons {v : Int64} {vs : List Int64} (h : vs ≠ []) :
    joined (v :: vs) = printed v ++ ',' :: joined vs := by
  cases vs with
  | nil => exact absurd rfl h
  | cons w vs => rfl

variable {values : List Int64}

theorem printLoop_of_lt {buflen : ℕ} {buf : Text} (h : (buf ++ joined values).length < buflen) :
    printLoop buflen buf values = some (buf ++ joined values) := by
  induction values generalizing buf with
  | nil => simp [printLoop, joined]
  | cons v vs ih =>
    rcases eq_or_ne vs [] with rfl | hvs
    · rw [joined, length_append] at h
      rw [printLoop, if_pos (.inr rfl), joined, take_of_length_le (by omega)]
    · have hlen := h
      rw [joined_cons hvs, length_append, length_append, length_cons] at hlen
      rw [printLoop, if_neg (by simp only [hvs, or_false]; omega), if_neg (by omega),
        take_of_length_le (by omega), ih]
      · simp [joined_cons hvs]
      · simpa [joined_cons hvs] using h

theorem printLoop_eq_some {buflen : ℕ} {buf s : Text}
    (hbuf : buf.length < buflen) (h : printLoop buflen buf values = some s) :
    s <+: buf ++ joined values ∧ s.length < buflen := by
  induction values generalizing buf with
  | nil =>
    obtain rfl := Option.some.inj h
    simpa [joined] using hbuf
  | cons v vs ih =>
    have hjoi : printed v <+: joined (v :: vs) := by
      rcases eq_or_ne vs [] with rfl | hvs
      · exact prefix_refl _
      · rw [joined_cons hvs]
        exact prefix_append _ _
    rw [printLoop] at h
    split_ifs at h with h₁ h₂
    · obtain rfl := Option.some.inj h
      refine ⟨(prefix_append_right_inj buf).mpr (( take_prefix _ _).trans hjoi), ?_⟩
      rw [length_append, length_take]
      omega
    · rw [take_of_length_le (by omega)] at h
      have hvs : vs ≠ [] := fun hvs => h₁ (.inr hvs)
      have := ih (by simp only [length_append, length_singleton]; omega) h
      simpa [joined_cons hvs] using this

def sign (neg : Bool) : Text := if neg then ['-'] else []

variable (v : Int64)

theorem printed_eq : printed v = sign (v.toInt < 0) ++ toDigits 10 v.toInt.natAbs := by
  rw [printed, Decimal.toList_toString]
  simp [sign]

theorem read_digits {ds : Text} (hds : ∀ c ∈ ds, c.isDigit = true) (n val : ℕ) (neg : Bool)
    (rest : Text) : stringToLongArray (n + 1) (some (neg, val)) (ds ++ rest) =
      stringToLongArray (n + 1) (some (neg,
        ds.foldl (fun m c => 10 * m + (c.toNat - '0'.toNat)) val)) rest := by
  induction ds generalizing val with
  | nil => rfl
  | cons c ds ih =>
    rw [cons_append, stringToLongArray, if_pos (hds c (by simp))]
    exact ih (fun d hd => hds d (by simp [hd])) _

theorem read_number {neg : Bool} {ds : Text} (hds : ∀ c ∈ ds, c.isDigit = true)
    (hne : sign neg ++ ds ≠ []) (n : ℕ) (rest : Text) :
    stringToLongArray (n + 1) none (sign neg ++ ds ++ rest) =
      stringToLongArray (n + 1) (some (neg, digitsValue ds)) rest := by
  cases neg with
  | true => exact read_digits hds n 0 true rest
  | false =>
    obtain ⟨c, ds, rfl⟩ := exists_cons_of_ne_nil hne
    have hc := hds c (by simp)
    have hmin : c ≠ '-' := by
      rintro rfl
      exact absurd hc (by decide)
    change stringToLongArray (n + 1) none (c :: (ds ++ rest)) = _
    rw [stringToLongArray, if_neg hmin, if_pos hc, read_digits fun d hd => hds d (by simp [hd])]
    simp [digitsValue]

theorem read_printed (n : ℕ) (rest : Text) : stringToLongArray (n + 1) none (printed v ++ rest) =
      stringToLongArray (n + 1) (some (v.toInt < 0, v.toInt.natAbs)) rest := by
  rw [printed_eq, read_number (fun c => Decimal.isDigit_of_mem)
    (append_ne_nil_of_right_ne_nil _ toDigits_ne_nil), digitsValue_toDigits]

theorem read_separated (n : ℕ) (rest : Text) :
    stringToLongArray (n + 1) none (printed v ++ ',' :: rest) =
      v.toInt :: stringToLongArray n none rest := by
  rw [read_printed, stringToLongArray, if_neg (by decide)]
  simp only [decide_eq_true_eq, cons.injEq, and_true]
  split_ifs <;> omega

theorem digitsValue_take_le {n k : ℕ} (h : k < (toDigits 10 n).length) :
    digitsValue ((toDigits 10 n).take k) ≤ n / 10 := by
  induction n using Nat.strong_induction_on with
  | _ n ih =>
    rcases lt_or_ge n 10 with hlt | hge
    · rw [toDigits_of_lt_base hlt, length_singleton] at h
      obtain rfl : k = 0 := by omega
      simp [digitsValue]
    · rw [toDigits_of_base_le (by decide) hge] at h ⊢
      rw [length_append, length_singleton] at h
      rw [take_append_of_le_length (by omega)]
      rcases lt_or_ge k (toDigits 10 (n / 10)).length with hk | hk
      · exact (ih _ (by omega) hk).trans (div_le_self _ _)
      · rw [take_of_length_le hk, digitsValue_toDigits]

/-- What is read from a number that was cut off. -/
theorem read_cut {v : Int64} {s : Text} (hs : s <+: printed v) (n : ℕ) :
    (stringToLongArray (n + 1) none s).length ≤ 1 ∧
      (stringToLongArray (n + 1) none s = [v.toInt] → s = printed v) := by
  rcases eq_or_ne s [] with rfl | hne
  · simp [stringToLongArray, finish]
  rw [printed_eq] at hs ⊢
  have hlen : (sign (decide (v.toInt < 0))).length ≤ s.length := by
    have := length_pos_iff.mpr hne
    unfold sign
    split_ifs
    · exact this
    · exact zero_le _
  obtain ⟨ds, rfl⟩ := prefix_of_prefix_length_le (prefix_append _ _) hs hlen
  have hds := (prefix_append_right_inj _).mp hs
  have hrea := read_number (fun c hc => Decimal.isDigit_of_mem (hds.subset hc)) hne n []
  rw [append_nil] at hrea
  rw [hrea]
  refine ⟨le_rfl, fun hv => ?_⟩
  have hval : (digitsValue ds : ℤ) = v.toInt := head_eq_of_cons_eq hv
  -- a cut number has at most a tenth of the value, and 0 has no digit to lose
  rcases hds.length_le.lt_or_eq with hlt | heq
  · have hle := digitsValue_take_le hlt
    rw [← prefix_iff_eq_take.mp hds] at hle
    have hzer : v.toInt = 0 := by omega
    rw [hzer] at hlt
    obtain rfl := length_eq_zero_iff.mp (lt_one_iff.mp hlt)
    exact absurd (by simp [hzer, sign]) hne
  · rw [hds.eq_of_length heq]

theorem read_joined_iff (hne : values ≠ []) {s : Text}
    (hs : s <+: joined values) : stringToLongArray values.length none s = values.map (·.toInt) ↔
      s = joined values ∧ ∀ v ∈ values.getLast?, 0 ≤ v.toInt := by
  induction values generalizing s with
  | nil => exact absurd rfl hne
  | cons v vs ih =>
    rcases eq_or_ne vs [] with rfl | hvs
    · have hlas : stringToLongArray 1 none (printed v) = [(v.toInt.natAbs : ℤ)] := by
        rw [← append_nil (printed v), read_printed]
        rfl
      constructor
      · intro h
        have hful := (read_cut hs 0).2 h
        refine ⟨hful, ?_⟩
        rw [hful] at h
        have hv : (v.toInt.natAbs : ℤ) = v.toInt := head_eq_of_cons_eq (hlas.symm.trans h)
        simp
        omega
      · rintro ⟨rfl, hpos⟩
        have := hpos v rfl
        refine hlas.trans ?_
        simp
        omega
    · rw [joined_cons hvs] at hs ⊢
      rcases lt_or_ge (printed v).length s.length with hlt | hge
      · obtain ⟨u, rfl⟩ := prefix_of_prefix_length_le (prefix_append _ _) hs hlt.le
        have hu := (prefix_append_right_inj _).mp hs
        obtain ⟨c, u, rfl⟩ : ∃ c u', u = c :: u' := exists_cons_of_ne_nil fun h => by
          simp [h] at hlt
        obtain ⟨rfl, hu'⟩ := cons_prefix_cons.mp hu
        rw [length_cons, read_separated, map_cons, cons.injEq, ih hvs hu']
        obtain ⟨w, vs, rfl⟩ := exists_cons_of_ne_nil hvs
        simp [getLast?_cons_cons]
      · have hs' := prefix_of_prefix_length_le hs (prefix_append _ _) hge
        have hone := (read_cut hs' vs.length).1
        have hpos := length_pos_iff.mpr hvs
        constructor
        · intro h
          have := congrArg length h
          simp only [length_map, length_cons] at this hone
          omega
        · rintro ⟨rfl, -⟩
          simp at hge

/-- The array comes back exactly when its text fits the buffer and its last number is not
negative. -/
theorem roundtrip_iff {values : List Int64} (hne : values ≠ []) :
    (∃ s, longArrayToString values = some s ∧
      stringToLongArray values.length none s = values.map (·.toInt)) ↔
    12 * values.length < 2147483648 ∧ (joined values).length < 12 * values.length ∧
      ∀ v ∈ values.getLast?, 0 ≤ v.toInt := by
  have hpos := length_pos_iff.mpr hne
  constructor
  · rintro ⟨s, hpri, hrea⟩
    unfold longArrayToString at hpri
    split_ifs at hpri with hsiz
    obtain ⟨hs, hlen⟩ := printLoop_eq_some (by simp; omega) hpri
    obtain ⟨rfl, hlas⟩ := (read_joined_iff hne hs).mp hrea
    exact ⟨hsiz, hlen, hlas⟩
  · rintro ⟨hsiz, hlen, hlas⟩
    exact ⟨joined values, by rw [longArrayToString, if_pos hsiz, printLoop_of_lt hlen]; rfl,
      (read_joined_iff hne prefix_rfl).mpr ⟨rfl, hlas⟩⟩

theorem roundtrip_two : ∃ s, longArrayToString [-7, 12] = some s ∧
      stringToLongArray 2 none s = [-7, 12] := by
  have hne : ([-7, 12] : List Int64) ≠ [] := by decide
  exact (roundtrip_iff hne).mpr ⟨by decide, by decide, by simp⟩

/-- An array with one negative number comes back without its sign. -/
theorem negative_number_lost :
    (longArrayToString [-7]).map (stringToLongArray 1 none) = some [7] := by
  decide

end Clockwork.ArrayText
