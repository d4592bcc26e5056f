import Clockwork.LongText

namespace Clockwork.PlcInterface

open List Nat

/-- The value of a digit or letter, 36 for every other character. -/
def digit (c : Char) : ℕ :=
  if 48 ≤ c.toNat ∧ c.toNat ≤ 57 then c.toNat - 48
  else if 97 ≤ c.toNat ∧ c.toNat ≤ 122 then c.toNat - 87
  else if 65 ≤ c.toNat ∧ c.toNat ≤ 90 then c.toNat - 55
  else 36

def value (base : ℕ) (ds : List Char) : ℕ := ds.foldl (fun n c => base * n + digit c) 0

/-- `strtol(s, &rest, base)` -/
def strtolIn (base : ℕ) (s : List Char) : Int64 :=
  let body := s.dropWhile isSpace
  let neg := body.head? = some '-'
  let unsigned := if neg ∨ body.head? = some '+' then body.tail else body
  let hex := base = 16 ∧ unsigned.head? = some '0' ∧
    (unsigned[1]? = some 'x' ∨ unsigned[1]? = some 'X') ∧ (unsigned[2]?).any (digit · < 16)
  let ds := (if hex then unsigned.drop 2 else unsigned).takeWhile (digit · < base)
  clampLong (if neg then -(value base ds : ℤ) else value base ds)

variable {base : ℕ}

theorem strtolIn_digits (hbas : base ≤ 16) {ds : List Char} (hds : ∀ c ∈ ds, digit c < base) :
    strtolIn base ds = clampLong (value base ds) := by
  have hcha : ∀ c ∈ ds, 48 ≤ c.toNat ∧ c.toNat ≤ 102 ∧ c.toNat ≠ 88 := by
    intro c hc
    have := hds c hc
    unfold digit at this
    split_ifs at this <;> omega
  have hne : ∀ c : Char, c.toNat < 48 ∨ 102 < c.toNat ∨ c.toNat = 88 → c ∉ ds := by
    intro c h hc
    have := hcha c hc
    omega
  have hspa : ds.dropWhile isSpace = ds := by
    cases ds with
    | nil => rfl
    | cons c ds =>
      have := hcha c (by simp)
      simp [isSpace_of_lt (c := c) (by omega)]
  have htak : ds.takeWhile (digit · < base) = ds :=
    takeWhile_eq_self_iff.mpr fun c hc => decide_eq_true (hds c hc)
  have hsig : ∀ c, c ∉ ds → ds.head? ≠ some c := fun c h hc => h (mem_of_mem_head? hc)
  have hx : ∀ c, c ∉ ds → ds[1]? ≠ some c := fun c h hc => h (mem_of_getElem? hc)
  simp [strtolIn, hspa, hsig _ (hne '-' (by decide)), hsig _ (hne '+' (by decide)),
    hx _ (hne 'x' (by decide)), hx _ (hne 'X' (by decide)), htak]

theorem value_append (base : ℕ) (ds : List Char) (c : Char) :
    value base (ds ++ [c]) = base * value base ds + digit c := by
  simp [value]

theorem digit_digitChar : ∀ d < 16, digit d.digitChar = d := by decide

theorem digit_toUpper (c : Char) : digit c.toUpper = digit c := by
  unfold Char.toUpper
  split
  next h =>
    have hle : 97 ≤ c.toNat := h.1
    have hge : c.toNat ≤ 122 := h.2
    have hval : c.val.toNat = c.toNat := rfl
    have hdif : ('A'.val - 'a'.val).toNat = 4294967264 := by decide
    simp only [digit, Char.toNat, UInt32.toNat_add]
    split_ifs <;> omega
  next => rfl

theorem value_toDigits (hbas : 1 < base) (hle : base ≤ 16) (n : ℕ) :
    value base (toDigits base n) = n ∧ ∀ c ∈ toDigits base n, digit c < base := by
  induction n using Nat.strong_induction_on with
  | _ n ih =>
    rcases lt_or_ge n base with hlt | hge
    · rw [toDigits_of_lt_base hlt]
      simp [value, digit_digitChar n (by omega), hlt]
    · have hmod := mod_lt n (zero_lt_of_lt hbas)
      have hdig := digit_digitChar (n % base) (by omega)
      have hdiv := ih (n / base) (div_lt_self (by omega) hbas)
      rw [toDigits_of_base_le hbas hge, value_append, hdiv.1, hdig, div_add_mod]
      refine ⟨rfl, fun c hc => ?_⟩
      rcases mem_append.mp hc with hc | hc
      · exact hdiv.2 c hc
      · rw [mem_singleton.mp hc, hdig]
        exact hmod

/-- Without its first digit a positive number is smaller. -/
theorem value_tail_lt {base n : ℕ} (hbas : 1 < base) (hle : base ≤ 16) (hn : 0 < n) :
    value base (toDigits base n).tail < n := by
  induction n using Nat.strong_induction_on with
  | _ n ih =>
    rcases lt_or_ge n base with hlt | hge
    · rw [toDigits_of_lt_base hlt]
      exact hn
    · have hmod := mod_lt n (zero_lt_of_lt hbas)
      have hlt := ih (n / base) (div_lt_self hn hbas) (div_pos hge (by omega))
      rw [toDigits_of_base_le hbas hge, tail_append_of_ne_nil toDigits_ne_nil,
        value_append, digit_digitChar _ (by omega)]
      calc base * value base (toDigits base (n / base)).tail + n % base
          < base * (n / base) + n % base := by gcongr
        _ = n := div_add_mod n base

structure Mapping where
  group : UInt32
  address : UInt32

/-- The value of an `int` with the same low 32 bits. -/
def wrap (x : ℤ) : ℤ := x.bmod 4294967296

/-- The number behind the letters, with the base that its first characters give. -/
def number (addr : List Char) : Int64 :=
  if 2 < addr.length ∧ addr.head? = some '0' ∧ addr[1]? = some 'x' then strtolIn 16 (addr.drop 2)
  else if 1 < addr.length ∧ addr.head? = some '0' then strtolIn 8 (addr.drop 2)
  else strtolIn 10 addr

def decode (mappings : List Char → Option Mapping) (address : List Char) : ℤ × ℤ :=
  let code := (address.takeWhile Char.isAlpha).take 9
  let addr := address.dropWhile Char.isAlpha
  match mappings code with
  | none => (-1, -1)
  | some m => (wrap m.group.toNat, wrap (m.address.toNat + wrap (number addr).toInt))

/-- How a number is written; a hexadecimal one has its digits in upper case at some places. -/
inductive Spelling where
  | decimal
  | hexadecimal (upper : ℕ → Bool)
  | octal

def Spelling.text : Spelling → ℕ → List Char
  | .decimal, n => Nat.toDigits 10 n
  | .hexadecimal upper, n =>
    '0' :: 'x' :: (Nat.toDigits 16 n).mapIdx fun i c => if upper i then c.toUpper else c
  | .octal, n => '0' :: Nat.toDigits 8 n

/-- The number that `decode` reads in a text; it skips the first digit of an octal one. -/
def Spelling.read : Spelling → ℕ → ℕ
  | .octal, n => value 8 (Nat.toDigits 8 n).tail
  | _, n => n

/-- The digits of a number in any case. -/
theorem strtolIn_toDigits (hbas : 1 < base) (hle : base ≤ 16) {f : ℕ → Char → Char}
    (hf : ∀ i c, digit (f i c) = digit c) (n : ℕ) :
    strtolIn base ((toDigits base n).mapIdx f) = clampLong n := by
  have hsam : ((toDigits base n).mapIdx f).map digit = (toDigits base n).map digit :=
    ext_getElem (by simp) (by simp [hf])
  have hval (ds : List Char) : value base ds = (ds.map digit).foldl (base * · + ·) 0 := by
    rw [foldl_map]
    rfl
  obtain ⟨heq, hdig⟩ := value_toDigits hbas hle n
  rw [strtolIn_digits hle, hval, hsam, ← hval, heq]
  intro c hc
  have hc := mem_map_of_mem (f := digit) hc
  rw [hsam] at hc
  obtain ⟨d, hd, heq⟩ := mem_map.mp hc
  exact heq ▸ hdig d hd

theorem number_text (s : Spelling) (n : ℕ) : number (s.text n) = clampLong (s.read n) := by
  have hpos : ∀ base, 0 < (toDigits base n).length := fun base =>
    length_pos_iff.mpr toDigits_ne_nil
  cases s with
  | decimal =>
    have hzer : ¬(1 < (toDigits 10 n).length ∧ (toDigits 10 n).head? = some '0') := by
      rintro ⟨hlen, hhea⟩
      rcases Nat.eq_zero_or_pos n with rfl | hn
      · exact absurd hlen (by decide)
      · obtain ⟨c, ds, hds, hc, -⟩ := Decimal.toDigits_head hn
        rw [hds] at hhea
        obtain rfl := Option.some.inj hhea
        exact absurd hc (by decide)
    obtain ⟨hval, hdig⟩ := value_toDigits (by decide : 1 < 10) (by decide) n
    rw [number, Spelling.text, if_neg (fun h => hzer ⟨by omega, h.2.1⟩), if_neg hzer,
      strtolIn_digits (by decide) hdig, hval]
    rfl
  | hexadecimal upper =>
    have hlen := hpos 16
    rw [number, Spelling.text, if_pos ⟨by simpa using hlen, rfl, rfl⟩]
    refine strtolIn_toDigits (by decide) (by decide) (fun i c => ?_) n
    split_ifs
    · exact digit_toUpper c
    · rfl
  | octal =>
    obtain ⟨c, ds, hds⟩ := exists_cons_of_ne_nil (toDigits_ne_nil (b := 8) (n := n))
    have hdii := (value_toDigits (by decide : 1 < 8) (by decide) n).2
    have hx : c ≠ 'x' := by
      rintro rfl
      exact absurd (hdii 'x' (by simp [hds])) (by decide)
    rw [number, Spelling.text, Spelling.read, if_neg (by simp [hds, hx]), if_pos (by simp [hds]),
      ← strtolIn_digits (by decide) fun d hd => hdii d (mem_of_mem_tail hd), hds]
    rfl

theorem head_text (s : Spelling) (n : ℕ) : ∃ d ∈ (s.text n).head?, ¬d.isAlpha = true := by
  cases s with
  | decimal =>
    obtain ⟨d, hd, hdig⟩ := Decimal.isDigit_head n []
    refine ⟨d, by simpa [Spelling.text] using hd, fun halp => ?_⟩
    rw [(le_toNat_of_isAlpha halp).2] at hdig
    cases hdig
  | hexadecimal => exact ⟨'0', rfl, by decide⟩
  | octal => exact ⟨'0', rfl, by decide⟩

theorem wrap_of_lt {x : ℤ} (h0 : 0 ≤ x) (h : x < 2147483648) : wrap x = x :=
  Int.bmod_eq_of_le (by omega) (by omega)

theorem wrap_add_clampLong (b : UInt32) {v n : ℕ} (hv : v ≤ n) :
    wrap (b.toNat + wrap (clampLong v).toInt) = b.toNat + n ↔ b.toNat + n < 2147483648 ∧ v = n := by
  have hsma : b.toNat + n < 2147483648 →
      wrap (b.toNat + wrap (clampLong v).toInt) = b.toNat + v := by
    intro hn
    have hcla : (clampLong v).toInt = v := by
      rw [clampLong, Int64.toInt_maxValue, Int64.toInt_minValue, if_neg (by omega),
        if_neg (by omega), Int64.toInt_ofInt_of_le (by omega) (by omega)]
    rw [hcla, wrap_of_lt (x := v) (by omega) (by omega), wrap_of_lt (by omega) (by omega)]
  constructor
  · have hlt : wrap (b.toNat + wrap (clampLong v).toInt) < 2147483648 :=
      Int.bmod_lt (by decide)
    omega
  · rintro ⟨hn, rfl⟩
    exact hsma hn

/-- An address is decoded exactly when it fits an `int` and, in octal, the number is 0. -/
theorem decode_iff {mappings : List Char → Option Mapping} {c : List Char} {m : Mapping}
    (hc : ∀ d ∈ c, d.isAlpha = true) (hlen : c.length ≤ 9) (hm : mappings c = some m)
    (s : Spelling) (n : ℕ) :
    decode mappings (c ++ s.text n) = ((m.group.toNat : ℤ), (m.address.toNat + n : ℤ)) ↔
      m.group.toNat < 2147483648 ∧ m.address.toNat + n < 2147483648 ∧ (s = .octal → n = 0) := by
  have hrea : s.read n ≤ n ∧ (s.read n = n ↔ (s = .octal → n = 0)) := by
    cases s with
    | decimal => simp [Spelling.read]
    | hexadecimal => simp [Spelling.read]
    | octal =>
      rcases Nat.eq_zero_or_pos n with rfl | hn
      · exact ⟨le_rfl, fun _ _ => rfl, fun _ => rfl⟩
      · have hlt := value_tail_lt (by decide : 1 < 8) (by decide) hn
        simp [Spelling.read, hlt.le, hlt.ne, hn.ne']
  have hgro : wrap m.group.toNat = m.group.toNat ↔ m.group.toNat < 2147483648 := by
    refine ⟨fun h => ?_, fun h => wrap_of_lt (by omega) (by omega)⟩
    have hlt : wrap m.group.toNat < 2147483648 := Int.bmod_lt (by decide)
    omega
  obtain ⟨d, hd, halp⟩ := head_text s n
  obtain ⟨ds, hds⟩ := head?_eq_some_iff.mp hd
  have htak : (c ++ s.text n).takeWhile Char.isAlpha = c := by
    rw [takeWhile_append_of_pos hc, hds, takeWhile_cons_of_neg halp, append_nil]
  have hdro : (c ++ s.text n).dropWhile Char.isAlpha = s.text n := by
    rw [dropWhile_append_of_pos hc, hds, dropWhile_cons_of_neg halp]
  simp only [decode, htak, hdro, take_of_length_le hlen, hm, number_text]
  rw [Prod.mk.injEq, hgro, wrap_add_clampLong _ hrea.1, hrea.2]

theorem decode_hexadecimal :
    decode (fun c => if c = ['D'] then some ⟨4, 100⟩ else none)
      (['D'] ++ (Spelling.hexadecimal fun _ => false).text 31) = (4, 131) :=
  (decode_iff (m := ⟨4, 100⟩) (by simp) (by decide) rfl (.hexadecimal fun _ => false) 31).mpr
    ⟨by decide, by decide, by simp⟩

/-- Octal 5 behind the letter `D` is read as 0. -/
theorem octal_digit_skipped :
    decode (fun c => if c = ['D'] then some ⟨4, 100⟩ else none)
      (['D'] ++ Spelling.octal.text 5) = (4, 100) := by
  decide

end Clockwork.PlcInterface
