import Clockwork.CJson
import Clockwork.LongText

namespace Clockwork.CJson

open List Int64 Item Chain Nat Decimal

def kept (c : Char) : Bool :=
  decide (31 < c.toNat) || c == '\x08' || c == '\x0c' || c == '\n' || c == '\r' || c == '\t'

theorem escape_of_mem : ∀ c ∈ ['\\', '"', '\x08', '\x0c', '\n', '\r', '\t'],
      kept c = true ∧ ∃ d, escape c = ['\\', d] ∧ ∀ t, stringChars 0 ('\\' :: d :: t) =
          (stringChars 0 t).map fun r => (c :: r.1, r.2) := by
  simp only [forall_mem_cons]
  refine ⟨?_, ?_, ?_, ?_, ?_, ?_, ?_, by simp⟩ <;> exact ⟨rfl, _, rfl, fun _ => rfl⟩

variable (s rest : Text) (c : Char)

theorem escape_cases : (escape c = [c] ∧ kept c = true ∧ 31 < c.toNat ∧ c ≠ '"' ∧ c ≠ '\\') ∨
    (kept c = true ∧ ∃ d, escape c = ['\\', d] ∧ ∀ t, stringChars 0 ('\\' :: d :: t) =
        (stringChars 0 t).map fun r => (c :: r.1, r.2)) ∨
    escape c = [] ∧ kept c = false := by
  by_cases hpla : 31 < c.toNat ∧ c ≠ '"' ∧ c ≠ '\\'
  · exact .inl ⟨if_pos hpla, by simp [kept, hpla.1], hpla⟩
  by_cases hesc : c ∈ ['\\', '"', '\x08', '\x0c', '\n', '\r', '\t']
  · exact .inr (.inl (escape_of_mem c hesc))
  · simp only [mem_cons, not_mem_nil, or_false, not_or] at hesc
    obtain ⟨h1, h2, h3, h4, h5, h6, h7⟩ := hesc
    have hlow : ¬31 < c.toNat := fun hlow => hpla ⟨hlow, h2, h1⟩
    have hnon : escape c = [] := by
      rw [escape, if_neg hpla, if_neg h1, if_neg h2, if_neg h3, if_neg h4, if_neg h5, if_neg h6,
        if_neg h7]
    exact .inr (.inr ⟨hnon, by simp [kept, hlow, h3, h4, h5, h6, h7]⟩)

theorem stringChars_escape (t : Text) : stringChars 0 (escape c ++ t) =
      if kept c then (stringChars 0 t).map fun r => (c :: r.1, r.2) else stringChars 0 t := by
  rcases escape_cases c with ⟨he, hk, hlow, hquo, hsla⟩ | ⟨hk, d, he, hrea⟩ | ⟨he, hk⟩
  · have hnot : ¬c.toNat ≤ 31 := by omega
    simp [he, hk, stringChars, hquo, hnot, hsla]
  · rw [he, if_pos hk]
    exact hrea t
  · rw [he, hk]
    rfl

theorem stringRoom_escape (t : Text) : stringRoom false (escape c ++ t) =
      if kept c then (stringRoom false t).map (· + 1) else stringRoom false t := by
  rcases escape_cases c with ⟨he, hk, hlow, hquo, hsla⟩ | ⟨hk, d, he, -⟩ | ⟨he, hk⟩
  · have hnot : ¬c.toNat ≤ 31 := by omega
    simp [he, hk, stringRoom, hquo, hnot, beq_false_of_ne hsla]
  · simp [he, hk, stringRoom]
  · rw [he, hk]
    rfl

theorem stringChars_print :
    stringChars 0 (s.flatMap escape ++ '"' :: rest) = .ok (s.filter kept, rest) := by
  induction s with
  | nil => rfl
  | cons c s ih =>
    rw [flatMap_cons, append_assoc, stringChars_escape, ih, filter_cons]
    split <;> rfl

theorem stringRoom_print :
    stringRoom false (s.flatMap escape ++ '"' :: rest) = .ok (s.filter kept).length := by
  induction s with
  | nil => rfl
  | cons c s ih =>
    rw [flatMap_cons, append_assoc, stringRoom_escape, ih, filter_cons]
    split <;> rfl

theorem parseString_print : parseString (printString s ++ rest) = .ok (s.filter kept, rest) := by
  have htak : (s.filter kept).takeWhile (· ≠ '\x00') = s.filter kept := by
    rw [takeWhile_eq_self_iff]
    intro c hc
    have hkep := (mem_filter.mp hc).2
    rw [decide_eq_true_eq]
    rintro rfl
    cases hkep
  rw [printString, cons_append, append_assoc, singleton_append, parseString,
    stringRoom_print, stringChars_print]
  change (if (s.filter kept).length ≤ (s.filter kept).length then _ else _) = _
  rw [if_pos (le_refl _), htak]

def Ends (rest : Text) : Prop :=
  ∀ c ∈ rest.head?, c.isDigit = false ∧ c ≠ '.' ∧ c ≠ 'e' ∧ c ≠ 'E'

theorem ends_cons {c : Char} (h : c.isDigit = false ∧ c ≠ '.' ∧ c ≠ 'e' ∧ c ≠ 'E') (rest : Text) :
    Ends (c :: rest) := by
  intro d hd
  cases hd
  exact h

def rereadLong (i : Int64) : Except Fault Int64 :=
  if i = Int64.minValue then .error .overflow
  else signedLong (decide (i < 0)) i.toInt.natAbs

theorem takeWhile_digits {ds rest : Text} (hds : ∀ d ∈ ds, d.isDigit = true) (hres : Ends rest) :
    (ds ++ rest).takeWhile Char.isDigit = ds := by
  have hsto : rest.takeWhile Char.isDigit = [] := by
    cases rest with
    | nil => rfl
    | cons d rest => simp [(hres d rfl).1]
  rw [takeWhile_append_of_pos hds, hsto, append_nil]

theorem integralDigits_of_ends {rest : Text} (hres : Ends rest) : integralDigits rest = [] := by
  cases rest with
  | nil => rfl
  | cons d rest =>
    have hnot : ¬('1' ≤ d ∧ d ≤ '9') := by
      rintro ⟨h1, h9⟩
      have hdig : d.isDigit = true := by
        have h0 : '0' ≤ d := Char.le_trans (by decide : '0' ≤ '1') h1
        simp only [Char.isDigit, Bool.and_eq_true, decide_eq_true_eq]
        exact ⟨h0, h9⟩
      rw [(hres d rfl).1] at hdig
      cases hdig
    exact if_neg hnot

theorem integral_toDigits (n : ℕ) {rest : Text} (hres : Ends rest) : let s := toDigits 10 n ++ rest
    let s := if s.head? = some '0' then s.tail else s
    digitsValue (integralDigits s) = n ∧ s.drop (integralDigits s).length = rest := by
  rcases Nat.eq_zero_or_pos n with rfl | hn
  · change digitsValue (integralDigits rest) = 0 ∧ rest.drop (integralDigits rest).length = rest
    rw [integralDigits_of_ends hres]
    exact ⟨rfl, rfl⟩
  · obtain ⟨c, ds, hds, hc⟩ := toDigits_head hn
    have hall : ∀ d ∈ c :: ds, d.isDigit = true := by
      rw [← hds]
      exact fun d hd => isDigit_of_mem hd
    have hne : (c :: ds ++ rest).head? ≠ some '0' := by
      intro h
      cases h
      exact absurd hc.1 (by decide)
    have hint : integralDigits (c :: ds ++ rest) = c :: ds :=
      (if_pos hc).trans (takeWhile_digits hall hres)
    have hval : digitsValue (c :: ds) = n := by
      rw [← hds]
      exact digitsValue_toDigits n
    dsimp only
    rw [hds, if_neg hne, hint]
    exact ⟨hval, drop_left⟩

section Number

variable {F : Type} [NumberText F]

theorem parseNumber_digits (negative : Bool) (n : ℕ) {rest : Text} (hres : Ends rest) :
    parseNumber (F := F) ((if negative then ['-'] else []) ++ (toDigits 10 n ++ rest)) =
      if 2 ^ 63 ≤ n then .error .overflow
      else (signedLong negative n).map fun i => (.int i, rest) := by
  obtain ⟨hval, hdro⟩ := integral_toDigits n hres
  have hsig : decide (((if negative then ['-'] else []) ++ (toDigits 10 n ++ rest)).head? =
      some '-') = negative := by
    cases negative with
    | false => exact decide_eq_false (head_ne n rest (by decide))
    | true => rfl
  have hbod : (if negative then ((if negative then ['-'] else []) ++
      (toDigits 10 n ++ rest)).tail else (if negative then ['-'] else []) ++
      (toDigits 10 n ++ rest)) = toDigits 10 n ++ rest := by
    cases negative <;> rfl
  unfold parseNumber
  dsimp only at hval hdro ⊢
  rw [hsig, hbod, hval, hdro]
  split
  · rfl
  · cases rest with
    | nil => rfl
    | cons d rest =>
      obtain ⟨-, hpoi, he, hE⟩ := hres d rfl
      split
      · next heq => exact absurd (cons.inj heq).1 hpoi
      · next heq => exact absurd (cons.inj heq).1 he
      · next heq => exact absurd (cons.inj heq).1 hE
      · rfl

variable (i : Int64)

theorem printLong_eq :
    printLong i = (if decide (i < 0) then ['-'] else []) ++ toDigits 10 i.toInt.natAbs := by
  have hneg : i < 0 ↔ i.toInt < 0 := lt_iff_toInt_lt
  rw [printLong, toList_toString]
  simp only [hneg, decide_eq_true_eq]

theorem printLong_head : ∃ c t, printLong i = c :: t ∧ (c = '-' ∨ c.isDigit = true) := by
  cases h : printLong i with
  | nil =>
    rw [printLong_eq] at h
    exact absurd (append_eq_nil_iff.mp h).2 toDigits_ne_nil
  | cons c t =>
    have hmem : c ∈ printLong i := h ▸ mem_cons_self
    exact ⟨c, t, rfl, isDigit_or_sign hmem⟩

theorem le_natAbs_iff : 2 ^ 63 ≤ i.toInt.natAbs ↔ i = minValue := by
  have hlow := i.le_toInt
  have hhig := i.toInt_lt
  rw [← toInt_inj, toInt_minValue]
  omega

theorem parseNumber_printLong {rest : Text} (hres : Ends rest) :
    parseNumber (F := F) (printLong i ++ rest) =
      (rereadLong i).map fun i => (.int i, rest) := by
  rw [printLong_eq, append_assoc, parseNumber_digits _ _ hres, rereadLong]
  simp only [le_natAbs_iff]
  split <;> rfl

theorem signedLong_eq_self_iff {i : Int64} (hi : i.toInt.natAbs < 2 ^ 63) :
    signedLong (decide (i < 0)) i.toInt.natAbs = .ok i ↔ Binary64.Exact i.toInt.natAbs := by
  have hrou := Binary64.round_le (k := 63) (by decide) hi
  have hneg : i < 0 ↔ i.toInt < 0 := lt_iff_toInt_lt
  rw [← Binary64.round_eq_self_iff]
  unfold signedLong
  by_cases hlt : i < 0
  · have hlt' := hneg.mp hlt
    rw [if_pos (decide_eq_true hlt), Except.ok.injEq, ← toInt_inj,
      toInt_ofInt_of_le (by omega) (by omega)]
    omega
  · have hlt' := mt hneg.mpr hlt
    rw [if_neg (by simpa using hlt)]
    split
    · next hfit =>
      rw [Except.ok.injEq, ← toInt_inj, toInt_ofNat_of_lt hfit]
      omega
    · constructor
      · intro h
        cases h
      · omega

theorem rereadLong_eq_self_iff :
    rereadLong i = .ok i ↔ i ≠ minValue ∧ Binary64.Exact i.toInt.natAbs := by
  unfold rereadLong
  split
  · next hmin => simp [hmin]
  · next hmin =>
    rw [signedLong_eq_self_iff (Nat.lt_of_not_le (mt (le_natAbs_iff i).mp hmin))]
    simp [hmin]

def Readable (i : Int64) : Prop :=
  i ≠ Int64.minValue ∧ (0 ≤ i.toInt → Binary64.round i.toInt.natAbs < 2 ^ 63)

theorem exists_rereadLong_iff : (∃ j, rereadLong i = .ok j) ↔ Readable i := by
  have hneg : i < 0 ↔ i.toInt < 0 := lt_iff_toInt_lt
  unfold rereadLong Readable signedLong
  split
  · next hmin => simp [hmin]
  · next hmin =>
    by_cases hlt : i < 0
    · have hnot : ¬0 ≤ i.toInt := not_le.mpr (hneg.mp hlt)
      simp [hlt, hmin, hnot]
    · have hle : 0 ≤ i.toInt := not_lt.mp (mt hneg.mpr hlt)
      rw [if_neg (by simpa using hlt)]
      split
      · next hfit => exact ⟨fun _ => ⟨hmin, fun _ => hfit⟩, fun _ => ⟨_, rfl⟩⟩
      · next hfit => exact ⟨fun ⟨_, h⟩ => (nomatch h), fun h => absurd (h.2 hle) hfit⟩

theorem rereadLong_zero_iff {i j : Int64} (h : rereadLong i = .ok j) : j = 0 ↔ i = 0 := by
  unfold rereadLong at h
  split at h
  · cases h
  next hmin =>
  have hrou := Binary64.round_le (k := 63) (by decide)
    (Nat.lt_of_not_le (mt (le_natAbs_iff i).mp hmin))
  have hzer := Binary64.round_eq_zero_iff i.toInt.natAbs
  unfold signedLong at h
  dsimp only at h
  rw [← toInt_inj, ← toInt_inj, toInt_zero]
  split at h
  · cases h
    rw [toInt_ofInt_of_le (by omega) (by omega)]
    omega
  · split at h
    · next hfit =>
      cases h
      rw [toInt_ofNat_of_lt hfit]
      omega
    · cases h

end Number

theorem Chain.comma_of_ne_nil {F : Type} {c : Chain F} (h : c ≠ .nil) : c.comma = [','] := by
  cases c with
  | nil => exact absurd rfl h
  | cons name item next => rfl

theorem ends_comma {F : Type} (c : Chain F) (s rest : Text) {d : Char}
    (hd : d.isDigit = false ∧ d ≠ '.' ∧ d ≠ 'e' ∧ d ≠ 'E') (hs : c = .nil → s = []) :
    Ends (c.comma ++ (s ++ d :: rest)) := by
  cases c with
  | nil =>
    rw [hs rfl]
    exact ends_cons hd rest
  | cons name item next => exact ends_cons ⟨by decide, by decide, by decide, by decide⟩ _

variable {F : Type} [NumberText F]

mutual

/-- The items without `double`, in which all children of objects have names. -/
def Item.Textual : Item F → Prop
  | .double _ => False
  | .array c => c.TextualArray
  | .object c => c.TextualObject
  | .null | .bool _ | .int _ | .string _ => True

def Chain.TextualArray : Chain F → Prop
  | .nil => True
  | .cons _ item next => item.Textual ∧ next.TextualArray

def Chain.TextualObject : Chain F → Prop
  | .nil => True
  | .cons name item next => name.isSome = true ∧ item.Textual ∧ next.TextualObject

end

mutual

def Item.reread : Item F → Except Fault (Item F)
  | .null => .ok .null
  | .bool b => .ok (.bool b)
  | .int i => (rereadLong i).map .int
  | .double x => .ok (.double x)
  | .string s => .ok (.string (s.filter kept))
  | .array c => c.rereadArray.map .array
  | .object c => c.rereadObject.map .object

def Chain.rereadArray : Chain F → Except Fault (Chain F)
  | .nil => .ok .nil
  | .cons _ item next => do
    let item ← item.reread
    let next ← next.rereadArray
    .ok (.cons none item next)

def Chain.rereadObject : Chain F → Except Fault (Chain F)
  | .nil => .ok .nil
  | .cons name item next => do
    let item ← item.reread
    let next ← next.rereadObject
    .ok (.cons (name.map (List.filter kept)) item next)

end

variable (n : ℕ) {c : Char}

theorem skip_cons (h : 32 < c.toNat) (s : Text) : skip (c :: s) = .ok (c :: s) := if_neg (by omega)

theorem Item.print_int (i : Int64) : (int i : Item F).print = printLong i := rfl

theorem Item.print_string (s : Text) : (string s : Item F).print = printString s := rfl

theorem Item.print_array (c : Chain F) : (array c).print = '[' :: (c.printArray ++ [']']) := rfl

theorem Item.print_object (c : Chain F) : (object c).print = '{' :: (c.printObject ++ ['}']) := rfl

variable {item : Item F}

theorem print_head (h : item.Textual) : ∃ c t, item.print = c :: t ∧ 32 < c.toNat ∧ c ≠ ']' := by
  cases item with
  | null => exact ⟨'n', _, rfl, by decide, by decide⟩
  | bool b =>
    cases b with
    | false => exact ⟨'f', _, rfl, by decide, by decide⟩
    | true => exact ⟨'t', _, rfl, by decide, by decide⟩
  | int i =>
    obtain ⟨c, t, hct, hc⟩ := printLong_head i
    refine ⟨c, t, hct, ?_⟩
    rcases hc with rfl | hc
    · decide
    · simp only [Char.isDigit, Bool.and_eq_true, decide_eq_true_eq] at hc
      have hle : 48 ≤ c.toNat := hc.1
      refine ⟨by omega, ?_⟩
      rintro rfl
      exact absurd hc (by decide)
  | double x => exact h.elim
  | string s => exact ⟨'"', _, rfl, by decide, by decide⟩
  | array c => exact ⟨'[', _, rfl, by decide, by decide⟩
  | object c => exact ⟨'{', _, rfl, by decide, by decide⟩

theorem skip_print (h : item.Textual) (rest : Text) :
    skip (item.print ++ rest) = .ok (item.print ++ rest) := by
  obtain ⟨c, t, hct, hlow, -⟩ := print_head h
  rw [hct]
  exact skip_cons hlow _

theorem parseValue_string (s : Text) : parseValue (F := F) (n + 1) ('"' :: s) =
    (parseString ('"' :: s)).map fun r => (.string r.1, r.2) := rfl

theorem parseValue_array {s : Text} (hc : 32 < c.toNat) (hend : c ≠ ']') :
    parseValue (F := F) (n + 1) ('[' :: c :: s) =
      (parseItems n (c :: s)).bind fun r =>
        match r.2 with
        | ']' :: rest => .ok (.array r.1, rest)
        | _ => .error .malformed := by
  change (skip (c :: s)).bind _ = _
  rw [skip_cons hc, Except.bind]
  split
  · next heq => exact absurd (cons.inj heq).1 hend
  · rfl

theorem parseValue_object {s : Text} (hc : 32 < c.toNat) (hend : c ≠ '}') :
    parseValue (F := F) (n + 1) ('{' :: c :: s) =
      (parseMembers n (c :: s)).bind fun r =>
        match r.2 with
        | '}' :: rest => .ok (.object r.1, rest)
        | _ => .error .malformed := by
  change (skip (c :: s)).bind _ = _
  rw [skip_cons hc, Except.bind]
  split
  · next heq => exact absurd (cons.inj heq).1 hend
  · rfl

theorem parseValue_number (i : Int64) (rest : Text) :
    parseValue (F := F) (n + 1) (printLong i ++ rest) = parseNumber (printLong i ++ rest) := by
  obtain ⟨c, t, hct, hc⟩ := printLong_head i
  have hne : ∀ d, d ≠ '-' → d.isDigit = false → c ≠ d := by
    rintro d hd hdig rfl
    rcases hc with h | h
    · exact hd h
    · rw [hdig] at h
      cases h
  have hn : ('n' == c) = false := beq_false_of_ne (hne 'n' (by decide) (by decide)).symm
  have hf : ('f' == c) = false := beq_false_of_ne (hne 'f' (by decide) (by decide)).symm
  have ht : ('t' == c) = false := beq_false_of_ne (hne 't' (by decide) (by decide)).symm
  have hnul : "null".toList.isPrefixOf (c :: (t ++ rest)) = false := by
    change (('n' == c) && _) = false
    rw [hn, Bool.false_and]
  have hfal : "false".toList.isPrefixOf (c :: (t ++ rest)) = false := by
    change (('f' == c) && _) = false
    rw [hf, Bool.false_and]
  have htru : "true".toList.isPrefixOf (c :: (t ++ rest)) = false := by
    change (('t' == c) && _) = false
    rw [ht, Bool.false_and]
  rw [hct, cons_append, parseValue, hnul, hfal, htru]
  · exact if_pos hc
  · exact hne '"' (by decide) (by decide)
  · exact hne '[' (by decide) (by decide)
  · exact hne '{' (by decide) (by decide)

theorem printArray_head {c : Chain F} (hc : c.TextualArray) (hne : c ≠ .nil) :
    ∃ d t, c.printArray = d :: t ∧ 32 < d.toNat ∧ d ≠ ']' := by
  cases c with
  | nil => exact absurd rfl hne
  | cons name item next =>
    obtain ⟨d, t, hdt, hd⟩ := print_head hc.1
    exact ⟨d, t ++ next.comma ++ next.printArray, by rw [printArray, hdt]; rfl, hd⟩

theorem printObject_head {c : Chain F} (hc : c.TextualObject) (hne : c ≠ .nil) :
    ∃ t, c.printObject = '"' :: t := by
  cases c with
  | nil => exact absurd rfl hne
  | cons name item next =>
    cases name with
    | none => exact absurd hc.1 (by decide)
    | some name => exact ⟨_, rfl⟩

mutual

/-- A printed item is read as `Item.reread` says, up to what follows it. -/
theorem parseValue_print (item : Item F) (hi : item.Textual) (n : ℕ) (hn : item.print.length ≤ n)
    {rest : Text} (hres : Ends rest) :
    parseValue n (item.print ++ rest) = item.reread.map fun r => (r, rest) := by
  obtain ⟨c, t, hct, -⟩ := print_head hi
  obtain ⟨n, rfl⟩ : ∃ m, n = m + 1 := by
    rw [hct, length_cons] at hn
    exact ⟨n - 1, by omega⟩
  cases item with
  | null => rfl
  | bool b =>
    cases b with
    | false => rfl
    | true => rfl
  | int i =>
    rw [print_int, parseValue_number, parseNumber_printLong i hres, reread]
    cases rereadLong i <;> rfl
  | double x => exact hi.elim
  | string s =>
    have hs := parseString_print s rest
    rw [print_string]
    rw [printString, cons_append] at hs ⊢
    rw [parseValue_string, hs]
    rfl
  | array c =>
    rw [print_array, cons_append, append_assoc, singleton_append, reread]
    by_cases hnil : c = .nil
    · subst hnil
      rfl
    · have hlen : c.printArray.length + 1 ≤ n := by
        simp only [print_array, length_cons, length_append, length_nil] at hn
        omega
      have hcha := parseItems_print c hi hnil n hlen rest
      obtain ⟨d, t, hdt, hlow, hend⟩ := printArray_head hi hnil
      rw [hdt, cons_append] at hcha ⊢
      rw [parseValue_array n hlow hend, hcha]
      cases c.rereadArray <;> rfl
  | object c =>
    rw [print_object, cons_append, append_assoc, singleton_append, reread]
    by_cases hnil : c = .nil
    · subst hnil
      rfl
    · have hlen : c.printObject.length + 1 ≤ n := by
        simp only [print_object, length_cons, length_append, length_nil] at hn
        omega
      have hcha := parseMembers_print c hi hnil n hlen rest
      obtain ⟨t, hdt⟩ := printObject_head hi hnil
      rw [hdt, cons_append] at hcha ⊢
      rw [parseValue_object n (by decide) (by decide), hcha]
      cases c.rereadObject <;> rfl

theorem parseItems_print (c : Chain F) (hc : c.TextualArray) (hne : c ≠ .nil) (n : ℕ)
    (hn : c.printArray.length + 1 ≤ n) (rest : Text) : parseItems n (c.printArray ++ ']' :: rest) =
      c.rereadArray.map fun r => (r, ']' :: rest) := by
  obtain ⟨n, rfl⟩ : ∃ m, n = m + 1 := ⟨n - 1, by omega⟩
  cases c with
  | nil => exact absurd rfl hne
  | cons name item next =>
    simp only [printArray, length_append] at hn
    have hend : Ends (next.comma ++ (next.printArray ++ ']' :: rest)) :=
      ends_comma next _ rest ⟨by decide, by decide, by decide, by decide⟩
        fun h => by rw [h]; rfl
    have hite := parseValue_print item hc.1 n (by omega) hend
    rw [printArray, append_assoc, append_assoc, parseItems, skip_print hc.1, rereadArray]
    change (parseValue n _).bind _ = _
    rw [hite]
    cases item.reread with
    | error e => rfl
    | ok r =>
      by_cases hnil : next = .nil
      · subst hnil
        rfl
      · rw [comma_of_ne_nil hnil] at hn ⊢
        rw [length_singleton] at hn
        have hnex := parseItems_print next hc.2 hnil n (by omega) rest
        change (parseItems n (next.printArray ++ ']' :: rest)).map _ = _
        rw [hnex]
        cases next.rereadArray <;> rfl

theorem parseMembers_print (c : Chain F) (hc : c.TextualObject) (hne : c ≠ .nil) (n : ℕ)
    (hn : c.printObject.length + 1 ≤ n) (rest : Text) :
    parseMembers n (c.printObject ++ '}' :: rest) =
      c.rereadObject.map fun r => (r, '}' :: rest) := by
  obtain ⟨n, rfl⟩ : ∃ m, n = m + 1 := ⟨n - 1, by omega⟩
  cases c with
  | nil => exact absurd rfl hne
  | cons name item next =>
    obtain ⟨name, rfl⟩ := Option.isSome_iff_exists.mp hc.1
    simp only [printObject, length_append, length_cons] at hn
    have hend : Ends (next.comma ++ (next.printObject ++ '}' :: rest)) :=
      ends_comma next _ rest ⟨by decide, by decide, by decide, by decide⟩
        fun h => by rw [h]; rfl
    have hite := parseValue_print item hc.2.1 n (by omega) hend
    have hnam := parseString_print name
    have htex : (cons (some name) item next).printObject ++ '}' :: rest =
        printString name ++
          ':' :: (item.print ++ (next.comma ++ (next.printObject ++ '}' :: rest))) := by
      simp [printObject, printName]
    rw [htex, rereadObject]
    change (parseString (printString name ++ _)).bind _ = _
    rw [hnam]
    change (skip (item.print ++ _)).bind _ = _
    rw [skip_print hc.2.1]
    change (parseValue n _).bind _ = _
    rw [hite]
    cases item.reread with
    | error e => rfl
    | ok r =>
      by_cases hnil : next = .nil
      · subst hnil
        rfl
      · rw [comma_of_ne_nil hnil] at hn ⊢
        have hnex := parseMembers_print next hc.2.2 hnil n (by omega) rest
        change (parseMembers n (next.printObject ++ '}' :: rest)).map _ = _
        rw [hnex]
        cases next.rereadObject <;> rfl

end

theorem parse_print (hi : item.Textual) : parse item.print = item.reread := by
  have hski := skip_print hi []
  have hend : Ends [] := by
    intro c hc
    cases hc
  have hval := parseValue_print item hi (2 * item.print.length + 1) (by omega) hend
  rw [append_nil] at hski hval
  rw [parse, hski]
  change (parseValue (2 * item.print.length + 1) item.print).bind _ = _
  rw [hval]
  cases item.reread <;> rfl

end Clockwork.CJson
