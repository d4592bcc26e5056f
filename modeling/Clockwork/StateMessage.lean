import Clockwork.CJsonRest
import Clockwork.MessageEncoding

namespace Clockwork.StateMessage

open CJson MessageEncoding List Fallible

/-- `encodeState` with an authority, which is printed as a signed number. The buffer has room for
80 characters beside the names. -/
def encodeState (machine state : String) (authority : UInt64) : Text :=
  let text := "\x7b\"command\":\"STATE\", \"params\":[\"".toList ++ cStr machine ++
    "\", \"".toList ++ cStr state ++ "\", ".toList ++ printLong authority.toInt64 ++
    "]\x7d ".toList
  text.take (machine.length + state.length + 79)

section Decode

variable {F : Type} [NumberText F]

/-- `getState`. A message without parameters has no list, which is the empty list here. -/
def getState (msg : Text) : Except Fault (Option (String × List (Value F))) :=
  match parse msg with
  | .error .malformed => .ok none
  | .error e => .error e
  | .ok obj =>
    match obj.getObjectItem "command" with
    | some (.string s) =>
      match obj.getObjectItem "params" with
      | none => .error .nullPointer
      | some params =>
        (params.child.toList.mapM fun item => valueFromJSONObject (some item) none).map
          fun values => some (String.ofList s, values.filter fun v => v.ne .empty)
    | _ => .ok none

end Decode

variable (F : Type) [NumberText F]

def RoundTrip (machine state : String) (authority : UInt64) : Prop :=
  ∃ i : Int64, getState (F := F) (encodeState machine state authority) =
      .ok (some ("STATE", [.string machine, .string state, .integer i])) ∧
    i.toUInt64 = authority

variable {F}

def opening : Text := "\x7b\"command\":\"STATE\", \"params\":[".toList

def closing (authority : Int64) : Text :=
  ',' :: ' ' :: (printLong authority ++ "]\x7d ".toList)

def parameters (machine state : Text) (authority : Int64) : Text :=
  '"' :: (machine ++ '"' :: ',' :: ' ' :: '"' :: (state ++ '"' :: closing authority))

theorem length_printLong_le (i : Int64) : (printLong i).length ≤ 20 := by
  have hlow := i.le_toInt
  have hhig := i.toInt_lt
  have hdig : (Nat.toDigits 10 i.toInt.natAbs).length ≤ 19 :=
    Decimal.length_toDigits_le (k := 18) (by omega)
  rw [printLong_eq, length_append]
  split_ifs
  · rw [length_singleton]
    omega
  · rw [length_nil]
    omega

theorem length_cStr_le (s : String) : (cStr s).length ≤ s.length :=
  (List.takeWhile_prefix _).length_le

theorem encodeState_eq (machine state : String) (authority : UInt64) :
    encodeState machine state authority =
      opening ++ parameters (cStr machine) (cStr state) authority.toInt64 := by
  have hmac := length_cStr_le machine
  have hsta := length_cStr_le state
  have hlon := length_printLong_le authority.toInt64
  have htex : "\x7b\"command\":\"STATE\", \"params\":[\"".toList ++ cStr machine ++
      "\", \"".toList ++ cStr state ++ "\", ".toList ++ printLong authority.toInt64 ++
      "]\x7d ".toList =
      opening ++ parameters (cStr machine) (cStr state) authority.toInt64 := by
    have hfir : "\x7b\"command\":\"STATE\", \"params\":[\"".toList = opening ++ ['"'] := by decide
    have hsec : "\", \"".toList = ['"', ',', ' ', '"'] := by decide
    have hthi : "\", ".toList = ['"', ',', ' '] := by decide
    rw [hfir, hsec, hthi]
    unfold parameters closing
    simp only [append_assoc, cons_append, nil_append]
  have hope : opening.length = 30 := by decide
  have hclo : "]\x7d ".toList.length = 3 := by decide
  unfold encodeState
  rw [htex]
  apply take_of_length_le
  simp only [parameters, closing, length_append, length_cons, hope, hclo]
  omega

theorem bare_closing (authority : Int64) : ∀ c ∈ closing authority, Bare c := by
  have hlon : ∀ c ∈ printLong authority, Bare c := by
    intro c hc
    rcases Decimal.isDigit_or_sign hc with rfl | hdig
    · decide
    · simp only [Char.isDigit, Bool.and_eq_true, decide_eq_true_eq] at hdig
      have hlow : 48 ≤ c.toNat := hdig.1
      have hhig : c.toNat ≤ 57 := hdig.2
      refine ⟨by omega, ?_, ?_⟩
      · rintro rfl
        exact absurd hlow (by decide)
      · rintro rfl
        exact absurd hhig (by decide)
  unfold closing
  simp only [forall_mem_cons, forall_mem_append]
  exact ⟨by decide, by decide, hlon, bare_of_all rfl⟩

def stateValue : Item F → Value F
  | .string s => .string (String.ofList s)
  | .bool b => .bool b
  | .int i => .integer i
  | .double x => .float x
  | .null => .empty
  | .array _ => .empty
  | .object _ => .empty

omit [NumberText F] in
theorem valueFromJSONObject_eq (item : Item F) :
    valueFromJSONObject (some item) none = .ok (stateValue item) := by
  cases item <;> rfl

def stateValues (c : Chain F) : List (Value F) :=
  (c.toList.map stateValue).filter fun v => v.ne .empty

omit [NumberText F] in
theorem mapM_valueFromJSONObject (c : Chain F) :
    c.toList.mapM (fun item => valueFromJSONObject (some item) none) =
      .ok (c.toList.map stateValue) := by
  rw [mapM_eq_ok_iff, forall₂_map_right_iff, forall₂_same]
  exact fun item _ => valueFromJSONObject_eq item

variable {x : Text} {c : Chain F}

theorem mem_of_mem_stateValues {s : String} (h : .string s ∈ stateValues c) :
    .string s.toList ∈ c.toList := by
  obtain ⟨item, hite, hval⟩ := mem_map.mp (mem_of_mem_filter h)
  cases item with
  | string t =>
    obtain rfl := Value.string.inj hval
    rwa [String.toList_ofList]
  | null => cases hval
  | bool b => cases hval
  | int i => cases hval
  | double x => cases hval
  | array c => cases hval
  | object c => cases hval

variable {authority : Int64}

theorem length_of_comma_suffix {m s t : Text} (h : ',' :: t <:+ parameters m s authority)
    (hquo : ('"' :: (s ++ '"' :: closing authority)).length ≤ t.length) :
    s.length + (closing authority).length + 4 ≤ (',' :: t).length := by
  by_contra hnot
  have hbla : ',' :: t <:+ ' ' :: '"' :: (s ++ '"' :: closing authority) := by
    apply suffix_of_suffix_length_le h
    · exact ⟨'"' :: (m ++ ['"', ',']), by simp [parameters]⟩
    · simp only [length_cons, length_append] at hnot ⊢
      omega
  have heq := hbla.eq_of_length (by
    simp only [length_cons, length_append] at hnot hquo ⊢
    omega)
  exact absurd (cons.inj heq).1 (by decide)

/-- Two strings that are read one after the other from the parameters, and are no shorter than the
names, are the names. -/
theorem names_eq {m s v v' r t' u q : Text} (hm : m.length ≤ v.length)
    (hs : s.length ≤ v'.length) (hv : parseString (parameters m s authority) = .ok (v, r))
    (hr : skip r = .ok (',' :: t')) (hu : u <:+ t') (hrea : parseString u = .ok (v', q))
    (hq : q ≠ []) : (m = v ∧ ∀ c ∈ m, Bare c) ∧ s = v' ∧ ∀ c ∈ s, Bare c := by
  have htex : parameters m s authority =
      ('"' :: (m ++ '"' :: ',' :: ' ' :: '"' :: s)) ++ '"' :: closing authority := by
    simp [parameters]
  have hall : ',' :: t' <:+ parameters m s authority :=
    (skip_suffix hr).trans (parseString_suffix hv)
  -- the second string needs the end of the text from the quote before the state on
  have hsuf :
      u <:+ ('"' :: (m ++ '"' :: ',' :: ' ' :: '"' :: s)) ++ '"' :: closing authority := by
    rw [← htex]
    exact hu.trans ((suffix_cons _ t').trans hall)
  obtain ⟨hclo, hlen⟩ := parseString_within hrea hq hsuf (bare_closing authority)
  have hle := hu.length_le
  have hr' := (skip_suffix hr).length_le
  rw [length_cons] at hr'
  -- so the first one ends before the comma
  have hcom := length_of_comma_suffix hall (by
    simp only [length_cons, length_append]
    omega)
  rw [length_cons] at hcom
  obtain ⟨rfl, hbar, rfl⟩ := parseString_exact (by decide) hv hm (by
    simp only [length_cons, length_append]
    omega)
  obtain ⟨-, rfl⟩ := cons.inj (Except.ok.inj ((skip_cons (by decide) _).symm.trans hr))
  refine ⟨⟨rfl, hbar⟩, ?_⟩
  -- and the second one begins at that quote
  obtain ⟨body, tail, rfl, -⟩ := parseString_body hrea
  rcases suffix_cons_iff.mp hu with heq | hu
  · exact absurd (cons.inj heq).1 (by decide)
  · have heq := hu.eq_of_length (by
      have hle' := hu.length_le
      simp only [length_cons, length_append] at hlen hle' ⊢
      omega)
    rw [heq] at hrea
    obtain ⟨rfl, hbar', -⟩ := parseString_exact (by decide) hrea hs (by
      simp only [closing, length_cons] at hclo ⊢
      omega)
    exact ⟨rfl, hbar'⟩

variable {n : ℕ}

theorem bare_of_parseItems {machine state : String} {m s : Text}
    {c : Chain F} {rest : Text} {w : Value F} (hm : m.length ≤ machine.length)
    (hs : s.length ≤ state.length)
    (h : parseItems (n + 2) (parameters m s authority) = .ok (c, rest))
    (hval : stateValues c = [.string machine, .string state, w]) :
    (m = machine.toList ∧ ∀ c ∈ m, Bare c) ∧ s = state.toList ∧ ∀ c ∈ s, Bare c := by
  obtain ⟨t₀, item, r, r', ht₀, hite, hr', hnex⟩ := parseItems_cases h
  obtain rfl : parameters m s authority = t₀ :=
    Except.ok.inj ((skip_cons (by decide) _).symm.trans ht₀)
  -- the first item is the string at the start
  obtain ⟨⟨v, r₁⟩, hv, heq⟩ := map_eq_ok_iff.mp hite
  cases heq
  dsimp only at hr'
  rcases hnex with ⟨t', c', rfl, hc', rfl⟩ | ⟨rfl, -⟩
  · obtain ⟨hfir, hoth⟩ := cons.inj hval
    have hmac : v = machine.toList := by
      rw [← Value.string.inj hfir, String.toList_ofList]
    have hsta : .string state ∈ stateValues c' := by
      have hoth' : stateValues c' = [.string state, w] := hoth
      rw [hoth']
      exact mem_cons_self
    obtain ⟨u, q, hu, hrea, hq⟩ :=
      exists_parseString_of_mem hc' (mem_of_mem_stateValues hsta)
    rw [hmac] at hv
    exact names_eq hm hs hv hr' hu hrea hq
  · cases hval

theorem opening_append (y : Text) :
    opening ++ y = '\x7b' :: '"' :: ("command".toList ++ '"' :: ':' :: '"' :: ("STATE".toList ++
      '"' :: ',' :: ' ' :: '"' :: ("params".toList ++ '"' :: ':' :: '[' :: y))) := rfl

def messageItem (c next : Chain F) : Item F :=
  .object (.cons (some "command".toList) (.string "STATE".toList)
    (.cons (some "params".toList) (.array c) next))

theorem length_opening_append (x : Text) :
    2 * (opening ++ '"' :: x).length + 1 = 2 * x.length + 62 + 1 := by
  have hope : opening.length = 30 := by decide
  rw [length_append, hope, length_cons]
  omega

theorem skip_opening (x : Text) : skip (opening ++ x) = .ok (opening ++ x) := by
  rw [opening_append]
  exact skip_cons (by decide) _

theorem parseMembers_params_cases {x rest : Text} {c₁ : Chain F} (h : parseMembers (n + 2)
      (' ' :: '"' :: ("params".toList ++ '"' :: ':' :: '[' :: '"' :: x)) = .ok (c₁, rest)) :
    ∃ c rest' next, parseItems n ('"' :: x) = .ok (c, rest') ∧
      c₁ = .cons (some "params".toList) (.array c) next := by
  obtain ⟨item, q, q', hite, -, hnex⟩ :=
    parseMembers_named "params".toList (bare_of_all rfl) rfl (by decide) h
  rw [parseValue_array _ (by decide) (by decide)] at hite
  obtain ⟨⟨c, r⟩, hitm, hite⟩ := bind_eq_ok_iff.mp hite
  dsimp only at hite
  split at hite
  · cases hite
    rcases hnex with ⟨t', c', -, -, rfl⟩ | ⟨rfl, -⟩
    · exact ⟨c, _, c', hitm, rfl⟩
    · exact ⟨c, _, .nil, hitm, rfl⟩
  · cases hite

theorem parseMembers_command_cases {y rest : Text} {c₀ : Chain F}
    (h : parseMembers (n + 2) ('"' :: ("command".toList ++ '"' :: ':' :: '"' ::
      ("STATE".toList ++ '"' :: ',' :: y))) = .ok (c₀, '\x7d' :: rest)) :
    ∃ c₁, parseMembers (n + 1) y = .ok (c₁, '\x7d' :: rest) ∧
      c₀ = .cons (some "command".toList) (.string "STATE".toList) c₁ := by
  obtain ⟨item, q, q', hite, hq', hnex⟩ := parseMembers_named "command".toList
    (bare_of_all rfl) (skip_cons (by decide) _) (by decide) h
  rw [parseValue_string, parseString_bare (bare_of_all rfl)] at hite
  cases hite
  obtain rfl := Except.ok.inj ((skip_cons (by decide) _).symm.trans hq')
  rcases hnex with ⟨t', c₁, heq, hc₁, rfl⟩ | ⟨-, heq⟩
  · obtain ⟨-, rfl⟩ := cons.inj heq
    exact ⟨c₁, hc₁, rfl⟩
  · exact absurd (cons.inj heq).1 (by decide)

theorem parse_opening_cases {obj : Item F} (h : parse (opening ++ '"' :: x) = .ok obj) :
    ∃ c rest next, parseItems (2 * x.length + 59) ('"' :: x) = .ok (c, rest) ∧
      obj = messageItem c next := by
  rw [parse_eq (skip_opening _)] at h
  obtain ⟨⟨obj', rest⟩, hval, h⟩ := bind_eq_ok_iff.mp h
  cases h
  rw [length_opening_append, opening_append, parseValue_object _ (by decide) (by decide)] at hval
  obtain ⟨⟨c₀, r₀⟩, hmem, hval⟩ := bind_eq_ok_iff.mp hval
  dsimp only at hval
  split at hval
  · cases hval
    obtain ⟨c₁, hc₁, rfl⟩ := parseMembers_command_cases hmem
    obtain ⟨c, rest', next, hite, rfl⟩ := parseMembers_params_cases hc₁
    exact ⟨c, rest', next, hite, rfl⟩
  · cases hval

theorem parseMembers_params (h : parseItems n ('"' :: x) = .ok (c, "]\x7d ".toList)) :
    parseMembers (n + 2) (' ' :: '"' :: ("params".toList ++ '"' :: ':' :: '[' :: '"' :: x)) =
      .ok (.cons (some "params".toList) (.array c) .nil, "\x7d ".toList) := by
  have hval : parseValue (n + 1) ('[' :: '"' :: x) = .ok (.array c, "\x7d ".toList) := by
    rw [parseValue_array _ (by decide) (by decide), h]
    rfl
  exact (parseMembers_bare "params".toList (bare_of_all rfl) rfl (by decide) hval).2 [' '] rfl

theorem parseMembers_command {y rest : Text} {next : Chain F}
    (h : parseMembers (n + 1) y = .ok (next, rest)) :
    parseMembers (n + 2) ('"' :: ("command".toList ++ '"' :: ':' :: '"' :: ("STATE".toList ++
        '"' :: ',' :: y))) =
      .ok (.cons (some "command".toList) (.string "STATE".toList) next, rest) := by
  have hval : parseValue (F := F) (n + 1) ('"' :: ("STATE".toList ++ '"' :: ',' :: y)) =
      .ok (.string "STATE".toList, ',' :: y) := by
    rw [parseValue_string, parseString_bare (bare_of_all rfl)]
    rfl
  have hmem := (parseMembers_bare "command".toList (bare_of_all rfl)
    (skip_cons (by decide) ("command".toList ++ '"' :: ':' :: '"' :: ("STATE".toList ++
      '"' :: ',' :: y))) (by decide) hval).1 y (skip_cons (by decide) y)
  rw [hmem, h]
  rfl

theorem parse_opening (h : parseItems (2 * x.length + 59) ('"' :: x) = .ok (c, "]\x7d ".toList)) :
    parse (opening ++ '"' :: x) = .ok (messageItem c .nil) := by
  rw [parse_eq (skip_opening _), length_opening_append, opening_append,
    parseValue_object _ (by decide) (by decide), parseMembers_command (parseMembers_params h)]
  rfl

theorem getState_of_parse {msg : Text} {c next : Chain F}
    (h : parse msg = .ok (messageItem c next)) :
    getState msg = .ok (some ("STATE", stateValues c)) := by
  unfold getState
  rw [h]
  change ((c.toList.mapM fun item => valueFromJSONObject (some item) none).map _) = _
  rw [mapM_valueFromJSONObject]
  rfl

theorem exists_parseItems_of_getState {r : String × List (Value F)}
    (h : getState (opening ++ '"' :: x) = .ok (some r)) :
    ∃ c rest, parseItems (2 * x.length + 59) ('"' :: x) = .ok (c, rest) ∧
      r = ("STATE", stateValues c) := by
  cases hpar : parse (F := F) (opening ++ '"' :: x) with
  | error e =>
    unfold getState at h
    rw [hpar] at h
    cases e <;> cases h
  | ok obj =>
    obtain ⟨c, rest, next, hite, rfl⟩ := parse_opening_cases hpar
    rw [getState_of_parse hpar] at h
    exact ⟨c, rest, hite, (Option.some.inj (Except.ok.inj h)).symm⟩

theorem parseItems_long (n : ℕ) (authority : Int64) :
    parseItems (F := F) (n + 2) (' ' :: (printLong authority ++ "]\x7d ".toList)) =
      (rereadLong authority).map fun i => (.cons none (.int i) .nil, "]\x7d ".toList) := by
  obtain ⟨c, t, hct, hc⟩ := printLong_head authority
  have hski : skip (' ' :: (printLong authority ++ "]\x7d ".toList)) =
      .ok (printLong authority ++ "]\x7d ".toList) := by
    have hbar := bare_closing authority c (by simp [closing, hct])
    have hne : c.toNat ≠ 32 := by
      rcases hc with rfl | hdig
      · decide
      · simp only [Char.isDigit, Bool.and_eq_true, decide_eq_true_eq] at hdig
        have hlow : 48 ≤ c.toNat := hdig.1
        omega
    have hlow := hbar.1
    rw [hct]
    exact skip_cons (c := c) (by omega) _
  have hend : Ends "]\x7d ".toList :=
    ends_cons ⟨by decide, by decide, by decide, by decide⟩ _
  rw [parseItems, hski]
  change (parseValue (n + 1) _).bind _ = _
  rw [parseValue_number, parseNumber_printLong authority hend]
  cases rereadLong authority with
  | error e => rfl
  | ok i => rfl

theorem parseItems_parameters (n : ℕ) {m s : Text} (hm : ∀ c ∈ m, Bare c) (hs : ∀ c ∈ s, Bare c)
    (authority : Int64) : parseItems (F := F) (n + 4) (parameters m s authority) =
      (rereadLong authority).map fun i =>
        (.cons none (.string m) (.cons none (.string s) (.cons none (.int i) .nil)),
          "]\x7d ".toList) := by
  have hstr (n : ℕ) {s : Text} (hs : ∀ c ∈ s, Bare c) (rest : Text) :
      parseValue (F := F) (n + 1) ('"' :: (s ++ '"' :: rest)) = .ok (.string s, rest) := by
    rw [parseValue_string, parseString_bare hs]
    rfl
  have hsec := parseItems_next (t := ' ' :: '"' :: (s ++ '"' :: closing authority)) rfl
    (hstr (n + 1) hs (closing authority)) (skip_cons (by decide) _)
  have hfir := parseItems_next (t := parameters m s authority) (skip_cons (by decide) _)
    (hstr (n + 2) hm (',' :: ' ' :: '"' :: (s ++ '"' :: closing authority)))
    (skip_cons (by decide) _)
  rw [hfir, hsec, parseItems_long]
  cases rereadLong authority with
  | error e => rfl
  | ok i => rfl

theorem cStr_of_bare {s : String} (h : ∀ c ∈ s.toList, Bare c) : cStr s = s.toList := by
  apply cStr_of_forall
  rintro c hc rfl
  exact absurd (h _ hc) (by decide)

/-- The message is decoded as it was encoded exactly if the names have no quotes, backslashes and
control characters, and the authority is a number that a `double` represents. -/
theorem state_roundTrip_iff (machine state : String) (authority : UInt64) :
    RoundTrip F machine state authority ↔
      (∀ c ∈ machine.toList, Bare c) ∧ (∀ c ∈ state.toList, Bare c) ∧
        authority.toInt64 ≠ Int64.minValue ∧ Binary64.Exact authority.toInt64.toInt.natAbs := by
  unfold RoundTrip
  rw [encodeState_eq, ← rereadLong_eq_self_iff]
  generalize hx : cStr machine ++ '"' :: ',' :: ' ' :: '"' ::
    (cStr state ++ '"' :: closing authority.toInt64) = x
  have hpar : parameters (cStr machine) (cStr state) authority.toInt64 = '"' :: x := by
    rw [← hx]
    rfl
  rw [hpar]
  constructor
  · rintro ⟨i, hsta, hi⟩
    obtain ⟨c, rest, hite, hval⟩ := exists_parseItems_of_getState hsta
    replace hval := (Prod.mk.inj hval).2.symm
    rw [← hpar] at hite
    obtain ⟨⟨hmac, hm⟩, hsta, hs⟩ := bare_of_parseItems (n := 2 * x.length + 57)
      (length_cStr_le machine) (length_cStr_le state) hite hval
    rw [parseItems_parameters (2 * x.length + 55) hm hs] at hite
    obtain ⟨j, hj, heq⟩ := map_eq_ok_iff.mp hite
    obtain ⟨rfl, -⟩ := Prod.mk.inj heq
    rw [← hmac, ← hsta]
    refine ⟨hm, hs, ?_⟩
    -- the third value is the number that was read
    have hlas := (cons.inj (cons.inj (cons.inj hval).2).2).1
    obtain rfl := Value.integer.inj hlas
    rw [hj, ← hi, Int64.toInt64_toUInt64]
  · rintro ⟨hm, hs, hlon⟩
    have hite := parseItems_parameters (F := F) (2 * x.length + 55) hm hs authority.toInt64
    rw [← cStr_of_bare hm, ← cStr_of_bare hs, hpar, hlon] at hite
    refine ⟨authority.toInt64, ?_, UInt64.toUInt64_toInt64 authority⟩
    rw [getState_of_parse (parse_opening hite), cStr_of_bare hm, cStr_of_bare hs]
    unfold stateValues
    simp only [Chain.toList, map_cons, map_nil, stateValue, String.ofList_toList]
    rfl

/-- A quote in a name, and an authority that a `double` does not represent. -/
theorem message_changed :
    ¬RoundTrip ℚ "pump\"1" "on" 7 ∧ ¬RoundTrip ℚ "pump" "on" 9007199254740993 := by
  constructor
  · rintro ⟨i, h, -⟩
    have hmal : getState (F := ℚ) (encodeState "pump\"1" "on" 7) = .ok none := by
      decide +kernel
    rw [hmal] at h
    cases h
  · rintro ⟨i, h, hi⟩
    have hrou : getState (F := ℚ) (encodeState "pump" "on" 9007199254740993) =
        .ok (some ("STATE", [.string "pump", .string "on", .integer 9007199254740992])) := by
      decide +kernel
    rw [hrou] at h
    cases h
    cases hi

end Clockwork.StateMessage
