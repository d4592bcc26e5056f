import Clockwork.CJsonText
import Clockwork.Library.Fallible

namespace Clockwork.MessageEncoding

open CJson List Fallible Item Value

variable {F : Type}

def valueType : Value F → String
  | .symbol _ _ => "NAME"
  | .string _ => "STRING"
  | .integer _ => "INTEGER"
  | .float _ => "FLOAT"
  | .bool _ => "BOOL"
  | .empty => ""

def addValueToJSONObject (name : Text) : Value F → Chain F
  | .symbol s _ => .cons (some name) (.string (cStr s)) .nil
  | .string s => .cons (some name) (.string (cStr s)) .nil
  | .integer i => .cons (some name) (.int i) .nil
  | .float x => .cons (some name) (.double x) .nil
  | .bool b => .cons (some name) (.bool b) .nil
  | .empty => .nil

def paramItem (v : Value F) : Item F :=
  .object (.cons (some "type".toList) (.string (valueType v).toList)
    (addValueToJSONObject "value".toList v))

def arrayOf : List (Item F) → Chain F
  | [] => .nil
  | item :: items => .cons none item (arrayOf items)

def typeName : Option (Item F) → Except Fault Text
  | none => .ok "STRING".toList
  | some (.string t) => .ok t
  | some _ => .error .assertion

def valueFromJSONObject (obj type : Option (Item F)) : Except Fault (Value F) :=
  match obj with
  | none => .ok .empty
  | some obj => (typeName type).map fun type =>
    match obj with
    | .string s =>
      if type = "STRING".toList then .string (String.ofList s) else .ofString (String.ofList s)
    | .null => .empty
    | .bool b => .bool b
    | .int i => .integer i
    | .double x => .float x
    | .array _ => .empty
    | .object _ => .empty

def paramValue (cmd : String) (item : Item F) : Except Fault (Value F) :=
  if cmd = "STATE" then valueFromJSONObject (some item) none
  else valueFromJSONObject (item.getObjectItem "value") (item.getObjectItem "type")

section Messages

variable [NumberText F]

def message (cmd : String) (params : List (Value F)) : Item F :=
  .object (.cons (some "command".toList) (.string (cStr cmd))
    (.cons (some "params".toList)
      (.array (arrayOf ((params.filter fun v => v.ne .empty).map paramItem))) .nil))

def encodeCommand (cmd : String) (params : List (Value F)) : Text := (message cmd params).print

/-- `encodeCommand` with up to four parameters, `SymbolTable::Null` for the others. -/
def encodeParams (cmd : String) (p1 p2 p3 p4 : Value F) : Text :=
  encodeCommand cmd ([p1, p2, p3, p4].filter fun v => v.ne .empty)

/-- Both overloads of `getCommand`. The one for vectors keeps the empty values of a `STATE`
command. A message without parameters has no list, which is the empty list here. -/
def getCommand (vector : Bool) (msg : Text) : Except Fault (Option (String × List (Value F))) :=
  match parse msg with
  | .error .malformed => .ok none
  | .error e => .error e
  | .ok obj =>
    match obj.getObjectItem "command" with
    | some (.string s) =>
      match obj.getObjectItem "params" with
      | none => .error .nullPointer
      | some params =>
        let cmd := String.ofList s
        (params.child.toList.mapM (paramValue cmd)).map fun values =>
          some (cmd, if vector ∧ cmd = "STATE" then values else values.filter fun v => v.ne .empty)
    | _ => .ok none

end Messages

/-- The kinds of parameters that have a text. -/
def Sendable (v : Value F) : Prop :=
  v.kind = .string ∨ v.kind = .symbol ∨ v.kind = .integer ∨ v.kind = .bool

def plain (s : String) : String := String.ofList ((cStr s).filter kept)

def arrive : Value F → Except Fault (Value F)
  | .string s => .ok (.string (plain s))
  | .symbol s _ => .ok (.ofString (plain s))
  | .integer i => (rereadLong i).map .integer
  | v => .ok v

variable {v : Value F}

theorem paramItem_textual (h : Sendable v) : (paramItem v).Textual := by
  cases v with
  | empty => simp [Sendable, kind] at h
  | float x => simp [Sendable, kind] at h
  | integer i => exact ⟨rfl, trivial, rfl, trivial, trivial⟩
  | string s => exact ⟨rfl, trivial, rfl, trivial, trivial⟩
  | bool b => exact ⟨rfl, trivial, rfl, trivial, trivial⟩
  | symbol s t => exact ⟨rfl, trivial, rfl, trivial, trivial⟩

theorem arrayOf_textual {items : List (Item F)} (h : ∀ item ∈ items, item.Textual) :
    (arrayOf items).TextualArray := by
  induction items with
  | nil => trivial
  | cons item items ih =>
    exact ⟨h item mem_cons_self, ih fun i hi => h i (mem_cons_of_mem item hi)⟩

variable (items : List (Item F))

theorem toList_arrayOf : (arrayOf items).toList = items := by
  induction items with
  | nil => rfl
  | cons item items ih => rw [arrayOf, Chain.toList, ih]

theorem rereadArray_arrayOf : (arrayOf items).rereadArray = (items.mapM reread).map arrayOf := by
  induction items with
  | nil => rfl
  | cons item items ih =>
    rw [arrayOf, Chain.rereadArray, ih, mapM_cons]
    cases item.reread with
    | error e => rfl
    | ok i =>
      cases items.mapM reread <;> rfl

def typed (type : Text) (x : Item F) : Item F :=
  .object (.cons (some "type".toList) (.string type) (.cons (some "value".toList) x .nil))

theorem typed_reread (type : Text) (x : Item F) :
    (typed type x).reread = x.reread.map (typed (type.filter kept)) := by
  have htyp : "type".toList.filter kept = "type".toList := by decide
  have hval : "value".toList.filter kept = "value".toList := by decide
  simp only [typed, reread, Chain.rereadObject, Option.map_some, htyp, hval]
  cases x.reread <;> rfl

variable {cmd : String}

theorem paramValue_typed (hcmd : cmd ≠ "STATE") (type : Text) (x : Item F) :
    paramValue cmd (typed type x) = valueFromJSONObject (some x) (some (.string type)) :=
  if_neg hcmd

theorem paramValue_reread (h : Sendable v) (hcmd : cmd ≠ "STATE") :
    (paramItem v).reread.bind (paramValue cmd) = arrive v := by
  cases v with
  | empty => simp [Sendable, kind] at h
  | float x => simp [Sendable, kind] at h
  | integer i =>
    change (typed "INTEGER".toList (.int i)).reread.bind _ = _
    rw [typed_reread, reread, arrive]
    cases rereadLong i with
    | error e => rfl
    | ok j => exact paramValue_typed hcmd _ _
  | string s =>
    change (typed "STRING".toList (.string (cStr s))).reread.bind _ = _
    refine (paramValue_typed hcmd _ _).trans ?_
    rfl
  | bool b =>
    exact paramValue_typed hcmd _ _
  | symbol s t =>
    refine (paramValue_typed hcmd _ _).trans ?_
    have htyp : "NAME".toList.filter kept ≠ "STRING".toList := by decide
    exact congrArg Except.ok (if_neg htyp)

theorem paramValue_state {item : Item F} (h : (paramItem v).reread = .ok item) :
    paramValue "STATE" item = .ok .empty := by
  obtain ⟨c, rfl⟩ : ∃ c, item = .object c := by
    obtain ⟨c, -, hc⟩ := map_eq_ok_iff.mp h
    exact ⟨c, hc.symm⟩
  rfl

def Plain (s : String) : Prop := ∀ c ∈ s.toList, kept c = true

instance : DecidablePred Plain := fun s =>
  List.decidableBAll (fun c => kept c = true) s.toList

def Survives : Value F → Prop
  | .string s => Plain s
  | .symbol s _ => Plain s ∧ s ≠ "TRUE" ∧ s ≠ "FALSE" ∧ s ≠ "NULL"
  | .integer i => i ≠ Int64.minValue ∧ Binary64.Exact i.toInt.natAbs
  | _ => True

theorem plain_eq_self_iff (s : String) : plain s = s ↔ Plain s := by
  constructor
  · intro h c hc
    rw [← h, plain, String.toList_ofList] at hc
    exact (mem_filter.mp hc).2
  · intro h
    have hcs : cStr s = s.toList := by
      refine takeWhile_eq_self_iff.mpr fun c hc => ?_
      have hkep := h c hc
      exact decide_eq_true fun hnul => by simp [hnul, kept] at hkep
    rw [plain, hcs, filter_eq_self.mpr h, String.ofList_toList]

/-- A text that arrives as a symbol, and whole. -/
def Named (s : String) : Prop := Plain s ∧ s ≠ "TRUE" ∧ s ≠ "FALSE" ∧ s ≠ "NULL"

theorem arrive_ofString (s : String) :
    arrive (.ofString s : Value F) = .ok (.ofString (plain s)) := by
  by_cases hemp : s = ""
  · subst hemp
    rfl
  by_cases hfal : s = "FALSE"
  · subst hfal
    rfl
  by_cases htru : s = "TRUE"
  · subst htru
    rfl
  by_cases hnul : s = "NULL"
  · subst hnul
    rfl
  rw [Value.ofString, if_neg hemp, if_neg hfal, if_neg htru, if_neg hnul, arrive]

theorem arrive_same_iff (h : Sendable v) :
    (∃ w, arrive v = .ok w ∧ Value.Same v w) ↔ Survives v := by
  cases v with
  | empty => simp [Sendable, Value.kind] at h
  | float x => simp [Sendable, Value.kind] at h
  | bool b => simp [arrive, Survives, Value.Same.refl]
  | string s =>
    simp only [arrive, Except.ok.injEq, exists_eq_left', Survives, ← plain_eq_self_iff]
    rw [Value.same_iff_eq (by simp [Value.kind]), Value.string.injEq, eq_comm]
  | integer i =>
    simp only [arrive, Fallible.map_eq_ok_iff, Survives, ← rereadLong_eq_self_iff]
    constructor
    · rintro ⟨w, ⟨j, hj, rfl⟩, hsam⟩
      obtain rfl := Value.integer.inj ((Value.same_iff_eq (by simp [Value.kind])).mp hsam)
      exact hj
    · intro hi
      exact ⟨.integer i, ⟨i, hi, rfl⟩, .refl _⟩
  | symbol s t =>
    simp only [arrive, Except.ok.injEq, exists_eq_left', Survives, ← plain_eq_self_iff,
      Value.same_ofString_iff]

variable {params decoded : List (Value F)}

theorem decoded_iff {c : String} (hc : c ≠ "STATE") (h : ∀ v ∈ params, Sendable v) :
    List.Forall₂ (fun v w => (paramItem v).reread.bind (paramValue c) = .ok w) params decoded ↔
      List.Forall₂ (fun v w => arrive v = .ok w) params decoded :=
  forall₂_congr fun v hv w => by rw [paramValue_reread (h v hv) hc]

theorem eq_empty_of_state
    (h : List.Forall₂ (fun v w => (paramItem v).reread.bind (paramValue "STATE") = .ok w)
      params decoded) : ∀ w ∈ decoded, w = .empty := by
  induction h with
  | nil => simp
  | cons h _ ih =>
    refine forall_mem_cons.mpr ⟨?_, ih⟩
    obtain ⟨item, hite, hw⟩ := bind_eq_ok_iff.mp h
    rw [paramValue_state hite] at hw
    exact (Except.ok.inj hw).symm

theorem sendable_of_same {v w : Value F} (h : Sendable v) (hsam : Value.Same v w) : Sendable w := by
  rwa [Sendable, ← hsam.kind_eq]

variable {params values : List (Value F)}

theorem forall_sendable_of_same (h : ∀ v ∈ params, Sendable v)
    (hsam : List.Forall₂ Value.Same params values) : ∀ w ∈ values, Sendable w := by
  induction hsam with
  | nil => simp
  | cons hvw _ ih =>
    obtain ⟨hv, h⟩ := forall_mem_cons.mp h
    exact forall_mem_cons.mpr ⟨sendable_of_same hv hvw, ih h⟩

variable [NumberText F]

theorem ne_empty_of_sendable {v : Value F} (h : Sendable v) : v.ne .empty = true := by
  cases v with
  | empty => simp [Sendable, kind] at h
  | float x => simp [Sendable, kind] at h
  | integer i => rfl
  | string s => rfl
  | bool b => rfl
  | symbol s t => rfl

variable {params : List (Value F)}

theorem message_textual (h : ∀ v ∈ params, Sendable v) : (message cmd params).Textual := by
  refine ⟨rfl, trivial, rfl, arrayOf_textual ?_, trivial⟩
  intro item hite
  obtain ⟨v, hv, rfl⟩ := mem_map.mp hite
  exact paramItem_textual (h v (mem_of_mem_filter hv))

theorem message_reread (cmd : String) (h : ∀ v ∈ params, Sendable v) :
    (message cmd params).reread = (params.mapM (reread ∘ paramItem)).map fun items =>
        .object (.cons (some "command".toList) (.string ((cStr cmd).filter kept))
          (.cons (some "params".toList) (.array (arrayOf items)) .nil)) := by
  have hcom : "command".toList.filter kept = "command".toList := by decide
  have hpar : "params".toList.filter kept = "params".toList := by decide
  have hall : params.filter (fun v => v.ne .empty) = params :=
    filter_eq_self.mpr fun v hv => ne_empty_of_sendable (h v hv)
  simp only [message, reread, Chain.rereadObject, Option.map_some, hcom, hpar, hall,
    rereadArray_arrayOf, mapM_map]
  cases params.mapM (reread ∘ paramItem) <;> rfl

theorem getCommand_encodeCommand_iff {vector : Bool} {cmd c : String}
    (h : ∀ v ∈ params, Sendable v) :
    getCommand vector (encodeCommand cmd params) = .ok (some (c, values)) ↔
      c = plain cmd ∧ ∃ decoded,
        List.Forall₂ (fun v w => (paramItem v).reread.bind (paramValue c) = .ok w) params decoded ∧
        values =
          if vector ∧ c = "STATE" then decoded else decoded.filter fun v => v.ne .empty := by
  have hcom (decoded : List (Value F)) :
      List.Forall₂ (fun v w => (paramItem v).reread.bind (paramValue c) = .ok w) params decoded ↔
        ∃ items, params.mapM (reread ∘ paramItem) = .ok items ∧
          items.mapM (paramValue c) = .ok decoded :=
    mapM_mapM_eq_ok_iff.symm
  simp only [hcom]
  rw [getCommand, encodeCommand, parse_print (message_textual h), message_reread cmd h]
  cases params.mapM (reread ∘ paramItem) with
  | error e => cases e <;> simp [Except.map]
  | ok items =>
    change (((arrayOf items).toList.mapM (paramValue (plain cmd))).map fun values =>
      some (plain cmd, if vector ∧ plain cmd = "STATE" then values
        else values.filter fun v => v.ne .empty)) = _ ↔ _
    rw [toList_arrayOf, map_eq_ok_iff]
    constructor
    · rintro ⟨decoded, hdec, heq⟩
      cases heq
      exact ⟨rfl, decoded, ⟨items, rfl, hdec⟩, rfl⟩
    · rintro ⟨rfl, decoded, ⟨items', hite, hdec⟩, rfl⟩
      cases hite
      exact ⟨decoded, hdec, rfl⟩

theorem encodeCommand_filter (cmd : String) (params : List (Value F)) :
    encodeCommand cmd (params.filter fun v => v.ne .empty) = encodeCommand cmd params := by
  simp only [encodeCommand, message, filter_filter, Bool.and_self]

/-- A command other than `STATE` whose parameters may be `SymbolTable::Null`. -/
theorem getCommand_eq_ok_iff {vector : Bool} {cmd c : String} (hcmd : plain cmd ≠ "STATE")
    (h : ∀ v ∈ params, v.kind ≠ .float) :
    getCommand vector (encodeCommand cmd params) = .ok (some (c, values)) ↔
      c = plain cmd ∧ ∃ decoded, List.Forall₂ (fun v w => arrive v = .ok w) params decoded ∧
        values = decoded.filter fun v => v.ne .empty := by
  have hsen : ∀ v ∈ params.filter (fun v => v.ne .empty), Sendable v := by
    intro v hv
    obtain ⟨hmem, hne⟩ := mem_filter.mp hv
    cases v with
    | empty => cases hne
    | float x => exact absurd rfl (h _ hmem)
    | _ => simp [Sendable, kind]
  have hnul : ∀ v : Value F, v.ne .empty = false →
      ∃ w, (∀ z, arrive v = .ok z ↔ z = w) ∧ w.ne .empty = false := by
    intro v hv
    cases v with
    | empty => exact ⟨.empty, fun z => (Except.ok.injEq _ _).to_iff.trans eq_comm, rfl⟩
    | _ => cases hv
  rw [← encodeCommand_filter, getCommand_encodeCommand_iff hsen]
  refine and_congr_right fun hc => ?_
  subst hc
  simp only [decoded_iff hcmd hsen, if_neg fun hv : vector = true ∧ _ => hcmd hv.2]
  exact exists_forall₂_filter_iff hnul

def Lossless (vector : Bool) (cmd : String) (params : List (Value F)) : Prop :=
  ∃ params', getCommand vector (encodeCommand cmd params) = .ok (some (cmd, params')) ∧
    List.Forall₂ Value.Same params params'

theorem lossless_iff {vector : Bool} {cmd : String} {params : List (Value F)}
    (h : ∀ v ∈ params, Sendable v) : Lossless vector cmd params ↔
      Plain cmd ∧ (cmd = "STATE" → params = []) ∧ ∀ v ∈ params, Survives v := by
  simp only [Lossless, getCommand_encodeCommand_iff h]
  constructor
  · rintro ⟨values, ⟨hcmd, decoded, hdec, hval⟩, hsam⟩
    have hsen := forall_sendable_of_same h hsam
    have hsta : cmd = "STATE" → params = [] := by
      rintro rfl
      -- what is decoded is empty, and an empty value is no sendable one
      have hmem : ∀ w ∈ values, w ∈ decoded := by
        rw [hval]
        split_ifs
        · exact fun w hw => hw
        · exact fun w hw => mem_of_mem_filter hw
      have hnil : values = [] := eq_nil_iff_forall_not_mem.mpr fun w hw => by
        have hw' := hsen w hw
        rw [eq_empty_of_state hdec w (hmem w hw)] at hw'
        simp [Sendable, kind] at hw'
      exact forall₂_nil_right_iff.mp (hnil ▸ hsam)
    refine ⟨(plain_eq_self_iff cmd).mp hcmd.symm, hsta, ?_⟩
    by_cases hc : cmd = "STATE"
    · simp [hsta hc]
    · rw [if_neg fun hv => hc hv.2] at hval
      have hall : values = decoded := by
        have hlen : values.length = decoded.length :=
          hsam.length_eq.symm.trans hdec.length_eq
        rw [hval, length_filter_eq_length_iff] at hlen
        rw [hval, filter_eq_self.mpr hlen]
      have hbot := List.Forall₂.mp (fun _ _ => And.intro) ((decoded_iff hc h).mp hdec)
        (hall ▸ hsam)
      exact fun v hv => (arrive_same_iff (h v hv)).mp
        (exists_forall₂_iff.mp ⟨_, hbot⟩ v hv)
  · rintro ⟨hpla, hsta, hsur⟩
    obtain ⟨decoded, hdec⟩ := exists_forall₂_iff.mpr fun v hv =>
      (arrive_same_iff (h v hv)).mpr (hsur v hv)
    have hsam := hdec.imp fun _ _ hvw => hvw.2
    refine ⟨decoded, ⟨((plain_eq_self_iff cmd).mpr hpla).symm, decoded, ?_, ?_⟩, hsam⟩
    · by_cases hc : cmd = "STATE"
      · obtain rfl := hsta hc
        obtain rfl := forall₂_nil_left_iff.mp hdec
        exact .nil
      · exact (decoded_iff hc h).mpr (hdec.imp fun _ _ hvw => hvw.1)
    · have hsen := forall_sendable_of_same h hsam
      rw [filter_eq_self.mpr fun w hw => ne_empty_of_sendable (hsen w hw), ite_self]

theorem pump_lossless : Lossless (F := ℚ) true "PROPERTY"
      [.symbol "pump" none, .string "say \"on\"\n", .integer (-5), .bool true] := by
  refine (lossless_iff ?_).mpr ⟨by decide, by decide, ?_⟩
  · simp [Sendable, kind]
  · simp only [forall_mem_cons, not_mem_nil, false_implies, implies_true, and_true, Survives]
    exact ⟨⟨by decide, by decide⟩, by decide, ⟨by decide, 5, 0, by decide, rfl⟩⟩

theorem count_not_lossless :
    getCommand false (encodeCommand (F := ℚ) "SET" [.integer 9007199254740993]) =
        .ok (some ("SET", ([.integer 9007199254740992] : List (Value ℚ)))) ∧
      ¬Lossless (F := ℚ) false "SET" [.integer 9007199254740993] := by
  have hdec : getCommand false (encodeCommand (F := ℚ) "SET" [.integer 9007199254740993]) =
      .ok (some ("SET", ([.integer 9007199254740992] : List (Value ℚ)))) := by
    decide +kernel
  refine ⟨hdec, ?_⟩
  rintro ⟨params, hpar, hsam⟩
  rw [hdec] at hpar
  cases hpar
  obtain ⟨hsam, -⟩ := forall₂_cons.mp hsam
  have heq := integer.inj ((same_iff_eq (by decide)).mp hsam)
  cases heq

/-- What `valueFromJSONObject` makes `SymbolTable::Null` of. -/
def Nullish : Item F → Prop
  | .null | .array _ | .object _ => True
  | _ => False

theorem state_ne_empty_iff (item : Item F) :
    ∃ v, paramValue "STATE" item = .ok v ∧ (v.ne .empty = true ↔ ¬Nullish item) := by
  refine ⟨_, rfl, ?_⟩
  cases item <;> simp [Nullish] <;> rfl

theorem mapM_state :
    ∃ values, items.mapM (paramValue "STATE") = .ok values ∧
      (values.filter (fun v => v.ne .empty) = values ↔ ∀ item ∈ items, ¬Nullish item) := by
  obtain ⟨values, hval⟩ := exists_forall₂_iff.mpr fun item (_ : item ∈ items) =>
    state_ne_empty_iff item
  refine ⟨values, mapM_eq_ok_iff.mpr (hval.imp fun _ _ h => h.1), ?_⟩
  rw [filter_eq_self]
  induction hval with
  | nil => simp
  | cons h _ ih => simp [ih, h.2]

/-- The overloads for vectors and for lists agree, except on a `STATE` command with a null
among its parameters. -/
theorem overloads_agree_iff (msg : Text) : getCommand (F := F) true msg = getCommand false msg ↔
      ∀ obj params, parse (F := F) msg = .ok obj →
        obj.getObjectItem "command" = some (.string "STATE".toList) →
        obj.getObjectItem "params" = some params → ∀ item ∈ params.child.toList, ¬Nullish item := by
  unfold getCommand
  cases hpar : parse (F := F) msg with
  | error e => cases e <;> simp
  | ok obj =>
    simp only [Except.ok.injEq, forall_eq', forall_comm (α := Item F)]
    split
    · rename_i s hcom
      cases hlis : obj.getObjectItem "params" with
      | none => simp
      | some params =>
        by_cases hs : s = "STATE".toList
        · subst hs
          obtain ⟨values, hval, hnul⟩ := mapM_state params.child.toList
          simp only [hcom, hval, Except.map, Option.some.injEq, forall_eq', forall_const,
            ← hnul, String.ofList_toList]
          simp [eq_comm]
        · have hne : String.ofList s ≠ "STATE" := fun h => hs (by rw [← h, String.toList_ofList])
          refine iff_of_true (by simp [hne]) fun h => ?_
          rw [hcom] at h
          exact absurd (string.inj (Option.some.inj h)) hs
    · rename_i hcom
      exact iff_of_true rfl fun h => absurd h (hcom _)

def nullState : Text := "\x7b\"command\":\"STATE\",\"params\":[null]\x7d".toList

theorem null_dropped : getCommand (F := ℚ) true nullState = .ok (some ("STATE", [.empty])) ∧
    getCommand (F := ℚ) false nullState = .ok (some ("STATE", [])) := by
  decide +kernel

end Clockwork.MessageEncoding
