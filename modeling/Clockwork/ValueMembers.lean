import Clockwork.Value
import Clockwork.Library.Interner
import Clockwork.Library.Runs

namespace Clockwork.ValueMembers

open Option

variable {F X : Type}

inductive MemberKind where
  | empty | integer | string | bool | symbol | dynamic | float
deriving DecidableEq, Repr

/-- The members of a `Value` without its caches; the dynamic value is not looked into. -/
structure Members (F : Type) where
  kind : MemberKind
  bValue : Bool
  iValue : Int64
  fValue : F
  sValue : String
  tokenId : ℕ

abbrev Tokeniser := Interner.Table String

namespace Members

variable (a b : Members F)

def and : Bool :=
  match a.kind with
  | .integer => decide (a.iValue ≠ 0) && decide (b.iValue ≠ 0)
  | .bool => a.bValue && b.bValue
  | _ => false

def or : Bool :=
  match a.kind with
  | .integer => decide (a.iValue ≠ 0) || decide (b.iValue ≠ 0)
  | .bool => a.bValue || b.bValue
  | _ => false

def not (a : Members F) : Bool :=
  match a.kind with
  | .integer => decide (a.iValue = 0)
  | .bool => !a.bValue
  | .symbol | .string => false
  | _ => true

variable (junk : Members F)

/-- A value whose constructor has set nothing but the kind, the empty text and the token 0. -/
def blank (k : MemberKind) : Members F :=
  { junk with kind := k, sValue := "", tokenId := 0 }

def ofBool (b : Bool) : Members F :=
  { blank junk .bool with bValue := b }

def ofLong (i : Int64) : Members F :=
  { blank junk .integer with iValue := i }

def ofDouble (f : F) : Members F :=
  { blank junk .float with fValue := f }

/-- What the constructors make of a text: a symbol that is the name of a constant has another
kind. -/
def ofText (s : String) (k : MemberKind) : Members F :=
  if k = .symbol ∧ s = "FALSE" then ofBool junk false
  else if k = .symbol ∧ s = "TRUE" then ofBool junk true
  else if k = .symbol ∧ s = "NULL" then blank junk .empty
  else { blank junk k with sValue := s }

/-- `Value(const char *, Kind)`: the name of a constant has no token. -/
def ofChars (t : Tokeniser) (junk : Members F) (s : String) (k : MemberKind) :
    Tokeniser × Members F :=
  if k = .symbol ∧ s ≠ "" ∧ s ≠ "FALSE" ∧ s ≠ "TRUE" ∧ s ≠ "NULL" then
    ((t.intern s).1, { ofText junk s k with tokenId := (t.intern s).2 })
  else (t, ofText junk s k)

def ofString (t : Tokeniser) (junk : Members F) (s : String) (k : MemberKind) :
    Tokeniser × Members F :=
  if k = .symbol ∧ s ≠ "" then
    ((t.intern s).1, { ofText junk s k with tokenId := (t.intern s).2 })
  else (t, ofText junk s k)

/-- `operator=(const Value &)`: only the member that the new kind selects is copied. -/
def assign (x y : Members F) : Members F :=
  match y.kind with
  | .bool => { x with kind := .bool, bValue := y.bValue }
  | .integer => { x with kind := .integer, iValue := y.iValue }
  | .float => { x with kind := .float, fValue := y.fValue }
  | .string => { x with kind := .string, sValue := y.sValue }
  | .symbol => { x with kind := .symbol, sValue := y.sValue, tokenId := y.tokenId }
  | .dynamic => { x with kind := .dynamic }
  | .empty => { x with kind := .empty }

def toStringKind (x : Members F) : Members F :=
  if x.kind = .symbol then { x with kind := .string } else x

def toSymbolKind (x : Members F) : Members F :=
  if x.kind = .string then { x with kind := .symbol } else x

section Sum

variable [Double F]

def asString (dynamicText : String) (x : Members F) : String :=
  match x.kind with
  | .bool => if x.bValue then "true" else "false"
  | .integer => toString x.iValue.toInt
  | .float => Double.format x.fValue
  | .empty => "null"
  | .symbol | .string => x.sValue
  | .dynamic => dynamicText

def sumNumbers (x y : Members F) : Members F :=
  match x.kind, y.kind with
  | .integer, .integer => ofLong x (x.iValue + y.iValue)
  | .integer, .float => ofDouble x (Double.add y.fValue (Double.ofLong x.iValue))
  | .float, .float => ofDouble x (Double.add x.fValue y.fValue)
  | .float, .integer => ofDouble x (Double.add x.fValue (Double.ofLong y.iValue))
  | _, _ => x

def typeFixSum (t : Tokeniser) (dynamicText : String) (x y : Members F) : Tokeniser × Members F :=
  match x.kind, y.kind with
  | .integer, .string | .integer, .symbol | .float, .string | .float, .symbol =>
    if (strtol y.sValue).2 then (t, sumNumbers x (ofLong x (strtol y.sValue).1))
    else if (Double.strtod (F := F) y.sValue).2 then
      (t, sumNumbers x (ofDouble x (Double.strtod y.sValue).1))
    else (t, x)
  | .string, _ => ofString t x (x.sValue ++ y.asString dynamicText) .string
  | .symbol, _ => ofString t x (x.sValue ++ y.asString dynamicText) .symbol
  | .integer, .float | .float, .integer => (t, sumNumbers x y)
  | _, _ => (t, x)

/-- `operator+=`. For booleans the text is extended as well. -/
def addAssign (t : Tokeniser) (dynamicText : String) (x y : Members F) : Tokeniser × Members F :=
  if x.kind ≠ y.kind then
    let v := typeFixSum t dynamicText x y
    (v.1, x.assign v.2)
  else
    let text := x.sValue ++ y.asString dynamicText
    match x.kind with
    | .integer => (t, { x with iValue := x.iValue + y.iValue })
    | .float => (t, { x with fValue := Double.add x.fValue y.fValue })
    | .bool => (t, { x with bValue := x.bValue || y.bValue, sValue := text, tokenId := 0 })
    | .symbol | .string => (t, { x with sValue := text, tokenId := 0 })
    | .empty | .dynamic => (t, x)

end Sum

def truth (v : Members F) : Bool := (ofBool v v.not).not

theorem truth_eq_not (v : Members F) : v.truth = !v.not := rfl

structure Logical : Prop where
  and_eq : a.and b = (a.truth && b.truth)
  or_eq : a.or b = (a.truth || b.truth)
  and_comm : a.and b = b.and a
  or_comm : a.or b = b.or a
  not_and : (!a.and b) = (ofBool a a.not).or (ofBool b b.not)
  not_or : (!a.or b) = (ofBool a a.not).and (ofBool b b.not)

/-- What `&&` and `||` read of the right operand beside a left one of kind `k`. -/
def readAs (k : MemberKind) (b : Members F) : Bool :=
  match k with
  | .integer => decide (b.iValue ≠ 0)
  | .bool => b.bValue
  | _ => false

/-- The left operand is no text, and what is read of the right one is its truth. -/
def ReadsTruth : Prop :=
  a.kind ≠ .string ∧ a.kind ≠ .symbol ∧ readAs a.kind b = b.truth

theorem and_or_eq_iff :
    (a.and b = (a.truth && b.truth) ∧ a.or b = (a.truth || b.truth)) ↔ a.ReadsTruth b := by
  have htru : a.truth = !a.not := rfl
  unfold ReadsTruth and or readAs
  rw [htru]
  unfold not
  cases hk : a.kind with
  | integer =>
    by_cases hi : a.iValue = 0
    · simp [hi]
    · simp [hi]
  | bool =>
    cases hb : a.bValue with
    | false => simp
    | true => simp
  | string => simp
  | symbol => simp
  | empty => simp
  | dynamic => simp
  | float => simp

theorem logical_iff (a b : Members F) : Logical a b ↔ a.ReadsTruth b ∧ b.ReadsTruth a := by
  rw [← and_or_eq_iff, ← and_or_eq_iff]
  constructor
  · intro h
    refine ⟨⟨h.and_eq, h.or_eq⟩, ?_, ?_⟩
    · rw [← h.and_comm, h.and_eq, Bool.and_comm]
    · rw [← h.or_comm, h.or_eq, Bool.or_comm]
  · rintro ⟨⟨hand, hor⟩, hand', hor'⟩
    refine ⟨hand, hor, ?_, ?_, ?_, ?_⟩
    · rw [hand, hand', Bool.and_comm]
    · rw [hor, hor', Bool.or_comm]
    · rw [hand, truth_eq_not, truth_eq_not, Bool.not_and, Bool.not_not, Bool.not_not]
      rfl
    · rw [hor, truth_eq_not, truth_eq_not, Bool.not_or, Bool.not_not, Bool.not_not]
      rfl

end Members

/-- A text is true, but the text or `FALSE` is not. -/
theorem not_logical_text : ¬Members.Logical
    (⟨.string, false, 0, 0, "on", 0⟩ : Members ℚ) ⟨.bool, false, 0, 0, "", 0⟩ := by
  intro h
  exact absurd h.or_eq (by decide)

inductive Source (F : Type) where
  | default
  | kind (k : MemberKind)
  | bool (b : Bool)
  | long (i : Int64)
  | double (f : F)
  | chars (s : String) (k : MemberKind)
  | string (s : String) (k : MemberKind)
  /-- `Value(DynamicValueBase *)`, which leaves the token unset as well -/
  | dynamic

def construct (t : Tokeniser) (junk : Members F) : Source F → Tokeniser × Members F
  | .default => (t, .blank junk .empty)
  | .kind k => (t, .blank junk k)
  | .bool b => (t, .ofBool junk b)
  | .long i => (t, .ofLong junk i)
  | .double f => (t, .ofDouble junk f)
  | .chars s k => Members.ofChars t junk s k
  | .string s k => Members.ofString t junk s k
  | .dynamic => (t, { junk with kind := .dynamic, sValue := "" })

/-- The variables of type `Value` that exist, and the tokeniser. -/
structure Memory (F X : Type) where
  tokeniser : Tokeniser
  value : X → Option (Members F)

/-- The operations on variables. The members that a constructor leaves unset, and the text of a
dynamic value, are given with the operation. -/
inductive Operation (F X : Type) where
  | construct (x : X) (source : Source F) (junk : Members F)
  | copy (x y : X)
  | assign (x y : X)
  | assignNew (x : X) (source : Source F) (junk : Members F)
  | addAssign (x y : X) (dynamicText : String)
  | toString (x : X)
  | toSymbol (x : X)

namespace Memory

variable [DecidableEq X]

def set (w : Memory F X) (t : Tokeniser) (x : X) (m : Members F) : Memory F X :=
  ⟨t, Function.update w.value x (some m)⟩

def next [Double F] (w : Memory F X) : Operation F X → Option (Memory F X)
  | .construct x source junk =>
    let v := ValueMembers.construct w.tokeniser junk source
    some (w.set v.1 x v.2)
  | .copy x y => (w.value y).map fun m => w.set w.tokeniser x m
  | .assign x y =>
    (w.value x).bind fun m => (w.value y).map fun n => w.set w.tokeniser x (m.assign n)
  | .assignNew x source junk =>
    let v := ValueMembers.construct w.tokeniser junk source
    (w.value x).map fun m => w.set v.1 x (m.assign v.2)
  | .addAssign x y text =>
    (w.value x).bind fun m => (w.value y).map fun n =>
      w.set (m.addAssign w.tokeniser text n).1 x (m.addAssign w.tokeniser text n).2
  | .toString x => (w.value x).map fun m => w.set w.tokeniser x m.toStringKind
  | .toSymbol x => (w.value x).map fun m => w.set w.tokeniser x m.toSymbolKind

end Memory

def Named (t : Tokeniser) (m : Members F) : Prop :=
  m.kind = .symbol → t.ids m.sValue = some m.tokenId

/-- The symbols have the tokens of their texts, and are equal for `operator==` if their texts
are. -/
structure Identified (w : Memory F X) : Prop where
  named : ∀ x m, w.value x = some m → Named w.tokeniser m
  equal : ∀ x m y n, w.value x = some m → w.value y = some n → m.kind = .symbol →
    n.kind = .symbol → (m.tokenId = n.tokenId ↔ m.sValue = n.sValue)

def Source.EmptySymbol : Source F → Prop
  | .kind k => k = .symbol
  | .chars s k => s = "" ∧ k = .symbol
  | .string s k => s = "" ∧ k = .symbol
  | _ => False

/-- No empty symbol is made, nothing is appended to a symbol but a text or a number that makes it
longer, and a text that becomes a symbol has its token already. -/
def Keeps [Double F] (w : Memory F X) : Operation F X → Prop
  | .construct _ source _ | .assignNew _ source _ => ¬source.EmptySymbol
  | .addAssign x y text => ∀ m n, w.value x = some m → w.value y = some n → m.kind = .symbol →
      n.kind ≠ .symbol ∧ m.sValue ++ n.asString text ≠ ""
  | .toSymbol x => ∀ m, w.value x = some m → m.kind = .string →
      w.tokeniser.ids m.sValue = some m.tokenId
  | _ => True

theorem identified_iff {w : Memory F X} :
    Identified w ↔ ∀ x m, w.value x = some m → Named w.tokeniser m := by
  refine ⟨fun h => h.named, fun h => ⟨h, fun x m y n hm hn hkm hkn => ?_⟩⟩
  exact Interner.Table.eq_iff_of_ids (h x m hm hkm) (h y n hn hkn)

section Results

variable {t : Tokeniser} {junk m n : Members F}

theorem named_of_kind_ne (h : m.kind ≠ .symbol) : Named t m := fun hk => absurd hk h

theorem not_named_of_tokenId_zero (hk : m.kind = .symbol) (h : m.tokenId = 0) : ¬Named t m := by
  intro hnam
  have hid := hnam hk
  rw [h] at hid
  exact t.ids_ne_zero m.sValue hid

variable {i : ℕ} {name : String} (s : String) (k : MemberKind)

open Members

theorem kind_ofText : (ofText junk s k).kind = .symbol ↔
      k = .symbol ∧ s ≠ "FALSE" ∧ s ≠ "TRUE" ∧ s ≠ "NULL" := by
  unfold ofText
  split_ifs with hfal htru hnul
  · simp [ofBool, blank, hfal.2]
  · simp [ofBool, blank, htru.2]
  · simp [blank, hnul.2]
  · simp only [blank]
    grind

theorem sValue_ofText {s : String} {k : MemberKind} (h : (ofText junk s k).kind = .symbol) :
    (ofText junk s k).sValue = s := by
  obtain ⟨-, hfal, htru, hnul⟩ := (kind_ofText s k).mp h
  simp [ofText, hfal, htru, hnul]

theorem tokenId_ofText : (ofText junk s k).tokenId = 0 := by
  unfold ofText
  split_ifs <;> rfl

theorem named_interned :
    Named (t.intern s).1 { ofText junk s k with tokenId := (t.intern s).2 } := by
  intro hk
  have htex : (ofText junk s k).sValue = s := sValue_ofText hk
  rw [htex]
  exact t.ids_intern_self s

theorem named_ite_iff {p : Prop} [Decidable p] (hp : p → s ≠ "")
    (hnot : ¬p → (ofText junk s k).kind = .symbol → s = "") :
    Named (if p then ((t.intern s).1, { ofText junk s k with tokenId := (t.intern s).2 })
        else (t, ofText junk s k)).1
      (if p then ((t.intern s).1, { ofText junk s k with tokenId := (t.intern s).2 })
        else (t, ofText junk s k)).2 ↔ ¬(s = "" ∧ k = .symbol) := by
  split_ifs with h
  · exact iff_of_true (named_interned s k) fun h' => hp h h'.1
  · by_cases hemp : s = "" ∧ k = .symbol
    · refine iff_of_false ?_ (not_not.mpr hemp)
      apply not_named_of_tokenId_zero
      · exact (kind_ofText s k).mpr ⟨hemp.2, by simp [hemp.1]⟩
      · exact tokenId_ofText s k
    · refine iff_of_true (named_of_kind_ne fun hk => hemp ⟨hnot h hk, ?_⟩) hemp
      exact ((kind_ofText s k).mp hk).1

theorem named_ofChars_iff : Named (ofChars t junk s k).1 (ofChars t junk s k).2 ↔
      ¬(s = "" ∧ k = .symbol) := by
  refine named_ite_iff s k (fun h => h.2.1) fun h hk => ?_
  obtain ⟨hsym, hnam⟩ := (kind_ofText s k).mp hk
  by_contra hs
  exact h ⟨hsym, hs, hnam⟩

theorem named_ofString_iff : Named (ofString t junk s k).1 (ofString t junk s k).2 ↔
      ¬(s = "" ∧ k = .symbol) := by
  refine named_ite_iff s k (fun h => h.2) fun h hk => ?_
  by_contra hs
  exact h ⟨((kind_ofText s k).mp hk).1, hs⟩

theorem ids_ofChars (h : t.ids name = some i) (s : String) (k : MemberKind) :
    (ofChars t junk s k).1.ids name = some i := by
  unfold ofChars
  split_ifs
  · exact Interner.Table.ids_intern_of_eq_some s h
  · exact h

theorem ids_ofString (h : t.ids name = some i) (s : String) (k : MemberKind) :
    (ofString t junk s k).1.ids name = some i := by
  unfold ofString
  split_ifs
  · exact Interner.Table.ids_intern_of_eq_some s h
  · exact h

theorem named_construct_iff (source : Source F) :
    Named (construct t junk source).1 (construct t junk source).2 ↔ ¬source.EmptySymbol := by
  cases source with
  | kind k =>
    by_cases hk : k = .symbol
    · exact iff_of_false (not_named_of_tokenId_zero hk rfl) (not_not.mpr hk)
    · exact iff_of_true (named_of_kind_ne hk) hk
  | chars s k => exact named_ofChars_iff s k
  | string s k => exact named_ofString_iff s k
  | _ => exact iff_of_true (named_of_kind_ne (by simp [construct, blank, ofBool,
      ofLong, ofDouble])) id

theorem ids_construct (h : t.ids name = some i) (source : Source F) :
    (construct t junk source).1.ids name = some i := by
  cases source with
  | chars s k => exact ids_ofChars h s k
  | string s k => exact ids_ofString h s k
  | _ => exact h

theorem named_assign_iff : Named t (m.assign n) ↔ Named t n := by
  unfold Named assign
  cases hk : n.kind <;> simp

variable [Double F] (text : String)

theorem kind_sumNumbers_ne (hk : m.kind ≠ .symbol) : (m.sumNumbers n).kind ≠ .symbol := by
  unfold sumNumbers
  split
  all_goals first | exact hk | simp [ofLong, ofDouble, blank]

theorem typeFixSum_symbol (hm : m.kind = .symbol) : typeFixSum t text m n =
    ofString t m (m.sValue ++ n.asString text) .symbol := by
  simp [typeFixSum, hm]

theorem typeFixSum_string (hm : m.kind = .string) : typeFixSum t text m n =
    ofString t m (m.sValue ++ n.asString text) .string := by
  simp [typeFixSum, hm]

theorem typeFixSum_other (hm : m.kind ≠ .symbol) (hm' : m.kind ≠ .string) :
    (typeFixSum t text m n).1 = t ∧ (typeFixSum t text m n).2.kind ≠ .symbol := by
  unfold typeFixSum
  split
  case h_1 | h_2 | h_3 | h_4 =>
    split_ifs
    exacts [⟨rfl, kind_sumNumbers_ne hm⟩, ⟨rfl, kind_sumNumbers_ne hm⟩, ⟨rfl, hm⟩]
  case h_5 | h_6 => contradiction
  case h_7 | h_8 => exact ⟨rfl, kind_sumNumbers_ne hm⟩
  case h_9 => exact ⟨rfl, hm⟩

theorem addAssign_of_kind_ne (h : m.kind ≠ n.kind) : m.addAssign t text n =
    ((typeFixSum t text m n).1, m.assign (typeFixSum t text m n).2) := if_pos h

theorem addAssign_of_kind_eq (h : m.kind = n.kind) : (m.addAssign t text n).1 = t ∧
    (m.addAssign t text n).2.kind = m.kind ∧
      (m.kind = .symbol → (m.addAssign t text n).2.tokenId = 0) := by
  unfold addAssign
  rw [if_neg (not_not.mpr h)]
  cases hm : m.kind <;> simp [hm]

theorem named_typeFixSum_iff : Named (typeFixSum t text m n).1
    (typeFixSum t text m n).2 ↔ (m.kind = .symbol → m.sValue ++ n.asString text ≠ "") := by
  by_cases hm : m.kind = .symbol
  · rw [typeFixSum_symbol text hm, named_ofString_iff, forall_prop_of_true hm]
    exact not_congr (and_iff_left rfl)
  · refine iff_of_true (named_of_kind_ne ?_) fun h => absurd h hm
    by_cases hm' : m.kind = .string
    · rw [typeFixSum_string text hm']
      exact fun h => absurd ((kind_ofText _ _).mp h).1 (by decide)
    · exact (typeFixSum_other text hm hm').2

theorem ids_typeFixSum {name : String} {i : ℕ} (h : t.ids name = some i) :
    (typeFixSum t text m n).1.ids name = some i := by
  by_cases hm : m.kind = .symbol
  · rw [typeFixSum_symbol text hm]
    exact ids_ofString h _ _
  · by_cases hm' : m.kind = .string
    · rw [typeFixSum_string text hm']
      exact ids_ofString h _ _
    · rw [(typeFixSum_other text hm hm').1]
      exact h

theorem named_addAssign_iff : Named (m.addAssign t text n).1 (m.addAssign t text n).2 ↔
    (m.kind = .symbol → n.kind ≠ .symbol ∧ m.sValue ++ n.asString text ≠ "") := by
  by_cases h : m.kind = n.kind
  · obtain ⟨htab, hkin, htok⟩ := addAssign_of_kind_eq (t := t) text h
    by_cases hm : m.kind = .symbol
    · refine iff_of_false (not_named_of_tokenId_zero (hkin.trans hm) (htok hm)) fun h' => ?_
      exact (h' hm).1 (h ▸ hm)
    · exact iff_of_true (named_of_kind_ne (hkin ▸ hm)) fun h' => absurd h' hm
  · rw [addAssign_of_kind_ne text h, named_assign_iff, named_typeFixSum_iff]
    refine forall_congr' fun hm => (and_iff_right ?_).symm
    exact fun hn => h (hm.trans hn.symm)

theorem ids_addAssign {name : String} {i : ℕ} (h : t.ids name = some i) :
    (m.addAssign t text n).1.ids name = some i := by
  by_cases hkin : m.kind = n.kind
  · rw [(addAssign_of_kind_eq text hkin).1]
    exact h
  · rw [addAssign_of_kind_ne text hkin]
    exact ids_typeFixSum text h

end Results

section Runs

variable [DecidableEq X] [Double F]

def Step (w : Memory F X) (o : Operation F X) (w' : Memory F X) : Prop := w.next o = some w'

omit [Double F] in
theorem identified_set_iff {w : Memory F X} (h : Identified w) {t : Tokeniser}
    (ht : ∀ name i, w.tokeniser.ids name = some i → t.ids name = some i) (x : X)
    (m : Members F) : Identified (w.set t x m) ↔ Named t m := by
  rw [identified_iff]
  constructor
  · intro h'
    exact h' x m (Function.update_self x _ _)
  · intro hm y n hn
    by_cases hy : y = x
    · subst hy
      obtain rfl : m = n := some.inj ((Function.update_self y _ _).symm.trans hn)
      exact hm
    · have hold : w.value y = some n := (Function.update_of_ne hy _ _).symm.trans hn
      exact fun hk => ht _ _ (h.named y n hold hk)

theorem identified_step_iff {w w' : Memory F X} {o : Operation F X} (h : Identified w)
    (hste : Step w o w') : Identified w' ↔ Keeps w o := by
  cases o with
  | construct x source junk =>
    cases hste
    rw [identified_set_iff h (fun name i hi => ids_construct hi source), named_construct_iff]
    exact Iff.rfl
  | copy x y =>
    obtain ⟨m, hm, rfl⟩ := map_eq_some_iff.mp hste
    rw [identified_set_iff h (fun _ _ hi => hi)]
    exact iff_of_true (h.named y m hm) trivial
  | assign x y =>
    obtain ⟨m, -, hste⟩ := bind_eq_some_iff.mp hste
    obtain ⟨n, hn, rfl⟩ := map_eq_some_iff.mp hste
    rw [identified_set_iff h (fun _ _ hi => hi), named_assign_iff]
    exact iff_of_true (h.named y n hn) trivial
  | assignNew x source junk =>
    obtain ⟨m, -, rfl⟩ := map_eq_some_iff.mp hste
    rw [identified_set_iff h (fun name i hi => ids_construct hi source), named_assign_iff,
      named_construct_iff]
    exact Iff.rfl
  | addAssign x y text =>
    obtain ⟨m, hm, hste⟩ := bind_eq_some_iff.mp hste
    obtain ⟨n, hn, rfl⟩ := map_eq_some_iff.mp hste
    rw [identified_set_iff h (fun name i hi => ids_addAssign text hi), named_addAssign_iff]
    simp [Keeps, hm, hn]
  | toString x =>
    obtain ⟨m, hm, rfl⟩ := map_eq_some_iff.mp hste
    rw [identified_set_iff h (fun _ _ hi => hi)]
    refine iff_of_true ?_ trivial
    unfold Members.toStringKind
    split_ifs with hk
    · exact named_of_kind_ne (by simp)
    · exact named_of_kind_ne hk
  | toSymbol x =>
    obtain ⟨m, hm, rfl⟩ := map_eq_some_iff.mp hste
    rw [identified_set_iff h (fun _ _ hi => hi)]
    unfold Members.toSymbolKind
    split_ifs with hk
    · simp [Keeps, hm, hk, Named]
    · refine iff_of_true (h.named x m hm) fun n hn hk' => ?_
      obtain rfl : m = n := some.inj (hm.symm.trans hn)
      exact absurd hk' hk

def start (t : Tokeniser) : Memory F X := ⟨t, fun _ => none⟩

omit [DecidableEq X] [Double F] in
theorem identified_start (t : Tokeniser) : Identified (start t : Memory F X) :=
  identified_iff.mpr fun _ _ h => absurd h (by simp [start])

/-- The symbols are identified by their tokens after every step of a run exactly if each of its
steps keeps them so. -/
theorem identified_run_iff (t : Tokeniser) (os : List (Operation F X)) (w : Memory F X) :
    Runs.Run (Runs.Guarded Step fun _ _ w' => Identified w') (start t) os w ↔
      Runs.Run (Runs.Guarded Step fun w o _ => Keeps w o) (start t) os w := by
  apply Runs.run_guarded_congr (I := Identified)
  · intro w o w' h hste
    exact identified_step_iff h hste
  · intro w o w' _ _ h
    exact h
  · exact identified_start t

end Runs

def twoNames : List (Operation ℚ Bool) :=
  let junk : Members ℚ := ⟨.empty, false, 0, 0, "", 0⟩
  [.construct true (.chars "on" .symbol) junk, .construct false (.chars "on" .string) junk,
    .toSymbol false]

/-- The text keeps the token 0, and the two symbols of one name are not equal. -/
theorem twoNames_not_identified : ∃ w, Runs.Run Step (start .empty) twoNames w ∧ ¬Identified w := by
  refine ⟨_, Runs.run_of_execute rfl, fun h => ?_⟩
  have hnam := h.named false ⟨.symbol, false, 0, 0, "on", 0⟩ rfl rfl
  exact Interner.Table.ids_ne_zero "on" hnam

end Clockwork.ValueMembers
