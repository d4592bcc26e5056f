import Mathlib.Algebra.Order.Ring.Rat

namespace Clockwork

def isSpace (c : Char) : Bool := c == ' ' || ('\t' ≤ c && c ≤ '\r')

/-- The characters of a `std::string` that a `const char *` reader sees. -/
def cStr (s : String) : List Char := s.toList.takeWhile (· ≠ '\x00')

def digitsValue (ds : List Char) : ℕ :=
  ds.foldl (fun n c => 10 * n + (c.toNat - '0'.toNat)) 0

/-- `strtol` saturates instead of wrapping. -/
def clampLong (n : ℤ) : Int64 :=
  if n > Int64.maxValue.toInt then Int64.maxValue
  else if n < Int64.minValue.toInt then Int64.minValue
  else Int64.ofInt n

/-- `x = strtol(s, &end, 10)`, paired with the test `*end == 0`. Without a digit
the end pointer stays at the start of the string. -/
def strtol (s : String) : Int64 × Bool :=
  let body := (cStr s).dropWhile isSpace
  let neg := body.head? = some '-'
  let unsigned := if neg ∨ body.head? = some '+' then body.tail else body
  let ds := unsigned.takeWhile Char.isDigit
  if ds.isEmpty then (0, (cStr s).isEmpty)
  else (clampLong (if neg then -(digitsValue ds : ℤ) else digitsValue ds),
    (unsigned.dropWhile Char.isDigit).isEmpty)

/-- The operations on `double` that values use; none of them is interpreted. -/
class Double (F : Type) where
  add : F → F → F
  sub : F → F → F
  mul : F → F → F
  div : F → F → F
  neg : F → F
  ge : F → F → Bool
  le : F → F → Bool
  lt : F → F → Bool
  eq : F → F → Bool
  ne : F → F → Bool
  /-- `fabs(x - y) <= ZERO_DISTANCE` -/
  near : F → F → Bool
  /-- `fabs(x - y) > ZERO_DISTANCE`, not the negation of `near` on NaN -/
  apart : F → F → Bool
  ofLong : Int64 → F
  toLong : F → Int64
  strtod : String → F × Bool
  format : F → String

namespace Double

variable {F : Type} [Double F]

def zero : F := ofLong 0

def isZero (x : F) : Bool := eq x zero

end Double

/-- Rationals stand in for `double` where a closed example needs an arithmetic:
no rounding, and only integral literals are read or printed. -/
instance : Double ℚ where
  add := (· + ·)
  sub := (· - ·)
  mul := (· * ·)
  div := (· / ·)
  neg := (- ·)
  ge x y := decide (y ≤ x)
  le x y := decide (x ≤ y)
  lt x y := decide (x < y)
  eq x y := decide (x = y)
  ne x y := decide (x ≠ y)
  near x y := decide (x - y ≤ 1 / 10 ^ 8 ∧ y - x ≤ 1 / 10 ^ 8)
  apart x y := decide (x - y > 1 / 10 ^ 8 ∨ y - x > 1 / 10 ^ 8)
  ofLong i := (i.toInt : ℚ)
  toLong x := Int64.ofInt (x.num.tdiv x.den)
  strtod s := (((strtol s).1.toInt : ℚ), (strtol s).2)
  format x := toString (x.num.tdiv x.den) ++ ".000000"

/-- A token id. The tokeniser issues one id a name and ids are only compared for
equality, so the id issued for a name is the name; `none` is the id 0. -/
abbrev TokenId := Option String

inductive Kind where
  | empty | integer | string | bool | symbol | float
deriving DecidableEq, Repr

/-- `Value`, with the member its kind selects. The other members of a value are
not initialised by the source, so they are not part of it. -/
inductive Value (F : Type) where
  | empty
  | integer (iValue : Int64)
  | string (sValue : String)
  | bool (bValue : Bool)
  | symbol (sValue : String) (tokenId : TokenId)
  | float (fValue : F)
deriving DecidableEq, Repr

namespace Value

variable {F : Type}

def kind : Value F → Kind
  | .empty => .empty
  | .integer _ => .integer
  | .string _ => .string
  | .bool _ => .bool
  | .symbol _ _ => .symbol
  | .float _ => .float

def ofString (s : String) : Value F :=
  if s = "" then .symbol "" none
  else if s = "FALSE" then .bool false
  else if s = "TRUE" then .bool true
  else if s = "NULL" then .empty
  else .symbol s (some s)

def toStringKind : Value F → Value F
  | .symbol s _ => .string s
  | v => v

def iValue? : Value F → Option Int64
  | .integer i => some i
  | _ => none

def bValue? : Value F → Option Bool
  | .bool b => some b
  | _ => none

def isNull : Value F → Bool
  | .empty => true
  | _ => false

/-- `numeric_types` of the two kinds, with symbols already read as strings. -/
def numericTypes (a b : Kind) : Bool :=
  (a == .integer || a == .float) && (b == .integer || b == .float)

def comparedAs (k : Kind) : Kind := if k = .symbol then .string else k

def mixedTypes (a b : Kind) : Bool :=
  numericTypes a b || (a != b && (a == .string || b == .string))

section Conversions

variable [Double F]

def asString : Value F → String
  | .bool b => if b then "true" else "false"
  | .integer i => toString i.toInt
  | .float f => Double.format f
  | .empty => "null"
  | .symbol s _ => s
  | .string s => s

/-- `asInteger(x)`: the boolean it returns and the value it leaves in `x`. A text
that is not a number still overwrites `x`. -/
def asIntegerInto (v : Value F) (x : Int64) : Bool × Int64 :=
  match v with
  | .integer i => (true, i)
  | .float f => (true, Double.toLong f)
  | .string s => ((strtol s).2, (strtol s).1)
  | .symbol s _ => ((strtol s).2, (strtol s).1)
  | .bool b => (true, if b then 1 else 0)
  | .empty => (false, x)

def asInteger (v : Value F) : Option Int64 :=
  if (v.asIntegerInto 0).1 then some (v.asIntegerInto 0).2 else none

def asFloat : Value F → Option F
  | .float f => some f
  | .integer i => some (Double.ofLong i)
  | .string s => if (Double.strtod (F := F) s).2 then some (Double.strtod s).1 else none
  | .symbol s _ => if (Double.strtod (F := F) s).2 then some (Double.strtod s).1 else none
  | .bool b => some (Double.ofLong (if b then 1 else 0))
  | .empty => none

def toFloat : Value F → F
  | .integer i => Double.ofLong i
  | .float f => f
  | .string s => if (Double.strtod (F := F) s).2 then (Double.strtod s).1 else Double.zero
  | _ => Double.zero

end Conversions

section Comparisons

variable [Double F]

/-- `operator>=` and `operator<=`: the same tests around two comparisons. -/
def compareWith (onFloat : F → F → Bool) (onInt : Int64 → Int64 → Bool)
    (onString : String → String → Bool) (a b : Value F) : Bool :=
  let ka := comparedAs a.kind
  let kb := comparedAs b.kind
  if mixedTypes ka kb && (ka == .float || kb == .float) then
    match a.asFloat, b.asFloat with
    | some x, some y => onFloat x y
    | _, _ => false
  else if mixedTypes ka kb && (ka == .integer || kb == .integer) then
    match a.asInteger, b.asInteger with
    | some x, some y => onInt x y
    | _, _ => false
  else if ka != kb then false
  else match a with
    | .symbol s _ => onString s b.asString
    | .string s => onString s b.asString
    | _ => false

variable (a b : Value F)

def ge : Bool :=
  compareWith Double.ge (fun x y => decide (y ≤ x)) (fun s t => decide (t ≤ s)) a b

def le : Bool :=
  compareWith Double.le (fun x y => decide (x ≤ y)) (fun s t => decide (s ≤ t)) a b

def lt : Bool := !a.ge b

def gt : Bool := !a.le b

/-- `operator==`. Two symbols are compared by their token ids. -/
def eq : Bool :=
  let ka := comparedAs a.kind
  let kb := comparedAs b.kind
  match a, b with
  | .symbol _ s, .symbol _ t => decide (s = t)
  | _, _ =>
    if mixedTypes ka kb && (ka == .float || kb == .float) then
      match a.asFloat, b.asFloat with
      | some x, some y => Double.eq x y || Double.near x y
      | _, _ => false
    else if mixedTypes ka kb && (ka == .integer || kb == .integer) then
      match a.asInteger, b.asInteger with
      | some x, some y => decide (x = y)
      | _, _ => false
    else if ka != kb then false
    else match a, b with
      | .empty, _ => true
      | .bool x, .bool y => x == y
      | _, _ => a.asString == b.asString

/-- `operator!=`, which is not the negation of `operator==` on NaN. -/
def ne : Bool :=
  let ka := comparedAs a.kind
  let kb := comparedAs b.kind
  match a, b with
  | .symbol _ s, .symbol _ t => decide (s ≠ t)
  | _, _ =>
    if mixedTypes ka kb && (ka == .float || kb == .float) then
      match a.asFloat, b.asFloat with
      | some x, some y => Double.ne x y && Double.apart x y
      | _, _ => true
    else if mixedTypes ka kb && (ka == .integer || kb == .integer) then
      match a.asInteger, b.asInteger with
      | some x, some y => decide (x ≠ y)
      | _, _ => true
    else if ka != kb then true
    else match a, b with
      | .empty, _ => false
      | .bool x, .bool y => x != y
      | _, _ => a.asString != b.asString

end Comparisons

-- Reading a member that the kind does not set has no defined result: the operators return `none`
-- there. `&&` and `||` on the members are the built-in ones and do not read the right member
-- when the left one decides.

def and : Value F → Value F → Option Bool
  | .integer i, b => if i = 0 then some false else b.iValue?.map (· ≠ 0)
  | .bool x, b => if x = false then some false else b.bValue?
  | _, _ => some false

def or : Value F → Value F → Option Bool
  | .integer i, b => if i ≠ 0 then some true else b.iValue?.map (· ≠ 0)
  | .bool x, b => if x = true then some true else b.bValue?
  | _, _ => some false

def not : Value F → Bool
  | .empty => true
  | .integer i => i = 0
  | .bool b => !b
  | .symbol _ _ => false
  | .string _ => false
  | .float _ => true

/-- `int` constants of `limits.h`, returned for a division by zero. -/
def intMin : Int64 := -2147483648

def intMax : Int64 := 2147483647

/-- `a / b` on `long`; the quotient of the least value by -1 does not exist. -/
def divLong (a b : Int64) : Option Int64 :=
  if a = Int64.minValue ∧ b = -1 then none else some (a / b)

def modLong (a b : Int64) : Option Int64 :=
  if a = Int64.minValue ∧ b = -1 then none else some (a % b)

section Arithmetic

variable [Double F]

/-- The bit operations read `iValue` of both operands, whatever their kinds. -/
def bitOp (f : Int64 → Int64 → Int64) (a b : Value F) : Option (Value F) := do
  let x ← a.iValue?
  let y ← b.iValue?
  return .integer (f x y)

variable (a b : Value F)

def sum : Option (Value F) :=
  match a, b with
  | .integer x, .integer y => some (.integer (x + y))
  | .integer x, .float y => some (.float (Double.add y (Double.ofLong x)))
  | .integer x, _ => some (.integer x)
  | .float x, .float y => some (.float (Double.add x y))
  | .float x, .integer y => some (.float (Double.add x (Double.ofLong y)))
  | .float x, _ => some (.float x)
  | _, .integer y => some (.integer y)
  | _, .float y => some (.float y)
  | .string s, b => some (.string (s ++ b.asString))
  | .symbol s _, b => some (ofString (s ++ b.asString))
  | _, _ => some (.integer 0)

def minus : Option (Value F) :=
  match a, b with
  | .integer x, .integer y => some (.integer (x - y))
  | .integer x, .float y => some (.float (Double.sub (Double.ofLong x) y))
  | .integer x, _ => some (.integer x)
  | .float x, .float y => some (.float (Double.sub x y))
  | .float x, .integer y => some (.float (Double.sub x (Double.ofLong y)))
  | .float x, _ => some (.float x)
  | _, .integer y => some (.integer (-y))
  | _, .float y => some (.float (Double.neg y))
  | .string s, _ => some (.string s)
  | .symbol s t, _ => some (.symbol s t)
  | _, _ => some (.integer 0)

def multiply : Option (Value F) :=
  match a, b with
  | .integer x, .integer y => some (.integer (x * y))
  | .integer x, .float y => some (.float (Double.mul y (Double.ofLong x)))
  | .float x, .float y => some (.float (Double.mul x y))
  | .float x, .integer y => some (.float (Double.mul x (Double.ofLong y)))
  | _, _ => some (.integer 0)

def byZero (negative : Bool) : Int64 := if negative then intMin else intMax

def divide : Option (Value F) :=
  match a with
  | .integer x =>
    if x = 0 then some a
    else match b with
      | .integer y => if y = 0 then some (.integer (byZero (x < 0))) else (divLong x y).map .integer
      | .float y =>
        if Double.isZero y then some (.integer (byZero (x < 0)))
        else some (.float (Double.div (Double.ofLong x) y))
      | _ => some a
  | .float x =>
    if Double.isZero x then some (.float Double.zero)
    else match b with
      | .float y =>
        if Double.isZero y then some (.integer (byZero (Double.lt x Double.zero)))
        else some (.float (Double.div x y))
      | .integer y =>
        if y = 0 then some (.integer (byZero (Double.lt x Double.zero)))
        else some (.float (Double.div x (Double.ofLong y)))
      | _ => some (.integer 0)
  | _ => some a

def modulus : Option (Value F) :=
  match b with
  | .integer y =>
    if y = 0 then some (.integer 0)
    else match a with
      | .integer x => (modLong x y).map .integer
      | .float x => (modLong (Double.toLong x) y).map .integer
      | _ => some (.integer 0)
  | _ => some a

/-- `TypeFix::operator()`, called with operands of different kinds. -/
def typeFix (op : Value F → Value F → Option (Value F)) (a b : Value F) : Option (Value F) :=
  let text (s : String) : Option (Value F) :=
    if (strtol s).2 then op a (.integer (strtol s).1)
    else if (Double.strtod (F := F) s).2 then op a (.float (Double.strtod s).1)
    else some a
  match a, b with
  | .integer _, .string s => text s
  | .integer _, .symbol s _ => text s
  | .float _, .string s => text s
  | .float _, .symbol s _ => text s
  | .string _, b => op a (.string b.asString)
  | .symbol _ _, b => op a (.string b.asString)
  | .integer _, .float _ => op a b
  | .float _, .integer _ => op a b
  | _, _ => some a

def add : Option (Value F) :=
  match a, b with
  | .integer x, .integer y => some (.integer (x + y))
  | .float x, .float y => some (.float (Double.add x y))
  | .bool x, .bool y => some (.bool (x || y))
  | .symbol s _, .symbol t _ => some (.symbol (s ++ t) none)
  | .string s, .string t => some (.string (s ++ t))
  | .empty, .empty => some .empty
  | a, b => typeFix sum a b

def sub : Option (Value F) :=
  match a, b with
  | .integer x, .integer y => some (.integer (x - y))
  | .float x, .float y => some (.float (Double.sub x y))
  | .bool x, .bool y => some (.bool (x || y))
  | .symbol _ _, .symbol _ _ => some a
  | .string _, .string _ => some a
  | .empty, .empty => some .empty
  | a, b => typeFix minus a b

def mul : Option (Value F) :=
  match a, b with
  | .integer x, .integer y => some (.integer (x * y))
  | .float x, .float y => some (.float (Double.mul x y))
  | .bool x, .bool y => some (.bool (x && y))
  | .symbol _ _, _ => some a
  | .string _, _ => some a
  | .empty, .empty => some .empty
  | a, b => typeFix multiply a b

def div : Option (Value F) :=
  match a, b with
  | .integer x, .integer y =>
    if x = 0 then some (.integer x)
    else if y = 0 then some (.integer (byZero (x < 0)))
    else (divLong x y).map .integer
  | .float x, .float y =>
    if Double.isZero x then some (.float x)
    else if Double.isZero y then
      some (.float (Double.ofLong (byZero (Double.lt x Double.zero))))
    else some (.float (Double.div x y))
  | .bool x, .bool y => some (.bool (x && y))
  | .symbol _ _, .symbol _ _ => some a
  | .string _, .string _ => some a
  | .empty, .empty => some .empty
  | a, b => typeFix divide a b

/-- `operator%`. Between two floats the divisor is the unset `iValue` of the
right one, unless its `fValue` is zero. -/
def mod : Option (Value F) :=
  match a, b with
  | .integer x, .integer y =>
    if y = 0 then some (.integer 0) else (modLong x y).map .integer
  | .float _, .float y => if Double.isZero y then some (.integer 0) else none
  | .bool x, .bool y => some (.bool (xor x y))
  | .symbol _ _, .symbol _ _ => some a
  | .string _, .string _ => some a
  | .empty, .empty => some .empty
  | a, b => typeFix modulus a b

/-- `operator&`, `operator|` and `operator^`: one operation on integers and one on
booleans, other equal kinds keep the left operand. -/
def bitwise (onInt : Int64 → Int64 → Int64) (onBool : Bool → Bool → Bool) (a b : Value F) :
    Option (Value F) :=
  match a, b with
  | .integer x, .integer y => some (.integer (onInt x y))
  | .bool x, .bool y => some (.bool (onBool x y))
  | .float _, .float _ => some a
  | .symbol _ _, .symbol _ _ => some a
  | .string _, .string _ => some a
  | .empty, .empty => some .empty
  | a, b => typeFix (bitOp onInt) a b

def bitAnd : Option (Value F) := bitwise (· &&& ·) (· && ·) a b

def bitOr : Option (Value F) := bitwise (· ||| ·) (· || ·) a b

def bitXor : Option (Value F) := bitwise (· ^^^ ·) xor a b

def neg : Value F → Value F
  | .integer i => .integer (-i)
  | .float f => .float (Double.neg f)
  | .symbol s t => if (strtol s).2 then .integer (-(strtol s).1) else .symbol s t
  | .string s => if (strtol s).2 then .integer (-(strtol s).1) else .string s
  | v => v

end Arithmetic

def compl : Value F → Value F
  | .integer i => .integer (~~~i)
  | .bool b => .bool (!b)
  | v => v

/-- The same kind with the same payload. The token of a symbol is not counted: it is looked up
from the name. -/
inductive Same : Value F → Value F → Prop
  | refl (v : Value F) : Same v v
  | symbol (s : String) (t u : TokenId) : Same (.symbol s t) (.symbol s u)

variable {v w : Value F} (s : String)

theorem Same.kind_eq (h : Same v w) : v.kind = w.kind := by
  cases h <;> rfl

theorem Same.symm (h : Same v w) : Same w v := by
  cases h with
  | refl => exact .refl _
  | symbol s t u => exact .symbol s u t

theorem Same.trans {u v w : Value F} (h : Same u v) (h' : Same v w) : Same u w := by
  cases h with
  | refl => exact h'
  | symbol s t t' =>
    cases h' with
    | refl => exact .symbol s t t'
    | symbol s t' u => exact .symbol s t u

theorem same_symbol_iff {s : String} {t : TokenId} {w : Value F} :
    Same (.symbol s t) w ↔ ∃ u, w = .symbol s u := by
  constructor
  · rintro (_ | ⟨_, _, u⟩)
    exacts [⟨t, rfl⟩, ⟨u, rfl⟩]
  · rintro ⟨u, rfl⟩
    exact .symbol s t u

theorem same_iff_eq (hv : v.kind ≠ .symbol) : Same v w ↔ v = w := by
  constructor
  · rintro (_ | _)
    · rfl
    · exact absurd rfl hv
  · rintro rfl
    exact .refl v

theorem same_ofString_iff (t : TokenId) (r : String) :
    Same (.symbol s t) (ofString r : Value F) ↔ r = s ∧ s ≠ "TRUE" ∧ s ≠ "FALSE" ∧ s ≠ "NULL" := by
  rw [same_symbol_iff, ofString]
  constructor
  · rintro ⟨u, hu⟩
    split_ifs at hu with hemp hfal htru hnul
    all_goals cases hu
    · rw [hemp]
      decide
    · exact ⟨rfl, htru, hfal, hnul⟩
  · rintro ⟨rfl, htru, hfal, hnul⟩
    split_ifs with hemp
    · exact ⟨none, by rw [hemp]⟩
    · exact ⟨some r, rfl⟩

theorem ofString_cases : (ofString s : Value F) = .empty ∨ (∃ b, (ofString s : Value F) = .bool b) ∨
      s = "" ∧ (ofString s : Value F) = .symbol s none ∨
      (ofString s : Value F) = .symbol s (some s) := by
  unfold ofString
  split_ifs with hemp
  · exact .inr (.inr (.inl ⟨hemp, by rw [hemp]⟩))
  · exact .inr (.inl ⟨false, rfl⟩)
  · exact .inr (.inl ⟨true, rfl⟩)
  · exact .inl rfl
  · exact .inr (.inr (.inr rfl))

theorem kind_ofString_ne {k : Kind} (h : k ≠ .empty ∧ k ≠ .bool ∧ k ≠ .symbol) :
    (ofString s : Value F).kind ≠ k := by
  obtain ⟨hemp, hboo, hsym⟩ := h
  rcases ofString_cases (F := F) s with hs | ⟨b, hs⟩ | ⟨-, hs⟩ | hs
  · rw [hs]
    exact hemp.symm
  · rw [hs]
    exact hboo.symm
  · rw [hs]
    exact hsym.symm
  · rw [hs]
    exact hsym.symm

theorem eq_empty_iff [Double F] (v : Value F) : v.eq .empty ↔ v = .empty := by
  cases v <;> simp [eq, kind, comparedAs, mixedTypes, asFloat, asInteger, asIntegerInto]

theorem eq_string_integer [Double F] {s : String} {j : Int64}
    (h : (Value.string s : Value F).asInteger = some j) (i : Int64) :
    (Value.string s : Value F).eq (.integer i) = decide (j = i) := by
  have hi : (Value.integer i : Value F).asInteger = some i := rfl
  simp [Value.eq, kind, comparedAs, mixedTypes, numericTypes, h, hi]

end Value
end Clockwork
