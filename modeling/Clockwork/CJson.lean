import Clockwork.Library.Binary64
import Clockwork.Value

namespace Clockwork.CJson

abbrev Text := List Char

mutual

/-- `cJSON`. The children of an item are a chain, with names in an object. -/
inductive Item (F : Type) where
  | null
  | bool (b : Bool)
  | int (valueint : Int64)
  | double (valuedouble : F)
  | string (valuestring : Text)
  | array (child : Chain F)
  | object (child : Chain F)

inductive Chain (F : Type) where
  | nil
  | cons (string : Option Text) (item : Item F) (next : Chain F)

end

/-- What `print_number` and `parse_number` do with `double`; it is not interpreted. -/
class NumberText (F : Type) extends Double F where
  /-- `snprintf` with `%lf` or `%1.20e` -/
  print : F → Text
  /-- `pow(10.0, e)` -/
  tenTo : ℤ → F

instance : NumberText ℚ where
  print x := (Double.format x).toList
  tenTo e := if 0 ≤ e then 10 ^ e.toNat else 1 / 10 ^ (-e).toNat

/-- One character of `print_string_ptr`. Control characters without an escape are left out. -/
def escape (c : Char) : Text :=
  if 31 < c.toNat ∧ c ≠ '"' ∧ c ≠ '\\' then [c]
  else if c = '\\' then ['\\', '\\']
  else if c = '"' then ['\\', '"']
  else if c = '\x08' then ['\\', 'b']
  else if c = '\x0c' then ['\\', 'f']
  else if c = '\n' then ['\\', 'n']
  else if c = '\r' then ['\\', 'r']
  else if c = '\t' then ['\\', 't']
  else []

def printString (s : Text) : Text := '"' :: (s.flatMap escape ++ ['"'])

def printName : Option Text → Text
  | none => []
  | some s => printString s

def printLong (i : Int64) : Text := (toString i.toInt).toList

def Chain.comma {F : Type} : Chain F → Text
  | .nil => []
  | .cons _ _ _ => [',']

section Print

variable {F : Type} [NumberText F]

mutual

def Item.print : Item F → Text
  | .null => "null".toList
  | .bool true => "true".toList
  | .bool false => "false".toList
  | .int i => printLong i
  | .double x => NumberText.print x
  | .string s => printString s
  | .array c => '[' :: (c.printArray ++ [']'])
  | .object c => '{' :: (c.printObject ++ ['}'])

def Chain.printArray : Chain F → Text
  | .nil => []
  | .cons _ item next => item.print ++ next.comma ++ next.printArray

def Chain.printObject : Chain F → Text
  | .nil => []
  | .cons name item next =>
    printName name ++ ':' :: (item.print ++ next.comma ++ next.printObject)

end

end Print

/-- Why the parser returns no item. Only for malformed text it returns 0. -/
inductive Fault where
  | malformed
  | overrun
  | overflow
  | unset
  | assertion
  | nullPointer
  | depth
deriving DecidableEq, Repr

/-- `skip`: the NUL at the end of the text counts as blank. -/
def skip : Text → Except Fault Text
  | [] => .error .overrun
  | c :: cs => if c.toNat ≤ 32 then skip cs else .ok (c :: cs)

def isHexDigit (c : Char) : Bool :=
  c.isDigit || ('a' ≤ c && c ≤ 'f') || ('A' ≤ c && c ≤ 'F')

def hexDigit (c : Char) : ℕ :=
  if c.isDigit then c.toNat - 48 else if c ≤ 'F' then c.toNat - 55 else c.toNat - 87

/-- `sscanf` with `%4x`: blanks do not count for the width, a sign and `0x` do. -/
def scanHex (s : Text) : Option ℕ :=
  let field := (s.dropWhile isSpace).take 4
  let negative := field.head? = some '-'
  let body := if negative ∨ field.head? = some '+' then field.tail else field
  let digits :=
    match body with
    | '0' :: x :: rest => if x = 'x' ∨ x = 'X' then rest else body
    | _ => body
  let ds := digits.takeWhile isHexDigit
  if ds = [] then none
  else
    let n := ds.foldl (fun n c => 16 * n + hexDigit c) 0
    some (if negative then 2 ^ 32 - n else n)

def utf8 (uc : ℕ) : Text :=
  let byte (n : ℕ) : Char := Char.ofNat (n % 256)
  let tail (n : ℕ) : Char := byte ((n ||| 0x80) &&& 0xBF)
  if uc < 0x80 then [byte uc]
  else if uc < 0x800 then [byte ((uc >>> 6) ||| 0xC0), tail uc]
  else [byte ((uc >>> 12) ||| 0xE0), tail (uc >>> 6), tail uc]

/-- The first loop of `parse_string`: the room for the string. The character after a backslash
is passed over. -/
def stringRoom : Bool → Text → Except Fault ℕ
  | true, [] => .error .overrun
  | true, _ :: cs => stringRoom false cs
  | false, [] => .ok 0
  | false, c :: cs =>
    if c = '"' ∨ c.toNat ≤ 31 then .ok 0 else (stringRoom (c == '\\') cs).map (· + 1)

/-- The second loop, after `n` characters that are passed over. It ends at a quote, a control
character or the end of the text, and passes the quote. -/
def stringChars : ℕ → Text → Except Fault (Text × Text)
  | 0, [] => .ok ([], [])
  | _ + 1, [] => .error .overrun
  | n + 1, _ :: cs => stringChars n cs
  | 0, c :: cs =>
    if c = '"' then .ok ([], cs)
    else if c.toNat ≤ 31 then .ok ([], c :: cs)
    else if c ≠ '\\' then (stringChars 0 cs).map fun r => (c :: r.1, r.2)
    else
      match cs with
      | [] => .error .overrun
      | 'b' :: _ => (stringChars 1 cs).map fun r => ('\x08' :: r.1, r.2)
      | 'f' :: _ => (stringChars 1 cs).map fun r => ('\x0c' :: r.1, r.2)
      | 'n' :: _ => (stringChars 1 cs).map fun r => ('\n' :: r.1, r.2)
      | 'r' :: _ => (stringChars 1 cs).map fun r => ('\r' :: r.1, r.2)
      | 't' :: _ => (stringChars 1 cs).map fun r => ('\t' :: r.1, r.2)
      | 'u' :: ds =>
        match scanHex ds with
        | some uc => (stringChars 5 cs).map fun r => (utf8 uc ++ r.1, r.2)
        | none => .error .unset
      | d :: _ => (stringChars 1 cs).map fun r => (d :: r.1, r.2)

/-- `parse_string`: the value is read up to a NUL. -/
def parseString : Text → Except Fault (Text × Text)
  | '"' :: cs => do
    let room ← stringRoom false cs
    let (s, rest) ← stringChars 0 cs
    if s.length ≤ room then .ok (s.takeWhile (· ≠ '\x00'), rest) else .error .overrun
  | _ => .error .malformed

section Number

variable {F : Type} [NumberText F]

/-- A `char` is signed. -/
def charValue (c : Char) : ℤ := if c.toNat < 128 then c.toNat else c.toNat - 256

/-- The digits after the point; the first character is taken for one whatever it is. -/
def fraction : F → ℤ → Text → Except Fault (F × ℤ × Text)
  | _, _, [] => .error .overrun
  | x, scale, c :: cs =>
    let y : F := Double.add (Double.mul x (Double.ofLong 10))
      (Double.ofLong (Int64.ofInt (charValue c - 48)))
    match cs with
    | d :: _ => if d.isDigit then fraction y (scale - 1) cs else .ok (y, scale - 1, cs)
    | [] => .ok (y, scale - 1, [])

def exponent (s : Text) : Except Fault (ℤ × Text) :=
  let negative := s.head? = some '-'
  let s := if negative ∨ s.head? = some '+' then s.tail else s
  let n := digitsValue (s.takeWhile Char.isDigit)
  if n < 2 ^ 31 then .ok (if negative then -(n : ℤ) else n, s.dropWhile Char.isDigit)
  else .error .overflow

/-- `sign * n` is computed as a `double` and made a `long` again. -/
def signedLong (negative : Bool) (n : ℕ) : Except Fault Int64 :=
  let r := Binary64.round n
  if negative then .ok (Int64.ofInt (-r))
  else if r < 2 ^ 63 then .ok (Int64.ofNat r)
  else .error .overflow

def scaled (negative : Bool) (x : F) (scale : ℤ) (rest : Text) : Item F × Text :=
  let sign : F := Double.ofLong (if negative then -1 else 1)
  (.double (Double.mul (Double.mul sign x) (NumberText.tenTo scale)), rest)

def withExponent (negative : Bool) (x : F) (scale : ℤ) (s : Text) : Except Fault (Item F × Text) :=
  match s with
  | 'e' :: s | 'E' :: s => (exponent s).map fun r => scaled negative x (scale + r.1) r.2
  | _ => .ok (scaled negative x scale s)

/-- The digits of the integral part: a zero ends it unless another digit follows. -/
def integralDigits (s : Text) : Text :=
  match s with
  | c :: _ => if '1' ≤ c ∧ c ≤ '9' then s.takeWhile Char.isDigit else []
  | [] => []

def parseNumber (s : Text) : Except Fault (Item F × Text) :=
  let negative := decide (s.head? = some '-')
  let s := if negative then s.tail else s
  let s := if s.head? = some '0' then s.tail else s
  let ds := integralDigits s
  let n := digitsValue ds
  let s := s.drop ds.length
  if 2 ^ 63 ≤ n then .error .overflow
  else
    let x : F := Double.ofLong (Int64.ofNat n)
    match s with
    | '.' :: s => do
      let (x, scale, s) ← fraction x 0 s
      withExponent negative x scale s
    | 'e' :: _ | 'E' :: _ => withExponent negative x 0 s
    | _ => (signedLong negative n).map fun i => (.int i, s)

mutual

/-- `parse_value`, with the beginning and the end of `parse_array` and `parse_object`. -/
def parseValue : ℕ → Text → Except Fault (Item F × Text)
  | 0, _ => .error .depth
  | n + 1, s =>
    if "null".toList.isPrefixOf s then .ok (.null, s.drop 4)
    else if "false".toList.isPrefixOf s then .ok (.bool false, s.drop 5)
    else if "true".toList.isPrefixOf s then .ok (.bool true, s.drop 4)
    else
      match s with
      | '"' :: _ => (parseString s).map fun r => (.string r.1, r.2)
      | '[' :: s => do
        let s ← skip s
        match s with
        | ']' :: rest => .ok (.array .nil, rest)
        | s =>
          let (c, s) ← parseItems n s
          match s with
          | ']' :: rest => .ok (.array c, rest)
          | _ => .error .malformed
      | '{' :: s => do
        let s ← skip s
        match s with
        | '}' :: rest => .ok (.object .nil, rest)
        | s =>
          let (c, s) ← parseMembers n s
          match s with
          | '}' :: rest => .ok (.object c, rest)
          | _ => .error .malformed
      | c :: _ => if c = '-' ∨ c.isDigit then parseNumber s else .error .malformed
      | [] => .error .malformed

def parseItems : ℕ → Text → Except Fault (Chain F × Text)
  | 0, _ => .error .depth
  | n + 1, s => do
    let s ← skip s
    let (item, s) ← parseValue n s
    let s ← skip s
    match s with
    | ',' :: s => (parseItems n s).map fun r => (.cons none item r.1, r.2)
    | s => .ok (.cons none item .nil, s)

def parseMembers : ℕ → Text → Except Fault (Chain F × Text)
  | 0, _ => .error .depth
  | n + 1, s => do
    let s ← skip s
    let (name, s) ← parseString s
    let s ← skip s
    match s with
    | ':' :: s => do
      let s ← skip s
      let (item, s) ← parseValue n s
      let s ← skip s
      match s with
      | ',' :: s => (parseMembers n s).map fun r => (.cons (some name) item r.1, r.2)
      | s => .ok (.cons (some name) item .nil, s)
    | _ => .error .malformed

end

/-- `cJSON_Parse`. What follows the value is not looked at. A level of nesting takes two calls and
a character of the text, as does every further child. -/
def parse (s : Text) : Except Fault (Item F) := do
  let s ← skip s
  let (item, _) ← parseValue (2 * s.length + 1) s
  .ok item

end Number

variable {F : Type}

def Item.child : Item F → Chain F
  | .array c => c
  | .object c => c
  | _ => .nil

def Chain.toList : Chain F → List (Item F)
  | .nil => []
  | .cons _ item next => item :: next.toList

def sameName (s t : Text) : Bool := s.map Char.toLower == t.map Char.toLower

def Chain.find (name : Text) : Chain F → Option (Item F)
  | .nil => none
  | .cons (some s) item next => if sameName s name then some item else next.find name
  | .cons none _ next => next.find name

def Item.getObjectItem (item : Item F) (name : String) : Option (Item F) :=
  item.child.find name.toList

end Clockwork.CJson
