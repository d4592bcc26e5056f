import Clockwork.Library.Lines
import Clockwork.Library.NestedMap
import Clockwork.Value

-- The characters of a text stand for bytes: their number counts for the size of a line.

namespace Clockwork.PersistentStore

abbrev Text := List Char

abbrev Store (F : Type) := NestedMap String String (Value F)

variable {F : Type}

def Quoted (s : Text) : Prop := s.head? = some '"' ∧ s.getLast? = some '"'

instance : DecidablePred Quoted := fun s =>
  inferInstanceAs (Decidable (s.head? = some '"' ∧ s.getLast? = some '"'))

def quoted (s : Text) : Text := if Quoted s then s else '"' :: (s ++ ['"'])

def isWordChar (c : Char) : Bool := c.isAlphanum || c == '_' || c == '.'

/-- `^["]{0,1}[A-Za-z][A-Za-z0-9_.]*["]{0,1}$` -/
def symbolPattern (s : Text) : Bool :=
  match if s.head? = some '"' then s.tail else s with
  | [] => false
  | c :: cs => c.isAlpha && (cs.dropWhile isWordChar == [] || cs.dropWhile isWordChar == ['"'])

def numberPattern (s : Text) : Bool :=
  let ds := if s.head? = some '-' then s.tail else s
  ds != [] && ds.all Char.isDigit

section Write

variable (streamFloat : F → Text)

/-- `SymbolTable::Null` on a stream. -/
def emptyText : Text := "(empty)".toList

/-- The text of a value in `operator<<`. How a `double` is printed is left open; the patterns see
the text up to a NUL. -/
def valueText : Value F → Text
  | .string s => quoted s.toList
  | .bool b => if b then "true".toList else "false".toList
  | .integer i => (toString i.toInt).toList
  | .float x => streamFloat x
  | .symbol s _ =>
    if symbolPattern (cStr s) || numberPattern (cStr s) then s.toList else quoted s.toList
  | .empty => emptyText

def line (e : String × String × Value F) : Text :=
  e.1.toList ++ ' ' :: (e.2.1.toList ++ ' ' :: valueText streamFloat e.2.2)

def write (store : Store F) : Text :=
  store.entries.flatMap fun e => line streamFloat e ++ ['\n']

end Write

def word (s : Text) : Text × Text :=
  let s := s.dropWhile isSpace
  (s.takeWhile fun c => !isSpace c, s.dropWhile fun c => !isSpace c)

variable [Double F]

def textValue (isString : Bool) (text : Text) : Value F :=
  let s := String.ofList text
  if s = "FALSE" ∨ s = "TRUE" then .ofString s
  else if (strtol s).2 then .integer (strtol s).1
  else if (Double.strtod (F := F) s).2 then .float (Double.strtod s).1
  else if isString then .string s
  else .ofString s

def readValue (vp : Text) : Value F :=
  if Quoted vp ∧ 2 < vp.length then textValue true vp.tail.dropLast else textValue false vp

def readLine (buf : Text) : String × String × Value F :=
  let s := buf.takeWhile (· ≠ '\x00')
  let name := word s
  let property := word name.2
  (String.ofList name.1, String.ofList property.1,
    readValue (property.2.dropWhile (· = ' ')))

/-- `load`, for a store without entries. A line that does not fit the buffer ends it. -/
def load (text : Text) : Store F :=
  (((Lines.lines text).takeWhile fun l => l.length < 400).map readLine).foldl NestedMap.insert ∅

end Clockwork.PersistentStore
