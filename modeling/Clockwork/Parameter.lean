import Clockwork.Value

namespace Clockwork

structure Parameter (F M : Type) where
  val : Value F
  realName : String
  machine : Option M
deriving DecidableEq, Repr

namespace Parameter

variable {F M : Type}

/-- Where `addParameter` puts a new entry. Before the last entry of an empty list there
is no such place. -/
def insert (ps : List (Parameter F M)) (p : Parameter F M) (position : Int) (before : Bool) :
    Option (List (Parameter F M)) :=
  if position < 0 then
    if before = false then some (ps ++ [p])
    else if ps.length = 0 then none
    else some (ps.insertIdx (ps.length - 1) p)
  else
    let position := if before then position else position + 1
    if position < ps.length then some (ps.insertIdx position.toNat p) else some (ps ++ [p])

end Parameter

end Clockwork
