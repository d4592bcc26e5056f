import Clockwork.Library.Runs
import Clockwork.Parameter
import Mathlib.Data.Finset.Basic

namespace Clockwork.Lists

variable {F M : Type}

/-- What list operations work on. A machine in `depends x` is told about changes of `x`;
no machine depends on itself. -/
structure World (F M : Type) where
  parameters : M → List (Parameter F M)
  depends : M → Finset M
  listens : M → Finset M
  currentState : M → String
  irrefl : ∀ x, x ∉ depends x

namespace World

variable [DecidableEq M] (w : World F M) (x : M)

def setParameters (ps : List (Parameter F M)) : World F M :=
  { w with parameters := Function.update w.parameters x ps }

/-- `setState`, without the handlers that it runs at once: they are taken to leave the world. -/
def setState (st : String) : World F M :=
  { w with currentState := Function.update w.currentState x st }

theorem irrefl_update {x : M} {d : Finset M} (h : x ∉ d) (y : M) :
    y ∉ Function.update w.depends x d y := by
  by_cases hy : y = x
  · subst hy
    rwa [Function.update_self]
  · rw [Function.update_of_ne hy]
    exact w.irrefl y

def addDependancy (x m : M) : World F M :=
  if h : m = x then w
  else
    { w with
      depends := Function.update w.depends x (insert m (w.depends x))
      irrefl := w.irrefl_update (by simp [Ne.symm h, w.irrefl x]) }

def removeDependancy (x m : M) : World F M :=
  if m = x then w
  else
    { w with
      depends := Function.update w.depends x ((w.depends x).erase m)
      irrefl := w.irrefl_update (by simp [w.irrefl x]) }

def listenTo (x m : M) : World F M :=
  { w with listens := Function.update w.listens x (insert m (w.listens x)) }

def stopListening (x m : M) : World F M :=
  { w with listens := Function.update w.listens x ((w.listens x).erase m) }

/-- `removeDependancy` and `stopListening` of a pointer that may be null. -/
def leave : Option M → World F M
  | some m => (w.removeDependancy x m).stopListening x m
  | none => w

def join : Option M → World F M
  | some m => (((w.addDependancy x m).listenTo x m).addDependancy m x).listenTo m x
  | none => w

def part : Option M → World F M
  | some m => (((w.removeDependancy m x).stopListening m x).removeDependancy x m).stopListening x m
  | none => w

/-- `addParameter`, with the entry that was made for the new member. -/
def addParameter (p : Parameter F M) (position : Int) (before : Bool) : Option (World F M) :=
  (Parameter.insert (w.parameters x) p position before).map fun ps =>
    let w' := (w.setParameters x ps).join x p.machine
    if ps.length > 0 ∧ w.currentState x ≠ "nonempty" then w'.setState x "nonempty" else w'

def removeParameter (which : Int) : World F M :=
  if which < 0 ∨ (w.parameters x).length ≤ which then w
  else
    let ps := (w.parameters x).eraseIdx which.toNat
    let w' :=
      (w.part x (((w.parameters x)[which.toNat]?).bind Parameter.machine)).setParameters x ps
    if ps.length = 0 ∧ w.currentState x ≠ "empty" then w'.setState x "empty" else w'

def takeFirst : Option (Value F) × World F M :=
  match w.parameters x with
  | [] => (none, w)
  | p :: ps => (some p.val, (w.leave x p.machine).setParameters x ps)

/-- `TAKE LAST FROM`: the last entry goes, the machine of the first one is left. -/
def takeLast : Option (Value F) × World F M :=
  match w.parameters x with
  | [] => (none, w)
  | p :: ps =>
    (((p :: ps).getLast?).map Parameter.val,
      (w.leave x p.machine).setParameters x (p :: ps).dropLast)

/-- `TAKE ITEM index OF`. An entry without a machine may get one just before it goes. -/
def takeItem (index : Int) : Option (Value F) × World F M :=
  if 0 ≤ index ∧ index < (w.parameters x).length then
    (((w.parameters x)[index.toNat]?).map Parameter.val,
      w.setParameters x ((w.parameters x).eraseIdx index.toNat))
  else (none, w)

def clearEntry (w : World F M) (p : Parameter F M) : World F M :=
  match p.machine with
  | some m => (w.stopListening x m).removeDependancy m x
  | none => w

def clear : World F M :=
  ((w.parameters x).foldl (clearEntry x) w).setParameters x []

end World

inductive Operation (F M : Type) where
  | addParameter (x : M) (p : Parameter F M) (position : Int) (before : Bool)
  | removeParameter (x : M) (which : Int)
  | takeFirst (x : M)
  | takeLast (x : M)
  | takeItem (x : M) (index : Int)
  | clear (x : M)

/-- The machines, with the pairs of a list and a machine that have other reasons to be
linked than the machine's membership: links from before, and the list being a member of
the machine. -/
structure System (F M : Type) extends World F M where
  registered : M → M → Prop

/-- A list machine that takes in another list is registered with it. -/
def register (isList : M → Bool) (r : M → M → Prop) (x : M) (p : Parameter F M) (y m : M) : Prop :=
  r y m ∨ (m = x ∧ p.machine = some y ∧ isList y ∧ y ≠ x)

inductive Step [DecidableEq M] (isList : M → Bool) :
    System F M → Operation F M → System F M → Prop
  | addParameter {s : System F M} {x : M} {p : Parameter F M} {position : Int} {before : Bool}
      {w : World F M} (hx : isList x) (h : s.toWorld.addParameter x p position before = some w) :
      Step isList s (.addParameter x p position before) ⟨w, register isList s.registered x p⟩
  | removeParameter {s : System F M} {x : M} (which : Int) (hx : isList x) :
      Step isList s (.removeParameter x which) ⟨s.toWorld.removeParameter x which, s.registered⟩
  | takeFirst {s : System F M} {x : M} (hx : isList x) :
      Step isList s (.takeFirst x) ⟨(s.toWorld.takeFirst x).2, s.registered⟩
  | takeLast {s : System F M} {x : M} (hx : isList x) :
      Step isList s (.takeLast x) ⟨(s.toWorld.takeLast x).2, s.registered⟩
  | takeItem {s : System F M} {x : M} (index : Int) (hx : isList x) :
      Step isList s (.takeItem x index) ⟨(s.toWorld.takeItem x index).2, s.registered⟩
  | clear {s : System F M} {x : M} (hx : isList x) :
      Step isList s (.clear x) ⟨s.toWorld.clear x, s.registered⟩

def System.start (w : World F M) (isList : M → Bool) : System F M where
  parameters x := if isList x then [] else w.parameters x
  depends := w.depends
  listens := w.listens
  currentState := w.currentState
  irrefl := w.irrefl
  registered x m := x ∈ w.depends m ∧ m ∈ w.listens x

end Clockwork.Lists
