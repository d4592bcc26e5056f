import Clockwork.Parameter

namespace Clockwork.ListStates

open List

variable {F M P : Type}

inductive Operator where
  | any | all | count
deriving DecidableEq, Repr

/-- An operator with its `state_property`. The pointer is 0 until the first evaluation; then it
is an object, or `&SymbolTable::Null`. -/
structure StateValue (P : Type) where
  op : Operator
  state : String
  stateProperty : Option (Option P)
deriving DecidableEq, Repr

structure Names (F P : Type) where
  getValue : String → Option P
  value : P → Value F

structure Members (F M : Type) where
  list : Option (List (Parameter F M))
  lookup : Parameter F M → Option M
  getCurrent : M → String

def Names.text [Double F] (n : Names F P) (state : String) (property : Option P) : String :=
  property.elim state fun p => (n.value p).asString

namespace Members

variable (m : Members F M)

/-- The members that the loops look at. Those that are not found are skipped. -/
def found (ps : List (Parameter F M)) : List M := ps.filterMap fun p => p.machine <|> m.lookup p

def anyIn (wanted : String) : Bool :=
  match m.list with
  | none => false
  | some ps => (m.found ps).any fun x => wanted = m.getCurrent x

def allIn (wanted : String) : Bool :=
  match m.list with
  | none | some [] => false
  | some ps => (m.found ps).all fun x => wanted = m.getCurrent x

def count (wanted : String) : ℕ :=
  match m.list with
  | none | some [] => 0
  | some ps => (m.found ps).foldl (fun n x => if wanted = m.getCurrent x then n + 1 else n) 0

end Members

/-- The list is there with these parameters, and each of them has a machine. -/
structure Members.Resolved (m : Members F M) (ps : List (Parameter F M)) : Prop where
  list : m.list = some ps
  found : ∀ p ∈ ps, (p.machine <|> m.lookup p).isSome

def Members.inState (m : Members F M) (ps : List (Parameter F M)) (state : String) : ℕ :=
  ps.countP fun p => (p.machine <|> m.lookup p).any fun x => state = m.getCurrent x

def Operator.expected (op : Operator) (m : Members F M) (ps : List (Parameter F M))
    (state : String) : Value F :=
  match op with
  | .any => .bool (0 < m.inState ps state)
  | .all => .bool (ps ≠ [] ∧ m.inState ps state = ps.length)
  | .count => .integer (.ofNat (m.inState ps state))

section Loops

variable {m : Members F M} {ps : List (Parameter F M)} (h : m.Resolved ps) (s : String)

open Members

theorem countP_found (m : Members F M) (ps : List (Parameter F M)) (s : String) :
    (m.found ps).countP (fun x => s = m.getCurrent x) = m.inState ps s := by
  rw [found, countP_filterMap]
  refine countP_congr fun p _ => ?_
  cases p.machine <|> m.lookup p <;> rfl

theorem length_found (hfou : ∀ p ∈ ps, (p.machine <|> m.lookup p).isSome) :
    (m.found ps).length = ps.length := by
  rw [found, length_filterMap_eq_countP, countP_eq_length]
  exact hfou

include h

theorem Members.Resolved.anyIn : m.anyIn s = decide (0 < m.inState ps s) := by
  rw [Members.anyIn, h.list, ← countP_found, Bool.eq_iff_iff, any_eq_true, decide_eq_true_iff,
    countP_pos_iff]

theorem Members.Resolved.allIn : m.allIn s = decide (ps ≠ [] ∧ m.inState ps s = ps.length) := by
  cases ps with
  | nil => simp [allIn, h.list]
  | cons p ps =>
    rw [allIn, h.list, ← countP_found, ← length_found h.found, Bool.eq_iff_iff,
      all_eq_true, decide_eq_true_iff, countP_eq_length]
    simp

theorem Members.Resolved.count : m.count s = m.inState ps s := by
  have hfol (xs : List M) (k : ℕ) :
      xs.foldl (fun n x => if s = m.getCurrent x then n + 1 else n) k =
        k + xs.countP fun x => s = m.getCurrent x := by
    induction xs generalizing k with
    | nil => rfl
    | cons x xs ih =>
      rw [foldl_cons, countP_cons]
      split_ifs <;> simp_all [add_assoc, add_comm]
  cases ps with
  | nil => simp [count, h.list, inState]
  | cons p ps =>
    rw [count, h.list, ← countP_found, ← zero_add (countP _ _)]
    exact hfol _ 0

end Loops

theorem expected_one_iff (op : Operator) (x : M) (s w : String) :
    op.expected ⟨some [⟨.empty, "", some x⟩], fun _ => none, fun _ => w⟩
        ([⟨.empty, "", some x⟩] : List (Parameter F M)) s =
      op.expected ⟨some [⟨.empty, "", some x⟩], fun _ => none, fun _ => w⟩
        [⟨.empty, "", some x⟩] w ↔ s = w := by
  by_cases hs : s = w <;> cases op <;> simp [Operator.expected, Members.inState, hs]

variable [Double F]

def StateValue.evaluate (v : StateValue P) (n : Names F P) (m : Members F M) :
    StateValue P × Value F :=
  let property := v.stateProperty.getD (n.getValue v.state)
  let wanted := n.text v.state property
  ({ v with stateProperty := some property },
    match v.op with
    | .any => .bool (m.anyIn wanted)
    | .all => .bool (m.allIn wanted)
    | .count => .integer (.ofNat (m.count wanted)))

def StateValue.after (op : Operator) (state : String) (history : List (Names F P × Members F M)) :
    StateValue P :=
  history.foldl (fun v e => (v.evaluate e.1 e.2).1) ⟨op, state, none⟩

theorem stateProperty_after (op : Operator) (state : String)
    (history : List (Names F P × Members F M)) : StateValue.after op state history =
      ⟨op, state, history.head?.map fun e => e.1.getValue state⟩ := by
  have hkee (property : Option P) (history : List (Names F P × Members F M)) :
      history.foldl (fun v e => (StateValue.evaluate v e.1 e.2).1) ⟨op, state, some property⟩ =
        ⟨op, state, some property⟩ := by
    induction history with
    | nil => rfl
    | cons e history ih => exact ih
  cases history with
  | nil => rfl
  | cons e history => exact hkee (e.1.getValue state) history

theorem evaluate_of_resolved {m : Members F M} {ps : List (Parameter F M)} (h : m.Resolved ps)
    (v : StateValue P) (n : Names F P) : (v.evaluate n m).2 =
      v.op.expected m ps (n.text v.state (v.stateProperty.getD (n.getValue v.state))) := by
  unfold StateValue.evaluate Operator.expected
  dsimp only
  rw [h.anyIn, h.allIn, h.count]

/-- At an evaluation each operator returns what it should for the present value of the property,
or for the name if there is no such property, whatever the members are, exactly if the object
that was found at the first evaluation gives the same text now. -/
theorem evaluate_iff [Inhabited M] (op : Operator) (state : String)
    (history : List (Names F P × Members F M)) (now : Names F P) :
    (∀ (m : Members F M) (ps : List (Parameter F M)), m.Resolved ps →
      ((StateValue.after op state history).evaluate now m).2 =
        op.expected m ps (now.text state (now.getValue state))) ↔
    now.text state ((history.head?.elim now Prod.fst).getValue state) =
      now.text state (now.getValue state) := by
  rw [stateProperty_after]
  have hfir : ((history.head?.map fun e => e.1.getValue state).getD (now.getValue state)) =
      (history.head?.elim now Prod.fst).getValue state := by
    cases history <;> rfl
  constructor
  · intro h
    have hone := h ⟨some [⟨.empty, "", some default⟩], fun _ => none,
      fun _ => now.text state (now.getValue state)⟩ [⟨.empty, "", some default⟩] ⟨rfl, by simp⟩
    rwa [evaluate_of_resolved ⟨rfl, by simp⟩, hfir, expected_one_iff] at hone
  · intro h m ps hres
    rw [evaluate_of_resolved hres, hfir, h]

/-- The operator is evaluated before the property `wanted` is there. Once it is, and asks for the
state of the one member, the operator still looks for the state `wanted`. -/
theorem any_misses_new_property :
    let before : Names ℚ Unit := ⟨fun _ => none, fun _ => .empty⟩
    let after : Names ℚ Unit := ⟨fun _ => some (), fun _ => .string "on"⟩
    let members : Members ℚ ℕ := ⟨some [⟨.empty, "lamp", some 0⟩], fun _ => none, fun _ => "on"⟩
    members.Resolved [⟨.empty, "lamp", some 0⟩] ∧
      ((StateValue.after .any "wanted" [(before, members)]).evaluate after members).2 =
        .bool false ∧
      Operator.any.expected members [⟨.empty, "lamp", some 0⟩]
        (after.text "wanted" (after.getValue "wanted")) = .bool true := by
  exact ⟨⟨rfl, by simp⟩, by decide, by decide⟩

end Clockwork.ListStates
