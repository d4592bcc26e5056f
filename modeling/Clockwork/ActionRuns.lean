import Clockwork.MachineCommand
import Clockwork.Value

namespace Clockwork.ActionRuns

open Option

open MachineCommand (Status)

variable {F M A : Type} [DecidableEq A]

/-- An action, and the `active_actions` of its owner with the executing action last. -/
structure State (A : Type) where
  active : List A
  started : Bool
  status : Status
deriving DecidableEq, Repr

def State.start (a : A) (s : State A) : State A :=
  if s.started then s
  else if s.active.getLast? = some a then { s with started := true }
  else { s with started := true, active := s.active ++ [a] }

def State.stop (a : A) (s : State A) : State A :=
  { s with started := false, active := s.active.filter (· ≠ a) }

def State.finish (a : A) (result : Status) (s : State A) : Status × State A :=
  (result, { s with status := result }.stop a)

/-- What a call leaves that may run other actions of the owner: its result and the actions. -/
structure Response (A : Type) where
  result : Status
  active : List A
deriving DecidableEq, Repr

def Response.ended (r : Response A) : Bool := r.result = .complete || r.result = .failed

def State.after (s : State A) (active : List A) : State A := { s with active }

structure Transition where
  source : String
  dest : String
  trigger : String
  condition : Option Bool
  abortOnFailure : Bool
deriving DecidableEq, Repr

structure Env (F M : Type) where
  owner : M
  type : M → String
  enabled : M → Bool
  lookup : String → Option M
  getValue : String → Value F
  hasState : M → String → Bool
  current : M → String
  ioState : M → Option String
  transitions : M → List Transition
  size : M → ℕ
  locked : M → Option M
  /-- the globals of the owner's class, some of which may have no machine -/
  globals : String → Option (Option M)

structure Call (A : Type) where
  target : String
  execute : Response A

def Call.run [DecidableEq M] (env : Env F M) (a : A) (c : Call A) (s : State A) :
    Status × State A :=
  let s := s.start a
  match env.lookup c.target with
  | none => (.failed, s)
  | some m =>
    if m = env.owner then
      let s := { s with active := c.execute.active, status := c.execute.result }
      (c.execute.result, if c.execute.result = .complete then s.stop a else s)
    else if env.enabled m then
      -- with or without a trigger that has not fired
      (.running, { s with status := .running })
    else (.failed, { s with status := .failed })

/-- The end of `IfCommandAction::run` and `IfElseCommandAction::run`. -/
def runCommand (a : A) (command : Response A) (s : State A) : Status × State A :=
  let s := { s with active := command.active, status := command.result }
  (command.result, if command.ended then s.stop a else s)

def runIf (a : A) (condition : Bool) (command : Response A) (s : State A) : Status × State A :=
  let s := s.start a
  if !condition then s.finish a .complete else runCommand a command s

def runIfElse (a : A) (condition : Bool) (command elseCommand : Response A) (s : State A) :
    Status × State A :=
  let s := s.start a
  if condition then runCommand a command s else runCommand a elseCommand s

def name? : Value F → Option String
  | .symbol s _ => some s
  | .string s => some s
  | _ => none

/-- `SetStateAction` and, without transitions, `MoveStateAction`. -/
structure StateChange (F A : Type) where
  useTransitions : Bool
  target : String
  savedState : Value F
  expr : Option (Value F)
  newState : Value F
  execute : Response A
  setState : Response A
  abort : A

namespace StateChange

/-- The state a name stands for: a state of the machine or a property that names one. A name
without a value is used as it is. -/
def stateName (env : Env F M) (m : M) (name : String) : Option String :=
  if env.hasState m name then some name
  else if (env.getValue name).isNull then some name
  else (name? (env.getValue name)).filter fun n => env.hasState m n

def wanted (c : StateChange F A) : Value F :=
  if c.savedState.isNull then c.expr.getD c.newState else c.savedState

def goal (env : Env F M) (c : StateChange F A) : Option (M × String) :=
  (name? c.wanted).bind fun name =>
    (env.lookup c.target).bind fun m => (stateName env m name).map fun value => (m, value)

def transition (env : Env F M) (c : StateChange F A) (m : M) (value : String) : Option Transition :=
  if c.useTransitions then
    ((env.transitions m).find? fun t =>
      (t.source = env.current m || t.source = "ANY") && (t.dest = value || t.dest = "ANY")).filter
        fun t => t.condition = some false || t.trigger ≠ "NOTRIGGER"
  else none

def follow (a : A) (c : StateChange F A) (t : Transition) (s : State A) : Status × State A :=
  if t.condition = some false then
    if t.abortOnFailure then (.failed, { s with active := c.abort :: s.active, status := .failed })
    else (.needsRetry, { s with status := .new })
  else
    let s := { s with active := c.execute.active, status := c.execute.result }
    (c.execute.result,
      if c.execute.result ≠ .running && c.execute.result ≠ .suspended &&
        s.active.getLast? = some a then s.stop a else s)

def run (env : Env F M) (a : A) (c : StateChange F A) (s : State A) : Status × State A :=
  let s := s.start a
  match c.goal env with
  | none => s.finish a .failed
  | some (m, value) =>
    match env.ioState m with
    | some state =>
      if state = value then s.finish a .complete
      else if value = "on" ∨ value = "off" then (.running, { s with status := .running })
      else s.finish a .failed
    | none =>
      if env.current m = value then s.finish a .complete
      else
        match c.transition env m value with
        | some t => c.follow a t s
        | none => runCommand a c.setState s

end StateChange

section Lists

variable [Double F] (env : Env F M)

def Env.position (v : Value F) : Option Int64 :=
  match name? v with
  | some name => if (env.getValue name).isNull then none else (env.getValue name).asInteger
  | none => v.asInteger

/-- An entry in a list; `work` is what the insertion leaves of the actions of the owner. -/
structure Entry (F A : Type) where
  list : String
  entry : Value F
  position : Value F
  work : List A

/-- Whether a reference gets a machine. A property that names no machine is a null pointer. -/
def Env.assigns (entry : Value F) : Option Bool :=
  match entry with
  | .symbol name _ =>
    match env.lookup name with
    | some _ => some true
    | none =>
      match env.getValue name with
      | .symbol ref _ => if (env.lookup ref).isSome then some true else none
      | _ => some false
  | _ => some false

def Entry.includeAction (a : A) (c : Entry F A) (s : State A) : Option (Status × State A) :=
  let s := s.start a
  match env.lookup c.list with
  | none => some (s.finish a .failed)
  | some m =>
    if env.type m = "REFERENCE" then
      (env.assigns c.entry).map fun ok =>
        (s.after c.work).finish a (if ok then .complete else .failed)
    else if (env.position c.position).isNone then some (.failed, { s with status := .failed })
    else some ((s.after c.work).finish a .complete)

def Entry.place (c : Entry F A) : Option (M × Int64) :=
  (env.lookup c.list).bind fun list =>
    ((env.lookup c.entry.asString).filter fun m => env.type m = "ITERATOR").bind fun _ =>
      (env.position c.position).bind fun pos =>
        if env.size list = 0 then none else some (list, pos)

/-- `SetIterAction::run`; a position beyond the end is not checked. -/
def Entry.setIter (a : A) (c : Entry F A) (s : State A) : Option (Status × State A) :=
  let s := s.start a
  match c.place env with
  | none => some (.failed, { s with status := .failed })
  | some (list, pos) =>
    if pos.toInt < env.size list then some ((s.after c.work).finish a .complete) else none

end Lists

/-- How `doOperation` ends: only exceptions that are thrown as objects are caught. -/
inductive Ending where
  | returns (result : Status)
  | throws
  | escapes
deriving DecidableEq, Repr

def runSetOperation (env : Env F M) (a : A) (dest : String) (ending : Ending) (work : List A)
    (s : State A) : Option (Status × State A) :=
  let s := s.start a
  match env.lookup dest with
  | none => some (s.finish a .failed)
  | some m =>
    if env.type m = "LIST" ∨ env.type m = "REFERENCE" then
      match ending with
      | .returns result => some ((s.after work).finish a result)
      | .throws => some ((s.after work).finish a .failed)
      | .escapes => none
    else some (s.finish a .failed)

def runLock [DecidableEq M] (env : Env F M) (a : A) (machine : String) (s : State A) :
    Status × State A :=
  let s := s.start a
  match env.lookup machine with
  | none => s.finish a .failed
  | some m =>
    if (env.locked m).all (· = env.owner) then s.finish a .complete
    else (.running, { s with status := .running })

def runUnlock [DecidableEq M] (env : Env F M) (a : A) (machine : String) (s : State A) :
    Status × State A :=
  let s := s.start a
  match env.lookup machine with
  | none => s.finish a .failed
  | some m => s.finish a (if env.locked m = some env.owner then .complete else .failed)

inductive Operator where
  | inc | dec | set
deriving DecidableEq, Repr

structure Expression (F A : Type) where
  hasExpr : Bool
  lhs : String
  op : Operator
  rhs : Value F
  extra : Value F
  work : List A

def Expression.result [Double F] (env : Env F M) (c : Expression F A) : Status :=
  if c.hasExpr || (env.getValue c.lhs).isNull then .complete
  else
    match c.op with
    | .set =>
      if c.rhs.kind = .symbol ∧ c.extra.isNull = false ∧ (env.lookup c.extra.asString).isNone then
        .failed
      else .complete
    | _ =>
      if (env.getValue c.lhs).kind ≠ .integer ∨ c.rhs.kind ≠ .integer then .failed else .complete

def Expression.run [Double F] (env : Env F M) (a : A) (c : Expression F A) (s : State A) :
    Status × State A :=
  ((s.start a).after c.work).finish a (c.result env)

inductive Left where
  | symbol (name : String)
  | property
  | dynamic
  | other
deriving DecidableEq, Repr

/-- The result of `PredicateAction::run`; a global without a machine aborts the program. -/
def Left.result (env : Env F M) : Left → Option Status
  | .symbol name =>
    match env.globals name with
    | none => some .complete
    | some none => none
    | some (some m) => some (if env.type m = "CONSTANT" then .failed else .complete)
  | .property => some .complete
  | .dynamic => some .failed
  | .other => some .failed

def runAssign (env : Env F M) (a : A) (left : Left) (work : List A) (s : State A) :
    Option (Status × State A) :=
  (left.result env).map fun result => ((s.start a).after work).finish a result

inductive Action (F A : Type) where
  | call (c : Call A)
  | ifThen (condition : Bool) (command : Response A)
  | ifElse (condition : Bool) (command elseCommand : Response A)
  | set (c : StateChange F A)
  | includeAction (c : Entry F A)
  | setOperation (dest : String) (ending : Ending) (work : List A)
  | setIter (c : Entry F A)
  | lock (machine : String)
  | unlock (machine : String)
  | expression (c : Expression F A)
  | assign (left : Left) (work : List A)

section Run

variable [DecidableEq M] [Double F]

def Action.run (env : Env F M) (a : A) (s : State A) : Action F A → Option (Status × State A)
  | .call c => some (c.run env a s)
  | .ifThen condition command => some (runIf a condition command s)
  | .ifElse condition command elseCommand => some (runIfElse a condition command elseCommand s)
  | .set c => some (c.run env a s)
  | .includeAction c => c.includeAction env a s
  | .setOperation dest ending work => runSetOperation env a dest ending work s
  | .setIter c => c.setIter env a s
  | .lock machine => some (runLock env a machine s)
  | .unlock machine => some (runUnlock env a machine s)
  | .expression c => some (c.run env a s)
  | .assign left work => runAssign env a left work s

/-- An action that has ended has left the stack and knows how it ended. -/
def Settled (a : A) (out : Status × State A) : Prop :=
  out.1 = .complete ∨ out.1 = .failed → a ∉ out.2.active ∧ out.2.status = out.1

def State.Off (a : A) (s : State A) : Prop := s.started = true ∧ a ∉ s.active

def StateChange.followed (env : Env F M) (c : StateChange F A) : Option Transition :=
  (c.goal env).bind fun goal =>
    if (env.ioState goal.1).isSome ∨ env.current goal.1 = goal.2 then none
    else c.transition env goal.1 goal.2

/-- The exits that do not stop the action are not taken, or it is not on the stack. -/
def Action.Tidy (env : Env F M) (a : A) (s : State A) : Action F A → Prop
  | .call c =>
    (env.lookup c.target = none → s.Off a ∧ s.status = .failed) ∧
    (env.lookup c.target = some env.owner → c.execute.result = .failed → a ∉ c.execute.active) ∧
    ∀ m, env.lookup c.target = some m → m ≠ env.owner → env.enabled m = false → s.Off a
  | .set c => ∀ t, c.followed env = some t →
    if t.condition = some false then t.abortOnFailure = true → s.Off a ∧ c.abort ≠ a
    else c.execute.ended = true → a ∈ c.execute.active → c.execute.active.getLast? = some a
  | .includeAction c => ∀ m, env.lookup c.list = some m → env.type m ≠ "REFERENCE" →
    env.position c.position = none → s.Off a
  | .setIter c => c.place env = none → s.Off a
  | _ => True

end Run

theorem not_mem_start_iff {a : A} {s : State A} : a ∉ (s.start a).active ↔ s.Off a := by
  unfold State.start State.Off
  split_ifs with hsta hlas
  · simp [hsta]
  · have hmem : a ∈ s.active := List.mem_of_getLast? hlas
    simp [hsta, hmem]
  · simp [hsta]

variable (a : A)

theorem status_start (s : State A) : (s.start a).status = s.status := by
  unfold State.start
  split_ifs <;> rfl

theorem not_mem_stop (s : State A) : a ∉ (s.stop a).active := by
  simp [State.stop]

theorem settled_finish (result : Status) (s : State A) : Settled a (s.finish a result) :=
  fun _ => ⟨not_mem_stop a _, rfl⟩

theorem settled_answer_iff {a : A} {active : List A} {started : Bool} {result : Status}
    {stops : Prop} [Decidable stops] : Settled a (result,
        if stops then State.stop a ⟨active, started, result⟩ else ⟨active, started, result⟩) ↔
      (result = .complete ∨ result = .failed → ¬stops → a ∉ active) := by
  unfold Settled
  apply imp_congr_right
  intro _
  by_cases hsto : stops
  · simp only [if_pos hsto]
    exact iff_of_true ⟨not_mem_stop a _, rfl⟩ fun h => absurd hsto h
  · simp [hsto]

theorem settled_runCommand (command : Response A) (s : State A) :
    Settled a (runCommand a command s) := by
  apply settled_answer_iff.mpr
  intro hend hsto
  exact absurd (by simpa [Response.ended] using hend) hsto

omit [DecidableEq A] in
theorem settled_of_running {a : A} {s : State A} : Settled a (.running, s) := by
  intro hend
  simp at hend

section Exits

variable (env : Env F M) (a : A) (s : State A)

theorem settled_call_iff [DecidableEq M] [Double F] (c : Call A) :
    Settled a (c.run env a s) ↔ (Action.call c).Tidy env a s := by
  rw [Action.Tidy, Call.run]
  cases hloo : env.lookup c.target with
  | none => simp [Settled, not_mem_start_iff, status_start]
  | some m =>
    dsimp only
    by_cases hm : m = env.owner
    · subst hm
      rw [if_pos rfl]
      apply Iff.trans settled_answer_iff
      cases c.execute.result <;> simp
    · rw [if_neg hm]
      cases hena : env.enabled m with
      | true =>
        refine iff_of_true settled_of_running ⟨by simp, ?_, ?_⟩
        · intro heq
          exact absurd (some.inj heq) hm
        · intro x hx _ hdis
          cases hx
          rw [hena] at hdis
          cases hdis
      | false => simp [Settled, not_mem_start_iff, hm, hena]

theorem settled_runIf (condition : Bool) (command : Response A) :
    Settled a (runIf a condition command s) := by
  cases condition with
  | true => exact settled_runCommand a command _
  | false => exact settled_finish a .complete _

theorem settled_runIfElse (condition : Bool) (command elseCommand : Response A) :
    Settled a (runIfElse a condition command elseCommand s) := by
  cases condition with
  | true => exact settled_runCommand a command _
  | false => exact settled_runCommand a elseCommand _

open StateChange

theorem run_of_followed {c : StateChange F A} {t : Transition}
    (hfol : c.followed env = some t) : c.run env a s = c.follow a t (s.start a) := by
  obtain ⟨⟨m, value⟩, hgoa, huse⟩ := bind_eq_some_iff.mp hfol
  split_ifs at huse with hski
  obtain ⟨hio, hcur⟩ := not_or.mp hski
  unfold run
  simp only [hgoa, not_isSome_iff_eq_none.mp hio, if_neg hcur, huse]

theorem settled_of_not_followed {c : StateChange F A} (hfol : c.followed env = none) :
    Settled a (c.run env a s) := by
  unfold run
  unfold followed at hfol
  cases hgoa : c.goal env with
  | none => exact settled_finish a .failed _
  | some goal =>
    obtain ⟨m, value⟩ := goal
    simp only [hgoa, bind_some] at hfol
    dsimp only
    cases hio : env.ioState m with
    | some state =>
      dsimp only
      split_ifs
      · exact settled_finish a .complete _
      · exact settled_of_running
      · exact settled_finish a .failed _
    | none =>
      by_cases hcur : env.current m = value
      · rw [if_pos hcur]
        exact settled_finish a .complete _
      · rw [if_neg (by simp [hio, hcur])] at hfol
        rw [if_neg hcur, hfol]
        exact settled_runCommand a c.setState _

theorem settled_set_iff [Double F] (c : StateChange F A) :
    Settled a (c.run env a s) ↔ (Action.set c).Tidy env a s := by
  rw [Action.Tidy]
  cases hfol : c.followed env with
  | none => exact iff_of_true (settled_of_not_followed env a s hfol) (by simp)
  | some t =>
    simp only [run_of_followed env a s hfol, some.injEq, forall_eq']
    unfold follow
    split_ifs with hcon habo
    · simp [Settled, not_mem_start_iff, habo, and_comm, eq_comm]
    · simp [Settled, habo]
    · apply Iff.trans settled_answer_iff
      unfold Response.ended
      cases c.execute.result <;> simp <;> tauto

section Lists

variable [Double F]

theorem settled_include_iff (c : Entry F A) :
    (∀ out, c.includeAction env a s = some out → Settled a out) ↔
      (Action.includeAction c).Tidy env a s := by
  rw [Action.Tidy, Entry.includeAction]
  cases hloo : env.lookup c.list with
  | none => simp [settled_finish]
  | some m =>
    dsimp only
    split_ifs with href hpos
    · refine iff_of_true ?_ (by simp [href])
      intro out hout
      obtain ⟨ok, _, rfl⟩ := map_eq_some_iff.mp hout
      exact settled_finish a _ _
    · simp [Settled, not_mem_start_iff, href, isNone_iff_eq_none.mp hpos]
    · simp [settled_finish, isNone_iff_eq_none.not.mp hpos]

theorem settled_setIter_iff (c : Entry F A) :
    (∀ out, c.setIter env a s = some out → Settled a out) ↔ (c.place env = none → s.Off a) := by
  unfold Entry.setIter
  cases hpla : c.place env with
  | none => simp [Settled, not_mem_start_iff]
  | some place => simp [settled_finish]

end Lists

variable {out : Status × State A}

theorem settled_runSetOperation (dest : String) (ending : Ending) (work : List A)
    (hrun : runSetOperation env a dest ending work s = some out) :
    Settled a out := by
  unfold runSetOperation at hrun
  cases hloo : env.lookup dest with
  | none =>
    rw [hloo] at hrun
    exact some.inj hrun ▸ settled_finish a .failed _
  | some m =>
    simp only [hloo] at hrun
    split_ifs at hrun
    · cases ending with
      | returns result => exact some.inj hrun ▸ settled_finish a result _
      | throws => exact some.inj hrun ▸ settled_finish a .failed _
      | escapes => cases hrun
    · exact some.inj hrun ▸ settled_finish a .failed _

theorem settled_runLock [DecidableEq M] (machine : String) :
    Settled a (runLock env a machine s) := by
  unfold runLock
  cases env.lookup machine with
  | none => exact settled_finish a .failed _
  | some m =>
    dsimp only
    split_ifs
    · exact settled_finish a .complete _
    · exact settled_of_running

theorem settled_runUnlock [DecidableEq M] (machine : String) :
    Settled a (runUnlock env a machine s) := by
  unfold runUnlock
  cases env.lookup machine with
  | none => exact settled_finish a .failed _
  | some m => exact settled_finish a _ _

theorem settled_runAssign (left : Left) (work : List A)
    (hrun : runAssign env a left work s = some out) : Settled a out := by
  obtain ⟨result, _, rfl⟩ := map_eq_some_iff.mp hrun
  exact settled_finish a result _

/-- An action that has ended is off the stack of its owner, with its status set, exactly if it
takes none of the exits that leave it there. -/
theorem settled_run_iff [DecidableEq M] [Double F] (act : Action F A) :
    (∀ out, act.run env a s = some out → Settled a out) ↔ act.Tidy env a s := by
  have always {out : Status × State A} (h : Settled a out) :
      (∀ x, some out = some x → Settled a x) ↔ True :=
    iff_of_true (fun x hx => some.inj hx ▸ h) trivial
  cases act with
  | call c => simpa [Action.run] using settled_call_iff env a s c
  | ifThen condition command => exact always (settled_runIf a s condition command)
  | ifElse condition command elseCommand =>
    exact always (settled_runIfElse a s condition command elseCommand)
  | set c => simpa [Action.run] using settled_set_iff env a s c
  | includeAction c => exact settled_include_iff env a s c
  | setOperation dest ending work =>
    exact iff_of_true (fun _ => settled_runSetOperation env a s dest ending work) trivial
  | setIter c => exact settled_setIter_iff env a s c
  | lock machine => exact always (settled_runLock env a s machine)
  | unlock machine => exact always (settled_runUnlock env a s machine)
  | expression c => exact always (settled_finish a _ _)
  | assign left work => exact iff_of_true (fun _ => settled_runAssign env a s left work) trivial

end Exits

/-- A CALL to a machine that does not exist has failed and stays on the stack. -/
theorem failed_call_stays :
    let env : Env ℚ Unit :=
      { owner := (), type := fun _ => "", enabled := fun _ => true, lookup := fun _ => none,
        getValue := fun _ => .empty, hasState := fun _ _ => false, current := fun _ => "",
        ioState := fun _ => none, transitions := fun _ => [], size := fun _ => 0,
        locked := fun _ => none, globals := fun _ => none }
    let call : Action ℚ ℕ := .call ⟨"pump", ⟨.complete, []⟩⟩
    call.run env 1 ⟨[], false, .running⟩ = some (.failed, ⟨[1], true, .running⟩) ∧
      ¬Settled 1 (Status.failed, (⟨[1], true, .running⟩ : State ℕ)) := by
  refine ⟨rfl, ?_⟩
  intro h
  exact absurd (h (Or.inr rfl)).1 (by decide)

end Clockwork.ActionRuns
