import Clockwork.ModbusExports
import Clockwork.PropertyAssign

namespace Clockwork.ModbusCommand

open Option Function Authority PropertyMessage System Value

open Authority (Instance assign route setProperty toVariable)
open ModbusAddress ModbusExports

variable {F M : Type}

section Requests

variable (env : Authority.Env F M) (w : M → Instance F)

/-- The request of a machine for a name ends as a property of a machine, in at most so many
calls. -/
inductive Leads : ℕ → M → String → M → String → Prop
  | keeps {d : ℕ} {x : M} {q : String} (h : route env w x q 0 = .assign) : Leads (d + 1) x q x q
  | passes {d : ℕ} {x y m : M} {q q' p : String} (h : route env w x q 0 = .forward y q')
      (h' : Leads d y q' m p) : Leads (d + 1) x q m p

variable {env w}

variable [DecidableEq M] [Double F]

theorem setValue_of_leads {d : ℕ} {x m : M} {q p : String} (h : Leads env w d x q m p)
    (v : Value F) : (setValue env d w x q v 0).2 = assign env w m p v := by
  induction h with
  | keeps h => rw [setValue, h]
  | passes h _ ih =>
    rw [setValue, h]
    exact ih

variable (env w) in
theorem leads_or_setValue (d : ℕ) (x : M) (q : String) :
    (∃ m p, Leads env w d x q m p) ∨ ∀ v, (setValue env d w x q v 0).2 = w := by
  induction d generalizing x q with
  | zero => exact .inr fun _ => rfl
  | succ d ih =>
    cases h : route env w x q 0 with
    | assign => exact .inl ⟨x, q, .keeps h⟩
    | forward y q' =>
      apply (ih y q').imp
      · rintro ⟨m, p, h'⟩
        exact ⟨m, p, .passes h h'⟩
      · intro h' v
        rw [setValue, h]
        exact h' v
    | reply result =>
      refine .inr fun v => ?_
      rw [setValue, h]

end Requests

structure Program (F M : Type) where
  env : Authority.Env F M
  machines : M → Machine F
  name_eq : ∀ x, (env.config x).name = (machines x).name
  narrow : F → F

inductive Work where
  | setState (state : String)
  | handle (message : String)
deriving DecidableEq, Repr

structure System (F M : Type) where
  instances : M → Instance F
  enabled : M → Bool
  actions : M → List Work

inductive Payload (F : Type) where
  | int (v : Int32)
  | float (v : F)
  | text (v : String)
deriving DecidableEq, Repr

def Payload.value : Payload F → Value F
  | .int v => .integer v.toInt64
  | .float v => .float v
  | .text v => .ofString v

inductive Refusal where
  | usage | malformed | valueType | unregistered | notFound
deriving DecidableEq, Repr

section Command

variable [DecidableEq M]

def System.enqueueAction (x : M) (a : Work) (s : System F M) : System F M :=
  { s with actions := Function.update s.actions x (a :: s.actions x) }

def System.handle (x : M) (message : String) (s : System F M) : System F M :=
  if s.enabled x then s.enqueueAction x (.handle message) else s

variable [Double F] (prog : Program F M) (depth : ℕ)

def System.setValue (x : M) (property : String) (v : Value F) (s : System F M) : System F M :=
  { s with instances := (Authority.setValue prog.env depth s.instances x property v 0).2 }

def updateSwitch (x : M) (name : String) (a : Address M) (v : Int32) (s : System F M) :
    System F M :=
  match a.source with
  | .machine => s.enqueueAction x (.setState (if v ≠ 0 then "on" else "off"))
  | .state =>
    match splitDot a.name with
    | some (_, state) => s.enqueueAction x (.setState state)
    | none => s
  | .command => if v ≠ 0 then s.handle x name else s
  | .property =>
    s.setValue prog depth x
      (if (prog.machines x).fullName = (prog.machines x).name then "VALUE" else name)
      (.integer v.toInt64)
  | .unknown => s

def updateRegister (x : M) (name : String) (v : Payload F) (s : System F M) : System F M :=
  s.setValue prog depth x (if name = (prog.machines x).name then "VALUE" else name) v.value

def updateItem (x : M) (name : String) (a : Address M) (v : Payload F) (s : System F M) :
    System F M :=
  match a.group, v with
  | .coil, .int v => updateSwitch prog depth x name a v s
  | .discrete, .int v => updateSwitch prog depth x name a v s
  | .holdingRegister, v => updateRegister prog depth x name v s
  | _, _ => s

def itemAt (r : Registry M) (x : M) (index : ℤ) : Option (String × Address M) :=
  ((r.modbusAddresses x).lookup index).bind fun name =>
    (r.state.modbusExports (x, name)).map fun a => (name, a)

def modbusUpdated (r : Registry M) (x : M) (base : Address M) (v : Payload F) (s : System F M) :
    System F M :=
  match itemAt r x base.index with
  | some (name, a) => updateItem prog depth x name a v s
  | none => s

/-- How the command reads its value. An integer loses what an `int` does not hold. -/
def payload (v : Value F) : Option (Payload F) :=
  match v with
  | .integer i => some (.int i.toInt32)
  | .float f => some (.float (prog.narrow f))
  | .bool b => some (.int (if b then 1 else 0))
  | .string s => some (v.asInteger.elim (.text s) fun i => .int i.toInt32)
  | .symbol s _ => some (v.asInteger.elim (.text s) fun i => .int i.toInt32)
  | .empty => none

/-- `IODCommandModbus::run`; none if the assertion fails. -/
def run (r : Registry M) (params : List (Value F)) (s : System F M) :
    Option (Except Refusal (System F M)) :=
  match params with
  | [_, group, address, value] =>
    match group.asInteger, address.asInteger with
    | some g, some n =>
      let found := (r.state.find (g.toInt * 65536 + n.toInt)).getD .null
      if found.group = .none then some (.error .notFound)
      else
        match found.owner with
        | none => some (.error .unregistered)
        | some x =>
          if n.toInt ≠ found.address then none
          else
            match payload prog value with
            | some v => some (.ok (modbusUpdated prog depth r x found v s))
            | none => some (.error .valueType)
    | _, _ => some (.error .malformed)
  | _ => some (.error .usage)

end Command

section Effects

variable [DecidableEq M]

/-- The effect of an integer on an entry. A command is the message without the name before it. -/
def Effect (e : Registration M) (v : Int64) (s s' : System F M) : Prop :=
  match e.item with
  | .machine => s' = s.enqueueAction e.machine (.setState (if v ≠ 0 then "on" else "off"))
  | .state st => s' = if v ≠ 0 then s.enqueueAction e.machine (.setState st) else s
  | .command c =>
    if v ≠ 0 then
      ∃ message, shortName message = c ∧ s' = s.enqueueAction e.machine (.handle message)
    else s' = s
  | .value => s' = { s with instances := setProperty s.instances e.machine "VALUE" (.integer v) }
  | .property p => s' = { s with instances := setProperty s.instances e.machine p (.integer v) }

def IsSwitch (e : Registration M) : Prop := e.address.group = .coil ∨ e.address.group = .discrete

def Owns (r : Registry M) (a : Address M) (x : M) : Prop :=
  ∃ b, r.state.find a.index = some b ∧ b.address = a.address ∧ b.owner = some x

structure Finds (prog : Program F M) (r : Registry M) (a : Address M) (e : Registration M) :
    Prop where
  owner : Owns r a e.machine
  listed : (r.modbusAddresses e.machine).lookup a.index =
    some ((prog.machines e.machine).itemName e.item)
  exported : r.state.modbusExports (e.machine, (prog.machines e.machine).itemName e.item) =
    some e.address

/-- The name that a write to an entry sets, for the machine of the entry. -/
inductive Asks (prog : Program F M) (e : Registration M) : String → Prop
  | switch (hswitch : IsSwitch e) (hsource : e.item.source = .property) :
      Asks prog e (if (prog.machines e.machine).owners = [] then "VALUE"
        else (prog.machines e.machine).itemName e.item)
  | register (hgroup : e.address.group = .holdingRegister) :
      Asks prog e (if (prog.machines e.machine).itemName e.item = (prog.machines e.machine).name
        then "VALUE" else (prog.machines e.machine).itemName e.item)

/-- What is enqueued for the machine of an entry if the integer is written to it. -/
inductive Enqueues (prog : Program F M) (s : System F M) (f : Registration M) (v : Int64) :
    Work → Prop
  | machine (hswitch : IsSwitch f) (hitem : f.item = .machine) :
      Enqueues prog s f v (.setState (if v.toInt32 ≠ 0 then "on" else "off"))
  | state {st first rest : String} (hswitch : IsSwitch f) (hitem : f.item = .state st)
      (hdot : splitDot ((prog.machines f.machine).fullName ++ "." ++ st) = some (first, rest)) :
      Enqueues prog s f v (.setState rest)
  | command {c : String} (hswitch : IsSwitch f) (hitem : f.item = .command c)
      (hvalue : v.toInt32 ≠ 0) (henabled : s.enabled f.machine = true) :
      Enqueues prog s f v (.handle ((prog.machines f.machine).name ++ "." ++ c))

variable [Double F]

/-- A property that is assigned the integer, as an `int`, has the value afterwards. -/
def Becomes (env : Authority.Env F M) (w : M → Instance F) (m : M) (p : String) (v : Int64)
    (value : Value F) : Prop :=
  let u := v.toInt32.toInt64
  match (env.config m).filter with
  | none => .integer u = value
  | some f =>
    if Authority.identical ((w m).properties p) (.integer (f (.integer u))) then
      (w m).properties p = value
    else
      .integer (if p = "VALUE" ∧ (env.config m).hasIoInterface then u else f (.integer u)) = value

variable (prog : Program F M) (depth : ℕ) (s : System F M)

/-- Nothing happens if the integer is written to the entry. -/
inductive Idle (f : Registration M) (v : Int64) : Prop
  | group (hswitch : ¬IsSwitch f) (hgroup : f.address.group ≠ .holdingRegister) : Idle f v
  | command {c : String} (hswitch : IsSwitch f) (hitem : f.item = .command c)
      (hnone : v.toInt32 = 0 ∨ s.enabled f.machine = false) : Idle f v
  | lost {q : String} (hask : Asks prog f q)
      (hlost : ∀ m p, ¬Leads prog.env s.instances depth f.machine q m p) : Idle f v
  | same {q p : String} {m : M} (hask : Asks prog f q)
      (hlead : Leads prog.env s.instances depth f.machine q m p)
      (hsame : Becomes prog.env s.instances m p v ((s.instances m).properties p)) : Idle f v

def Sets (f : Registration M) (v : Int64) (m : M) (p : String) : Prop :=
  ∃ q, Asks prog f q ∧ Leads prog.env s.instances depth f.machine q m p ∧
    Becomes prog.env s.instances m p v (.integer v)

/-- The integer, written to the second entry, does what is meant for the first. -/
def Reaches (e f : Registration M) (v : Int64) : Prop :=
  match e.item with
  | .machine => f.machine = e.machine ∧
      Enqueues prog s f v (.setState (if v ≠ 0 then "on" else "off"))
  | .state st => v ≠ 0 ∧ f.machine = e.machine ∧ Enqueues prog s f v (.setState st)
  | .command c => v ≠ 0 ∧ ∃ message, shortName message = c ∧ f.machine = e.machine ∧
      Enqueues prog s f v (.handle message)
  | .value => Sets prog depth s f v e.machine "VALUE"
  | .property p => Sets prog depth s f v e.machine p

/-- Nothing is to be done for the integer. -/
def Settled (e : Registration M) (v : Int64) (s : System F M) : Prop :=
  match e.item with
  | .machine => False
  | .state _ => v = 0
  | .command _ => v = 0
  | .value => (s.instances e.machine).properties "VALUE" = .integer v
  | .property p => (s.instances e.machine).properties p = .integer v

end Effects

section Found

theorem group_eq_of_index {a b : Address M} (h : b.index = a.index)
    (hadd : b.address = a.address) : b.group = a.group := by
  unfold Address.index indexOf at h
  cases hb : b.group <;> cases ha : a.group <;> simp_all [Group.number]

variable [DecidableEq M] [Double F] {prog : Program F M} {r : Registry M}

theorem run_cases (hr : Registered prog.machines r) (depth : ℕ) {a : Address M}
    (hgro : a.group ≠ .none) {group address : Value F}
    (hg : group.asInteger.map Int64.toInt = some a.group.number)
    (ha : address.asInteger.map Int64.toInt = some a.address) (command : Value F) :
    (∃ x, Owns r a x ∧ ∀ v s, run prog depth r [command, group, address, .integer v] s =
      some (.ok (modbusUpdated prog depth r x a (.int v.toInt32) s))) ∨ (∀ x, ¬Owns r a x) ∧
      ∀ v s s', run prog depth r [command, group, address, .integer v] s ≠ some (.ok s') := by
  obtain ⟨g, hg, hnum⟩ := map_eq_some_iff.mp hg
  obtain ⟨n, hn, hadd⟩ := map_eq_some_iff.mp ha
  have hind : g.toInt * 65536 + n.toInt = a.index := by
    rw [hnum, hadd]
    rfl
  simp only [run, hg, hn, hind]
  cases hfin : r.state.find a.index with
  | none =>
    refine .inr ⟨?_, fun v s s' => by simp [Address.null]⟩
    rintro x ⟨b, hb, _⟩
    rw [hfin] at hb
    cases hb
  | some b =>
    have hb := hr.mapped _ _ hfin
    have hown (x : M) : Owns r a x ↔ b.address = a.address ∧ b.owner = some x := by
      simp [Owns, hfin]
    simp only [getD_some, hown, hadd]
    by_cases hsam : b.address = a.address
    · simp only [group_eq_of_index hb hsam, if_neg hgro]
      cases howe : b.owner with
      | none => exact .inr ⟨by simp, fun v s s' => by simp⟩
      | some x =>
        refine .inl ⟨x, ⟨hsam, rfl⟩, fun v s => ?_⟩
        dsimp only
        rw [if_neg (not_not.mpr hsam.symm), modbusUpdated, ← hb]
        rfl
    · refine .inr ⟨fun x h => hsam h.1, fun v s s' => ?_⟩
      by_cases hnon : b.group = .none
      · simp [hnon]
      · cases b.owner with
        | none => simp [hnon]
        | some x => simp [hnon, Ne.symm hsam]

end Found

section Values

variable [DecidableEq M] [Double F] {env : Authority.Env F M} {w : M → Instance F}

theorem currentState_assign (x m : M) (p : String) (v : Value F) :
    (assign env w m p v x).currentState = (w x).currentState := by
  have hset (w : M → Instance F) (q : String) (u : Value F) :
      (setProperty w m q u x).currentState = (w x).currentState := by
    by_cases hx : x = m
    · subst hx
      simp [setProperty]
    · simp [setProperty, update_of_ne hx]
  unfold assign updateOutput
  split_ifs
  · cases v.asInteger <;> simp [hset]
  · exact hset w p _
  · rfl

theorem assign_eq_iff {m : M} {p : String} {u v : Value F} :
    assign env w m p u = setProperty w m p v ↔ (assign env w m p u m).properties p = v := by
  constructor
  · intro h
    rw [h]
    simp [setProperty]
  · intro h
    funext x
    by_cases hx : x = m
    · subst hx
      apply Instance.ext
      · rw [currentState_assign]
        simp [setProperty]
      · funext q
        by_cases hq : q = p
        · subst hq
          rw [h]
          simp [setProperty]
        · rw [assign_properties_of_ne hq]
          simp [setProperty, update_of_ne hq]
    · rw [assign_of_ne hx]
      simp [setProperty, update_of_ne hx]

theorem eq_of_not_wasChanged {prev : Value F} {u : Int64}
    (h : ¬wasChanged prev (.integer u) none = true) : prev = .integer u := by
  simp only [wasChanged, Bool.or_eq_true, not_or, Bool.not_eq_true', Bool.not_eq_false,
    bne_iff_ne, ne_eq, not_not] at h
  obtain ⟨⟨hide, hkin⟩, _⟩ := h
  cases prev with
  | integer i =>
    have hi : i = u := of_decide_eq_true hide
    exact congrArg integer hi
  | _ => cases hkin

theorem wasChanged_integer (prev : Value F) (u i : Int64) :
    wasChanged prev (.integer u) (some (.integer i)) =
      !identical prev (.integer i) := by
  cases prev with
  | empty => rfl
  | _ => simp [wasChanged, isNull]

theorem assign_becomes_iff (m : M) (p : String) (v : Int64) (value : Value F) :
    assign env w m p (.integer v.toInt32.toInt64) = setProperty w m p value ↔
      Becomes env w m p v value := by
  rw [assign_eq_iff, assign_properties]
  unfold Becomes stored
  dsimp only
  cases hfil : (env.config m).filter with
  | none =>
    dsimp only
    rw [filtered_eq_none hfil]
    by_cases hcha : wasChanged ((w m).properties p)
        (.integer v.toInt32.toInt64) none = true
    · rw [if_pos hcha]
      split_ifs <;> rfl
    · rw [if_neg hcha, eq_of_not_wasChanged hcha]
  | some f =>
    dsimp only
    have hfit : filtered env m (.integer v.toInt32.toInt64) =
        some (.integer (f (.integer v.toInt32.toInt64))) := by
      rw [filtered, hfil]
      rfl
    rw [hfit, wasChanged_integer]
    cases identical ((w m).properties p)
        (.integer (f (.integer v.toInt32.toInt64))) with
    | true => simp
    | false =>
      simp only [Bool.not_false, if_true, Bool.false_eq_true, if_false]
      split_ifs <;> rfl

omit [Double F] in
theorem setProperty_eq_self_iff (m : M) (p : String) (value : Value F) :
    setProperty w m p value = w ↔ (w m).properties p = value := by
  constructor
  · intro h
    have hm := congrArg (fun w => (w m).properties p) h
    simpa [setProperty] using hm.symm
  · rintro rfl
    simp [setProperty]

/-- Another property is set by an assignment only if it has the value, and nothing changes. -/
theorem assign_other {m m' : M} {p p' : String} (hne : ¬(m = m' ∧ p = p')) {u value : Value F}
    (h : assign env w m' p' u = setProperty w m p value) :
    (w m).properties p = value ∧ assign env w m' p' u = w := by
  have hval : (w m).properties p = value := by
    have hset : (assign env w m' p' u m).properties p = value := by
      rw [h]
      simp [setProperty]
    rw [← hset]
    by_cases hm : m = m'
    · subst hm
      exact (assign_properties_of_ne (fun hp => hne ⟨rfl, hp⟩) _).symm
    · rw [assign_of_ne hm]
  exact ⟨hval, h.trans ((setProperty_eq_self_iff m p value).mpr hval)⟩

end Values

section Writes

variable [DecidableEq M]

open System

theorem enqueueAction_inj {x m : M} {a b : Work} {s : System F M}
    (h : s.enqueueAction x a = s.enqueueAction m b) : x = m ∧ a = b := by
  have hact := congrArg actions h
  simp only [enqueueAction] at hact
  have hx : x = m := by
    by_contra hne
    have hm := congrFun hact x
    rw [update_self, update_of_ne hne] at hm
    exact List.cons_ne_self _ _ hm
  subst hx
  have hm := congrFun hact x
  rw [update_self, update_self] at hm
  exact ⟨rfl, (List.cons.inj hm).1⟩

theorem actions_ne {s t : System F M} {x : M} {a : Work} (h : t = s.enqueueAction x a) :
    t.actions ≠ s.actions := by
  intro heq
  have hx := congrFun (heq.symm.trans (congrArg actions h)) x
  simp only [enqueueAction, update_self] at hx
  exact List.cons_ne_self _ _ hx.symm

theorem eq_set_iff (s : System F M) (m : M) (p : String) (value : Value F) :
    s = { s with instances := setProperty s.instances m p value } ↔
      (s.instances m).properties p = value := by
  rw [← setProperty_eq_self_iff]
  exact ⟨fun h => (congrArg instances h).symm, fun h => by rw [h]⟩

theorem fullName_eq_name_iff (m : Machine F) : m.fullName = m.name ↔ m.owners = [] := by
  have hlen (owners : List String) (name : String) : name.length + owners.length ≤
      (owners.foldl (fun res owner => owner ++ "." ++ res) name).length := by
    induction owners generalizing name with
    | nil => simp
    | cons o owners ih =>
      have h := ih (o ++ "." ++ name)
      simp only [String.length_append] at h
      rw [List.foldl_cons, List.length_cons]
      have hdot : ".".length = 1 := rfl
      omega
  constructor
  · intro h
    have hle := hlen m.owners m.name
    rw [Machine.fullName] at h
    rw [h] at hle
    exact List.length_eq_zero_iff.mp (by omega)
  · intro h
    rw [Machine.fullName, h]
    rfl

section Items

theorem exists_splitDot (a b : String) :
    ∃ first rest, splitDot (a ++ "." ++ b) = some (first, rest) := by
  unfold splitDot
  cases hdro : (a ++ "." ++ b).toList.dropWhile (· ≠ '.') with
  | nil =>
    have hall := List.dropWhile_eq_nil_iff.mp hdro '.' (by simp)
    simp at hall
  | cons c rest => exact ⟨_, _, rfl⟩

variable [Double F] {prog : Program F M} {f : Registration M}

def write (prog : Program F M) (depth : ℕ) (f : Registration M) (v : Int32) (s : System F M) :
    System F M :=
  updateItem prog depth f.machine ((prog.machines f.machine).itemName f.item) f.address (.int v) s

theorem write_switch (hswi : IsSwitch f) (depth : ℕ) (v : Int32) (s : System F M) :
    write prog depth f v s =
      updateSwitch prog depth f.machine ((prog.machines f.machine).itemName f.item) f.address v
        s := by
  unfold write updateItem
  obtain h | h := hswi <;> rw [h]

theorem write_other (hswi : ¬IsSwitch f) (hreg : f.address.group ≠ .holdingRegister)
    (depth : ℕ) (v : Int32) (s : System F M) : write prog depth f v s = s := by
  unfold write updateItem
  cases hgro : f.address.group with
  | coil => exact absurd (.inl hgro) hswi
  | discrete => exact absurd (.inr hgro) hswi
  | holdingRegister => exact absurd hgro hreg
  | _ => rfl

variable (hnam : f.Named prog.machines)

include hnam

omit [DecidableEq M] [Double F] in
theorem source_eq_of_isSwitch (hswi : IsSwitch f) : f.address.source = f.item.source := by
  obtain hnul | hnam := hnam
  · rw [IsSwitch, hnul] at hswi
    obtain h | h := hswi <;> cases h
  · exact hnam.1

theorem write_state (hswi : IsSwitch f) {st first rest : String} (hite : f.item = .state st)
    (hdot : splitDot ((prog.machines f.machine).fullName ++ "." ++ st) = some (first, rest))
    (depth : ℕ) (v : Int32) (s : System F M) :
    write prog depth f v s = s.enqueueAction f.machine (.setState rest) := by
  obtain hnul | ⟨hsou, hname, -⟩ := hnam
  · rw [IsSwitch, hnul] at hswi
    obtain h | h := hswi <;> cases h
  · rw [hite] at hsou hname
    have hdot : splitDot f.address.name = some (first, rest) := by
      rw [hname]
      exact hdot
    rw [write_switch hswi, updateSwitch, hsou]
    simp only [Item.source, hdot]

theorem write_command (hswi : IsSwitch f) {c : String}
    (hite : f.item = .command c) (depth : ℕ) (v : Int32) (s : System F M) : write prog depth f v s =
      if v ≠ 0 then s.handle f.machine ((prog.machines f.machine).name ++ "." ++ c) else s := by
  rw [write_switch hswi, updateSwitch, source_eq_of_isSwitch hnam hswi, hite]
  rfl

theorem write_asks {q : String} (hask : Asks prog f q) (depth : ℕ) (v : Int32) (s : System F M) :
    write prog depth f v s = s.setValue prog depth f.machine q (.integer v.toInt64) := by
  cases hask with
  | switch hswi hpro =>
    rw [write_switch hswi, updateSwitch, source_eq_of_isSwitch hnam hswi, hpro]
    simp only [fullName_eq_name_iff]
  | register hgro =>
    unfold write updateItem
    rw [hgro]
    rfl

variable {depth : ℕ} {s : System F M} {v : Int64}

theorem write_of_enqueues {work : Work} (h : Enqueues prog s f v work) :
    write prog depth f v.toInt32 s = s.enqueueAction f.machine work := by
  cases h with
  | machine hswi hite =>
    rw [write_switch hswi, updateSwitch, source_eq_of_isSwitch hnam hswi, hite]
    rfl
  | state hswi hite hdot => exact write_state hnam hswi hite hdot depth _ s
  | command hswi hite hval hena =>
    rw [write_command hnam hswi hite, if_pos hval, handle, if_pos hena]

theorem write_of_leads {q p : String} {m : M} (hask : Asks prog f q)
    (hlea : Leads prog.env s.instances depth f.machine q m p) :
    write prog depth f v.toInt32 s = { s with
      instances := assign prog.env s.instances m p (.integer v.toInt32.toInt64) } := by
  rw [write_asks hnam hask, System.setValue, setValue_of_leads hlea]

theorem write_of_idle (h : Idle prog depth s f v) : write prog depth f v.toInt32 s = s := by
  cases h with
  | group hswi hgro => exact write_other hswi hgro depth _ s
  | command hswi hite hnon =>
    rw [write_command hnam hswi hite, handle]
    obtain hzer | hena := hnon
    · rw [if_neg (not_not.mpr hzer)]
    · simp [hena]
  | lost hask hlos =>
    obtain ⟨m, p, hlea⟩ | hnot := leads_or_setValue prog.env s.instances depth f.machine _
    · exact absurd hlea (hlos m p)
    · rw [write_asks hnam hask, System.setValue, hnot]
  | same hask hlea hsam =>
    have hass := (assign_becomes_iff _ _ _ _).mpr hsam
    rw [write_of_leads hnam hask hlea, hass, (setProperty_eq_self_iff _ _ _).mpr rfl]

omit hnam [DecidableEq M] in
theorem write_cases (depth : ℕ) (s : System F M) (f : Registration M) (v : Int64) :
    (∃ work, Enqueues prog s f v work) ∨ Idle prog depth s f v ∨
    ∃ q m p, Asks prog f q ∧ Leads prog.env s.instances depth f.machine q m p := by
  have hask {q : String} (hq : Asks prog f q) : Idle prog depth s f v ∨
      ∃ q m p, Asks prog f q ∧ Leads prog.env s.instances depth f.machine q m p := by
    by_cases hlea : ∃ m p, Leads prog.env s.instances depth f.machine q m p
    · obtain ⟨m, p, hlea⟩ := hlea
      exact .inr ⟨q, m, p, hq, hlea⟩
    · exact .inl (.lost hq fun m p h => hlea ⟨m, p, h⟩)
  by_cases hswi : IsSwitch f
  · cases hite : f.item with
    | machine => exact .inl ⟨_, .machine hswi hite⟩
    | state st =>
      obtain ⟨first, rest, hdot⟩ := exists_splitDot (prog.machines f.machine).fullName st
      exact .inl ⟨_, .state hswi hite hdot⟩
    | command c =>
      by_cases hnon : v.toInt32 = 0 ∨ s.enabled f.machine = false
      · exact .inr (.inl (.command hswi hite hnon))
      · obtain ⟨hval, hena⟩ := not_or.mp hnon
        exact .inl ⟨_, .command hswi hite hval (Bool.not_eq_false _ ▸ hena)⟩
    | value => exact .inr (hask (.switch hswi (by rw [hite]; rfl)))
    | property p => exact .inr (hask (.switch hswi (by rw [hite]; rfl)))
  · by_cases hreg : f.address.group = .holdingRegister
    · exact .inr (hask (.register hreg))
    · exact .inr (.inl (.group hswi hreg))

variable (depth s v)

theorem write_eq_enqueue_iff (m : M) (work : Work) :
    write prog depth f v.toInt32 s = s.enqueueAction m work ↔
      f.machine = m ∧ Enqueues prog s f v work := by
  constructor
  · intro h
    obtain ⟨work', henq⟩ | hidl | ⟨q, m', p, hask, hlea⟩ := write_cases depth s f v
    · rw [write_of_enqueues hnam henq] at h
      obtain ⟨hm, rfl⟩ := enqueueAction_inj h
      exact ⟨hm, henq⟩
    · rw [write_of_idle hnam hidl] at h
      exact (actions_ne h rfl).elim
    · rw [write_of_leads hnam hask hlea] at h
      exact (actions_ne h rfl).elim
  · rintro ⟨rfl, henq⟩
    exact write_of_enqueues hnam henq

theorem write_eq_self_iff : write prog depth f v.toInt32 s = s ↔ Idle prog depth s f v := by
  constructor
  · intro h
    obtain ⟨work, henq⟩ | hidl | ⟨q, m, p, hask, hlea⟩ := write_cases depth s f v
    · rw [write_of_enqueues hnam henq] at h
      exact (actions_ne h.symm rfl).elim
    · exact hidl
    · rw [write_of_leads hnam hask hlea] at h
      refine .same hask hlea ((assign_becomes_iff _ _ _ _).mp ?_)
      rw [(setProperty_eq_self_iff m p _).mpr rfl]
      exact congrArg instances h
  · exact write_of_idle hnam

theorem write_eq_set_iff (m : M) (p : String) : write prog depth f v.toInt32 s =
        { s with instances := setProperty s.instances m p (.integer v) } ↔
      Sets prog depth s f v m p ∨
        (s.instances m).properties p = .integer v ∧ Idle prog depth s f v := by
  have hself := eq_set_iff s m p (.integer v)
  constructor
  · intro h
    obtain ⟨work, henq⟩ | hidl | ⟨q, m', p', hask, hlea⟩ := write_cases depth s f v
    · rw [write_of_enqueues hnam henq] at h
      exact (actions_ne h.symm rfl).elim
    · rw [write_of_idle hnam hidl] at h
      exact .inr ⟨hself.mp h, hidl⟩
    · have hass := congrArg instances h
      rw [write_of_leads hnam hask hlea] at hass
      by_cases heq : m = m' ∧ p = p'
      · obtain ⟨rfl, rfl⟩ := heq
        exact .inl ⟨q, hask, hlea, (assign_becomes_iff m p v _).mp hass⟩
      · -- the request leads to another property, which keeps its value
        have hval := (assign_other heq hass).1
        rw [← hself.mpr hval, write_eq_self_iff hnam] at h
        exact .inr ⟨hval, h⟩
  · rintro (⟨q, hask, hlea, hbec⟩ | ⟨hval, hidl⟩)
    · rw [write_of_leads hnam hask hlea, (assign_becomes_iff m p v _).mpr hbec]
    · rw [write_of_idle hnam hidl]
      exact hself.mpr hval

theorem write_effect_iff (e : Registration M) :
    Effect e v s (write prog depth f v.toInt32 s) ↔
      Reaches prog depth s e f v ∨ Settled e v s ∧ Idle prog depth s f v := by
  obtain ⟨m, item, a⟩ := e
  cases item with
  | machine => simp [Effect, Reaches, Settled, write_eq_enqueue_iff hnam]
  | state st =>
    by_cases hv : v = 0
    · subst hv
      simpa [Effect, Reaches, Settled] using write_eq_self_iff hnam depth s 0
    · simp [Effect, Reaches, Settled, hv, write_eq_enqueue_iff hnam]
  | command c =>
    by_cases hv : v = 0
    · subst hv
      simpa [Effect, Reaches, Settled] using write_eq_self_iff hnam depth s 0
    · simp [Effect, Reaches, Settled, hv, write_eq_enqueue_iff hnam]
  | value => exact write_eq_set_iff hnam depth s v m "VALUE"
  | property p => exact write_eq_set_iff hnam depth s v m p

omit hnam [Double F] in
theorem effect_self_iff (e : Registration M) : Effect e v s s ↔ Settled e v s := by
  have henq (m : M) (work : Work) : s ≠ s.enqueueAction m work := fun h => actions_ne h rfl
  obtain ⟨m, item, a⟩ := e
  cases item with
  | machine => simp [Effect, Settled, henq]
  | state st => by_cases hv : v = 0 <;> simp [Effect, Settled, hv, henq]
  | command c => by_cases hv : v = 0 <;> simp [Effect, Settled, hv, henq]
  | value => exact eq_set_iff s m "VALUE" _
  | property p => exact eq_set_iff s m p _

end Items

section Registries

omit [DecidableEq M] in
theorem Owns.unique {r : Registry M} {a : Address M} {x y : M} (h : Owns r a x) (h' : Owns r a y) :
    x = y := by
  obtain ⟨b, hb, _, hx⟩ := h
  obtain ⟨c, hc, _, hy⟩ := h'
  obtain rfl := some.inj (hb.symm.trans hc)
  exact some.inj (hx.symm.trans hy)

variable [Double F] {prog : Program F M} {r : Registry M} {a : Address M}

theorem modbusUpdated_of_finds {f : Registration M} (h : Finds prog r a f) (depth : ℕ) (v : Int32)
    (s : System F M) :
    modbusUpdated prog depth r f.machine a (.int v) s = write prog depth f v s := by
  simp [modbusUpdated, itemAt, h.listed, h.exported, write]

theorem finds_cases (hr : Registered prog.machines r) {x : M} (hown : Owns r a x) (depth : ℕ) :
    (∃ f ∈ r.entries, f.machine = x ∧ Finds prog r a f) ∨
    (∀ f, ¬Finds prog r a f) ∧ ∀ v s, modbusUpdated prog depth r x a v s = s := by
  cases hite : itemAt r x a.index with
  | none =>
    refine .inr ⟨?_, fun v s => by rw [modbusUpdated, hite]⟩
    intro f hf
    obtain rfl := hown.unique hf.owner
    simp [itemAt, hf.listed, hf.exported] at hite
  | some item =>
    obtain ⟨name, hnam, hexp⟩ := bind_eq_some_iff.mp hite
    obtain ⟨b, hb, rfl⟩ := map_eq_some_iff.mp hexp
    obtain ⟨f, hf, rfl, rfl, rfl⟩ := hr.entry x name b hb
    exact .inl ⟨f, hf, rfl, hown, hnam, hb⟩

end Registries

/-- An integer that is written to the address of an export has its effect exactly if the entry that
is found at the address reaches the item, or nothing is to be done and nothing happens. -/
theorem run_effect_iff [Double F] (lines : List (String × Line)) (prog : Program F M)
    (xs : List M) {r : Registry M} (hsetup : setupAll lines prog.machines xs = some r)
    (depth : ℕ) (s : System F M) (v : Int64) : ∀ e ∈ r.entries,
      e.address.group = .coil ∨ e.address.group = .holdingRegister ∧ e.item ≠ .machine →
    ∀ command group address : Value F,
      group.asInteger.map Int64.toInt = some e.address.group.number →
      address.asInteger.map Int64.toInt = some e.address.address →
    ((∃ s', run prog depth r [command, group, address, .integer v] s = some (.ok s') ∧
        Effect e v s s') ↔
      (∃ f ∈ r.entries, Finds prog r e.address f ∧ Reaches prog depth s e f v) ∨
      Settled e v s ∧ (∃ x, Owns r e.address x) ∧
        ∀ f ∈ r.entries, Finds prog r e.address f → Idle prog depth s f v) := by
  intro e _ hgro command group address hg ha
  have hr := registered_setupAll lines prog.machines hsetup
  have hnon : e.address.group ≠ .none := by
    obtain h | ⟨h, _⟩ := hgro <;> simp [h]
  obtain ⟨x, hown, hrun⟩ | ⟨hown, hrun⟩ := run_cases hr depth hnon hg ha command
  · simp only [hrun, some.injEq, Except.ok.injEq, exists_eq_left']
    obtain ⟨f, hf, rfl, hfin⟩ | ⟨hfin, hnot⟩ := finds_cases hr hown depth
    · have hwri {f' : Registration M} (hfin' : Finds prog r e.address f') :
          write prog depth f' v.toInt32 s = write prog depth f v.toInt32 s := by
        rw [← modbusUpdated_of_finds hfin', hfin'.owner.unique hown, modbusUpdated_of_finds hfin]
      rw [modbusUpdated_of_finds hfin]
      constructor
      · intro h
        obtain hrea | ⟨hset, hidl⟩ := (write_effect_iff (hr.named f hf) depth s v e).mp h
        · exact .inl ⟨f, hf, hfin, hrea⟩
        · refine .inr ⟨hset, ⟨_, hown⟩, fun f' hf' hfin' => ?_⟩
          apply (write_eq_self_iff (hr.named f' hf') depth s v).mp
          rw [hwri hfin', write_of_idle (hr.named f hf) hidl]
      · rintro (⟨f', hf', hfin', hrea⟩ | ⟨hset, _, hidl⟩)
        · rw [← hwri hfin']
          exact (write_effect_iff (hr.named f' hf') depth s v e).mpr (.inl hrea)
        · exact (write_effect_iff (hr.named f hf) depth s v e).mpr (.inr ⟨hset, hidl f hf hfin⟩)
    · rw [hnot, effect_self_iff]
      constructor
      · intro h
        exact .inr ⟨h, ⟨x, hown⟩, fun f _ hf => absurd hf (hfin f)⟩
      · rintro (⟨f, _, hf, _⟩ | ⟨hset, _⟩)
        · exact absurd hf (hfin f)
        · exact hset
  · apply iff_of_false
    · rintro ⟨s', hs', _⟩
      exact hrun v s s' hs'
    · rintro (⟨f, _, hf, _⟩ | ⟨_, ⟨x, hx⟩, _⟩)
      · exact hown f.machine hf.owner
      · exact hown x hx

end Writes

def pump : Machine ℚ where
  name := "pump"
  owners := []
  type := "PUMP"
  exported := none
  pointType := .empty
  strlen := .empty
  stateExports := []
  stateExportsRw := ["run"]
  commandExports := ["start"]
  exports := []

def pumpProgram : Program ℚ Unit where
  env :=
    { config := fun _ =>
        { name := "pump", expectedAuthority := 0, isShadow := false, channelConnected := false,
          isConstant := false, states := ["idle", "run"], globalReferences := fun _ => none,
          filter := none, hasIoInterface := false }
      lookup := fun _ name => if name = "pump" then some () else none
      find := fun name => if name = "pump" then some () else none
      getValue := fun w x name => (w x).properties name
      output := fun _ _ => none }
  machines := fun _ => pump
  name_eq := fun _ => rfl
  narrow := id

def pumpSystem : System ℚ Unit := ⟨fun _ => ⟨"idle", fun _ => .empty⟩, fun _ => true, fun _ => []⟩

def pumpEntry (item : Item) (address : ℤ) (source : Source) (name : String) : Registration Unit :=
  ⟨(), item, ⟨.coil, address, 1, .discrete, source, some (), name⟩⟩

theorem one_asks_for_state : ∃ r, setupAll [] pumpProgram.machines [()] = some r ∧
      pumpEntry (.state "run") 1000 .state "pump.run" ∈ r.entries ∧
      ∃ s', run pumpProgram 2 r [.ofString "MODBUS", .integer 0, .integer 1000, .integer 1]
          pumpSystem = some (.ok s') ∧
        Effect (pumpEntry (.state "run") 1000 .state "pump.run") 1 pumpSystem s' := by
  refine ⟨_, rfl, by decide, ?_⟩
  refine (run_effect_iff [] pumpProgram [()] rfl 2 pumpSystem 1 _ ?_ (.inl rfl) _ _ _ rfl rfl).mpr
    (.inl ⟨pumpEntry (.state "run") 1000 .state "pump.run", ?_, ?_, ?_⟩)
  · decide
  · decide
  · exact ⟨⟨_, rfl, rfl, rfl⟩, rfl, rfl⟩
  · exact ⟨by decide, rfl, .state (.inl rfl) rfl rfl⟩

/-- Zero for the coil of a state asks for the state. -/
theorem zero_asks_for_state : ∃ r s', setupAll [] pumpProgram.machines [()] = some r ∧
      pumpEntry (.state "run") 1000 .state "pump.run" ∈ r.entries ∧
      run pumpProgram 2 r [.ofString "MODBUS", .integer 0, .integer 1000, .integer 0]
        pumpSystem = some (.ok s') ∧ s'.actions () = [.setState "run"] ∧
      ¬Effect (pumpEntry (.state "run") 1000 .state "pump.run") 0 pumpSystem s' := by
  refine ⟨_, _, rfl, by decide, rfl, by decide, ?_⟩
  intro h
  have hact := congrArg (fun s => s.actions ()) h
  cases hact

end Clockwork.ModbusCommand
