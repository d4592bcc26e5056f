import Clockwork.Library.Writes
import Clockwork.ModbusExports
import Mathlib.Data.List.Nodup

namespace Clockwork.ModbusView

open ModbusAddress ModbusExports Runs Writes List Option

variable {F M : Type}

def modbusExported [Double F] (m : Machine F) : ExportType :=
  if m.isVariable then .none else (m.selfExport.map Prod.snd).getD .none

structure Other (F : Type) where
  isVariable : Bool
  value : Option (Value F)

structure Exporter (F M : Type) where
  machine : Machine F
  states : List String
  exports : String → Option (Address M)
  addresses : List (ℤ × String)
  indexed : Indexed exports addresses
  properties : String → Option (Value F)
  lookup : String → Option (Other F)

def isOn (state : String) : Bool := state = "on" || state = "true"

def afterLastDot (name : String) : String :=
  String.ofList (name.toList.reverse.takeWhile (· ≠ '.')).reverse

/-- The name of a command: `.cmd_` instead of the last dot. -/
def commandName (name : String) : String :=
  match name.toList.reverse.dropWhile (· ≠ '.') with
  | [] => name
  | _ :: rest => String.ofList rest.reverse ++ ".cmd_" ++ afterLastDot name

structure Report (F : Type) where
  group : ℤ
  addr : ℤ
  kind : ExportType
  name : String
  length : ℤ
  value : Value F

def key (index : ℤ) : ℤ × ℤ := (index / 65536, index % 65536)

namespace Exporter

variable (m : Exporter F M)

def stateName (state : String) : String := m.machine.name ++ "." ++ state

/-- The group of the index is one of registers and there is a `VALUE` for it. -/
def HasRegister (index : ℤ) : Prop :=
  (m.properties "VALUE").isSome = true ∧ ((key index).1 = 3 ∨ (key index).1 = 4)

instance (index : ℤ) : Decidable (m.HasRegister index) :=
  inferInstanceAs (Decidable (_ ∧ _))

variable (current : String)

def machineValue (index : ℤ) : Value F :=
  if m.machine.isVariable ∨ m.HasRegister index then (m.properties "VALUE").getD .empty
  else .integer (if isOn current then 1 else 0)

def stateValue (current name : String) : Value F :=
  .integer (if m.stateName current = name then 1 else 0)

def propertyValue (index : ℤ) (name : String) : Value F :=
  match m.properties (afterLastDot name) with
  | some v => v
  | none =>
    match m.lookup name with
    | some other =>
      if other.isVariable ∨ other.value.isSome ∧ ((key index).1 = 3 ∨ (key index).1 = 4) then
        other.value.getD .empty
      else .integer 0
    | none => .integer 0

def itemValue (index : ℤ) (name : String) : Source → Value F
  | .machine => m.machineValue current index
  | .state => m.stateValue current name
  | .command => .integer 0
  | .property => m.propertyValue index name
  | .unknown => .ofString "UNKNOWN"

def report (p : ℤ × String) : Report F :=
  let info := (m.exports p.2).getD .null
  let name := (m.machine.owners.head?.map (· ++ ".")).getD "" ++ p.2
  { group := (key p.1).1
    addr := (key p.1).2
    kind := info.exportType
    name := if (key p.1).1 = 0 then commandName name else name
    length := if info.exportType = .float32 then 2 else info.allocated
    value := m.itemValue current p.1 p.2 info.source }

def refreshModbus : List (Report F) := m.addresses.map (m.report current)

end Exporter

def reported (reports : List (Report F)) (k : ℤ × ℤ) : Option (Value F) :=
  (reports.find? fun r => (r.group, r.addr) = k).map Report.value

structure Update where
  group : Group
  address : ℤ
  name : String
  length : ℤ
  value : Int64
deriving DecidableEq, Repr

def update (a : Address M) (value : Int64) : Update :=
  ⟨a.group, a.address, a.name, a.allocated, value⟩

def Update.write (u : Update) : (ℤ × ℤ) × Option (Value F) :=
  ((u.group.number, u.address), some (.integer u.value))

/-- A call of `setState` that is in the leave or the enter handlers. -/
inductive Frame where
  | leaving (newState : String)
  | entering
deriving DecidableEq, Repr

structure State where
  current : String
  frames : List Frame
  sent : List Update
deriving DecidableEq, Repr

structure Call where
  newState : String
  authority : UInt64
  expectedAuthority : UInt64
  resume : Bool
  enabled : Bool
  property : String
deriving DecidableEq, Repr

def Call.accepted (c : Call) (states : List String) (current : String) : Option String :=
  if c.expectedAuthority ≠ 0 ∧ c.authority = 0 then none
  else if c.expectedAuthority = 0 ∧ c.authority ≠ 0 then none
  else if c.resume = false ∧ current = c.newState then none
  else if c.newState ∈ states then some c.newState
  else if c.property ∈ states then
    if c.resume = false ∧ current = c.property then none else some c.property
  else none

section Steps

def InRange (a : Address M) : Prop := 0 ≤ a.address ∧ a.address < 65536

variable [Double F] (m : Exporter F M)

def Exporter.IsSwitch : Prop :=
  modbusExported m.machine = .discrete ∨ modbusExported m.machine = .coil

instance : Decidable m.IsSwitch := inferInstanceAs (Decidable (_ ∨ _))

variable (current newState : String)

def machineUpdates : List Update :=
  if m.IsSwitch then
    match m.exports m.machine.name with
    | none => []
    | some a =>
      if a.source = .machine ∧ a.group ≠ .none then
        if isOn newState then [update a 1] else if isOn current then [update a 0] else []
      else []
  else []

omit [Double F] in
def stateUpdates (state : String) (value : Int64) : List Update :=
  (m.exports (m.stateName state)).toList.map fun a => update a value

omit [Double F] in
/-- The name of a state is exported as a state, if at all. -/
def Asserted (state : String) : Bool :=
  (m.exports (m.stateName state)).all fun a => a.source = .state

def updates : List Update :=
  machineUpdates m current newState ++ stateUpdates m current 0 ++ stateUpdates m newState 1

def commit (s : State) (newState : String) : Option State :=
  if Asserted m s.current ∧ Asserted m newState then
    some
      { current := newState
        frames := .entering :: s.frames
        sent := s.sent ++ updates m s.current newState }
  else none

inductive Event where
  | call (c : Call)
  | left
  | entered
deriving DecidableEq, Repr

def next (s : State) : Event → Option State
  | .call c =>
    match c.accepted m.states s.current with
    | none => some s
    | some newState =>
      if c.enabled ∧ s.current ≠ newState ∧ s.current ≠ "undefined" then
        some { s with frames := .leaving newState :: s.frames }
      else commit m s newState
  | .left =>
    match s.frames with
    | .leaving newState :: frames => commit m { s with frames } newState
    | _ => none
  | .entered =>
    match s.frames with
    | .entering :: frames => some { s with frames }
    | _ => none

def Tracked (p : ℤ × String) : Prop :=
  p ∈ m.addresses ∧ ∃ a, m.exports p.2 = some a ∧
    (a.source = .state ∨ p.2 = m.machine.name ∧ a.source = .machine ∧ m.IsSwitch)

def Agrees (start : String) (s : State) : Prop :=
  ∀ p, Tracked m p →
    replay (reported (m.refreshModbus start)) (s.sent.map Update.write) (key p.1) =
      reported (m.refreshModbus s.current) (key p.1)

instance (a : Address M) : Decidable (InRange a) := inferInstanceAs (Decidable (_ ∧ _))

/-- The messages of a change tell all that changes, and nothing else. -/
structure Told : Prop where
  states : current ≠ newState → ∀ st, st = current ∨ st = newState →
    ∀ a, m.exports (m.stateName st) = some a → InRange a
  register : m.IsSwitch → ∀ a, m.exports m.machine.name = some a → a.source = .machine →
    m.HasRegister a.index → isOn current = true ∨ isOn newState = true → a.group ≠ .none →
      InRange a → m.properties "VALUE" = some (.integer (if isOn newState then 1 else 0))
  switch : m.IsSwitch → ∀ a, m.exports m.machine.name = some a → a.source = .machine →
    ¬m.HasRegister a.index → isOn current ≠ isOn newState → a.group ≠ .none ∧ InRange a

end Steps

section Keys

variable {m : Exporter F M}

theorem key_injective {i j : ℤ} (h : key i = key j) : i = j := by
  obtain ⟨hgro, hadd⟩ := Prod.mk.inj h
  omega

theorem eq_of_index_eq {p q : ℤ × String} (hp : p ∈ m.addresses) (hq : q ∈ m.addresses)
    (h : p.1 = q.1) : p = q := inj_on_of_nodup_map m.indexed.nodup hp hq h

theorem write_key_iff {n n' : String} {a a' : Address M} (ha : m.exports n = some a)
    (ha' : m.exports n' = some a') :
    (a'.group.number, a'.address) = key a.index ↔ n' = n ∧ InRange a := by
  unfold InRange key
  constructor
  · intro h
    obtain ⟨hgro, hadd⟩ := Prod.mk.inj h
    have hind : a'.index = a.index := by
      unfold Address.index indexOf at hgro hadd ⊢
      omega
    have hnam := eq_of_index_eq (m.indexed.listed n' a' ha') (m.indexed.listed n a ha) hind
    obtain rfl : n' = n := (Prod.mk.inj hnam).2
    obtain rfl := some.inj (ha.symm.trans ha')
    refine ⟨rfl, ?_⟩
    omega
  · rintro ⟨rfl, hran⟩
    obtain rfl := some.inj (ha.symm.trans ha')
    unfold Address.index indexOf
    apply Prod.ext
    · omega
    · omega

theorem stateName_inj {st st' : String} : m.stateName st = m.stateName st' ↔ st = st' := by
  unfold Exporter.stateName
  constructor
  · intro h
    have hlis := congrArg String.toList h
    simp only [String.toList_append] at hlis
    exact String.toList_inj.mp (append_cancel_left hlis)
  · rintro rfl
    rfl

theorem stateName_ne (st : String) : m.stateName st ≠ m.machine.name := by
  intro h
  have hlen := congrArg String.length h
  simp only [Exporter.stateName, String.length_append] at hlen
  have hdot : ".".length = 1 := rfl
  omega

theorem reported_refreshModbus {p : ℤ × String} (hp : p ∈ m.addresses) (current : String) :
    reported (m.refreshModbus current) (key p.1) =
      some (m.itemValue current p.1 p.2 ((m.exports p.2).getD .null).source) := by
  unfold reported
  cases hfin : (m.refreshModbus current).find? fun r => (r.group, r.addr) = key p.1 with
  | none =>
    have hnon := find?_eq_none.mp hfin (m.report current p) (mem_map_of_mem hp)
    exact absurd (decide_eq_true rfl) hnon
  | some r =>
    obtain ⟨q, hq, rfl⟩ := mem_map.mp (mem_of_find?_eq_some hfin)
    have hfou := find?_some hfin
    have hkey : key q.1 = key p.1 := of_decide_eq_true hfou
    obtain rfl := eq_of_index_eq hq hp (key_injective hkey)
    rfl

end Keys

theorem coil_inj {a b : Bool} : (if a then 1 else 0 : Int64) = (if b then 1 else 0) ↔ a = b := by
  cases a <;> cases b <;> decide

section Changes

variable [Double F] {m : Exporter F M} {n : String} {a : Address M} (ha : m.exports n = some a)

include ha

open Update

omit [Double F] in
theorem last_stateUpdates (st : String) (v : Int64) :
    last (key a.index) ((stateUpdates m st v).map write) =
      if m.stateName st = n ∧ InRange a then some (some (.integer v : Value F)) else none := by
  unfold stateUpdates
  cases hst : m.exports (m.stateName st) with
  | none =>
    rw [if_neg]
    · rfl
    · rintro ⟨rfl, _⟩
      rw [hst] at ha
      cases ha
  | some b =>
    show (if (b.group.number, b.address) = key a.index then _ else _) = _
    simp only [write_key_iff ha hst]
    rfl

theorem last_machineUpdates (current newState : String) :
    last (key a.index) ((machineUpdates m current newState).map write) =
      if (n = m.machine.name ∧ a.source = .machine ∧ m.IsSwitch) ∧
          (isOn current = true ∨ isOn newState = true) ∧ a.group ≠ .none ∧ InRange a then
        some (some (.integer (if isOn newState then 1 else 0) : Value F))
      else none := by
  unfold machineUpdates
  by_cases hswi : m.IsSwitch
  swap
  · rw [if_neg hswi, if_neg (fun h => hswi h.1.2.2)]
    rfl
  rw [if_pos hswi]
  cases hnam : m.exports m.machine.name with
  | none =>
    rw [if_neg]
    · rfl
    · rintro ⟨⟨rfl, _⟩, _⟩
      rw [hnam] at ha
      cases ha
  | some b =>
    have hlas (v : Int64) : last (key a.index) [(update b v).write] =
        if m.machine.name = n ∧ InRange a then some (some (.integer v : Value F)) else none := by
      show (if (b.group.number, b.address) = key a.index then _ else _) = _
      simp only [write_key_iff ha hnam]
      rfl
    dsimp only
    by_cases hn : m.machine.name = n
    · subst hn
      obtain rfl := some.inj (ha.symm.trans hnam)
      by_cases hsen : a.source = .machine ∧ a.group ≠ .none
      · rw [if_pos hsen]
        cases hon : isOn newState with
        | true => simp [hlas, hsen, hswi]
        | false =>
          cases isOn current with
          | true => simp [hlas, hsen, hswi]
          | false => simp [last]
      · rw [if_neg hsen, if_neg]
        · rfl
        · rintro ⟨⟨_, hsou, _⟩, _, hgro, _⟩
          exact hsen ⟨hsou, hgro⟩
    · refine Eq.trans ?_ (if_neg fun h => hn h.1.1.symm).symm
      split_ifs
      · exact (hlas 1).trans (if_neg fun h => hn h.1)
      · exact (hlas 0).trans (if_neg fun h => hn h.1)
      · rfl
      · rfl

theorem state_told_iff (hsou : a.source = .state) (current newState : String) :
    (last (key a.index) ((updates m current newState).map write)).getD
        (some (m.stateValue current n)) = some (m.stateValue newState n) ↔
      (current ≠ newState → m.stateName current = n ∨ m.stateName newState = n → InRange a) := by
  have hmac : last (key a.index) ((machineUpdates m current newState).map write) =
      (none : Option (Option (Value F))) := by
    rw [last_machineUpdates ha, if_neg]
    intro h
    cases hsou.symm.trans h.1.2.1
  rw [updates, map_append, map_append, last_append, last_append, hmac,
    last_stateUpdates ha, last_stateUpdates ha]
  unfold Exporter.stateValue
  have hsam : current = newState → (m.stateName current = n ↔ m.stateName newState = n) := by
    rintro rfl
    exact Iff.rfl
  by_cases hcur : m.stateName current = n
  · by_cases hnew : m.stateName newState = n
    · have heq : current = newState := stateName_inj.mp (hcur.trans hnew.symm)
      by_cases hran : InRange a <;> simp [hnew, heq, hran]
    · have hne : current ≠ newState := fun h => hnew ((hsam h).mp hcur)
      by_cases hran : InRange a <;> simp [hcur, hnew, hne, hran]
  · by_cases hnew : m.stateName newState = n
    · have hne : current ≠ newState := fun h => hcur ((hsam h).mpr hnew)
      by_cases hran : InRange a <;> simp [hcur, hnew, hne, hran]
    · simp [hcur, hnew]

theorem machine_told_iff (hnam : n = m.machine.name) (hsou : a.source = .machine)
    (hswi : m.IsSwitch) (current newState : String) :
    (last (key a.index) ((updates m current newState).map write)).getD
        (some (m.machineValue current a.index)) = some (m.machineValue newState a.index) ↔
      (m.HasRegister a.index → isOn current = true ∨ isOn newState = true → a.group ≠ .none →
        InRange a → m.properties "VALUE" = some (.integer (if isOn newState then 1 else 0))) ∧
      (¬m.HasRegister a.index → isOn current ≠ isOn newState → a.group ≠ .none ∧ InRange a) := by
  have hsta (st : String) (v : Int64) :
      last (key a.index) ((stateUpdates m st v).map write) =
        (none : Option (Option (Value F))) := by
    rw [last_stateUpdates ha, if_neg]
    intro h
    exact stateName_ne st (h.1.trans hnam)
  have hvar : ¬m.machine.isVariable = true := by
    intro h
    rw [Exporter.IsSwitch, modbusExported, if_pos h] at hswi
    obtain h | h := hswi <;> cases h
  rw [updates, map_append, map_append, last_append, last_append, hsta, hsta,
    last_machineUpdates ha, none_or, none_or]
  by_cases hreg : m.HasRegister a.index
  · -- the value does not depend on the state
    obtain ⟨v, hv⟩ := isSome_iff_exists.mp hreg.1
    have hval (st : String) : m.machineValue st a.index = v := by
      rw [Exporter.machineValue, if_pos (.inr hreg), hv]
      rfl
    rw [hval, hval, hv]
    by_cases hsen : (isOn current = true ∨ isOn newState = true) ∧ a.group ≠ .none ∧ InRange a
    · rw [if_pos ⟨⟨hnam, hsou, hswi⟩, hsen⟩]
      constructor
      · intro h
        exact ⟨fun _ _ _ _ => h.symm, fun h => absurd hreg h⟩
      · intro h
        exact (h.1 hreg hsen.1 hsen.2.1 hsen.2.2).symm
    · rw [if_neg fun h => hsen h.2]
      exact iff_of_true rfl
        ⟨fun _ hon hgro hran => absurd ⟨hon, hgro, hran⟩ hsen, fun h => absurd hreg h⟩
  · have hval (st : String) :
        m.machineValue st a.index = .integer (if isOn st then 1 else 0) := by
      rw [Exporter.machineValue, if_neg]
      exact fun h => h.elim hvar hreg
    rw [hval, hval]
    by_cases hsen : (isOn current = true ∨ isOn newState = true) ∧ a.group ≠ .none ∧ InRange a
    · rw [if_pos ⟨⟨hnam, hsou, hswi⟩, hsen⟩]
      exact iff_of_true rfl ⟨fun h => absurd h hreg, fun _ _ => hsen.2⟩
    · rw [if_neg fun h => hsen h.2, getD_none, some.injEq, Value.integer.injEq]
      rw [coil_inj]
      constructor
      · intro h
        exact ⟨fun h => absurd h hreg, fun _ hne => absurd h hne⟩
      · -- a change is a change from on or to on, and those are sent
        intro h
        by_contra hne
        have hon : isOn current = true ∨ isOn newState = true := by
          by_contra hoff
          rw [not_or, Bool.not_eq_true, Bool.not_eq_true] at hoff
          exact hne (hoff.1.trans hoff.2.symm)
        exact hsen ⟨hon, h.2 hreg hne⟩

end Changes

section Runs

variable [Double F] {m : Exporter F M} {start : String} {s t : State} {newState : String}

theorem agrees_commit (hagr : Agrees m start s) (hcom : commit m s newState = some t) :
    Asserted m s.current = true ∧ Asserted m newState = true ∧
      (Agrees m start t ↔ ∀ p, Tracked m p →
        (last (key p.1) ((updates m s.current newState).map Update.write)).getD
            (reported (m.refreshModbus s.current) (key p.1)) =
          reported (m.refreshModbus newState) (key p.1)) := by
  unfold commit at hcom
  split_ifs at hcom with hass
  cases hcom
  refine ⟨hass.1, hass.2, ?_⟩
  unfold Agrees
  refine forall₂_congr fun p hp => ?_
  dsimp only
  rw [map_append, replay_append, replay_apply, hagr p hp]

theorem agrees_commit_iff (hagr : Agrees m start s) (hcom : commit m s newState = some t) :
    Agrees m start t ↔ Told m s.current newState := by
  obtain ⟨hcur, hnew, haft⟩ := agrees_commit hagr hcom
  have hval {n : String} {a : Address M} (ha : m.exports n = some a) (st : String) :
      reported (m.refreshModbus st) (key a.index) = some (m.itemValue st a.index n a.source) := by
    rw [reported_refreshModbus (m.indexed.listed n a ha), ha]
    rfl
  rw [haft]
  constructor
  · intro h
    have hmac (hswi : m.IsSwitch) (a : Address M) (ha : m.exports m.machine.name = some a)
        (hsou : a.source = .machine) := by
      have hp := h (a.index, m.machine.name)
        ⟨m.indexed.listed _ a ha, a, ha, .inr ⟨rfl, hsou, hswi⟩⟩
      rw [hval ha, hval ha, hsou] at hp
      exact (machine_told_iff ha rfl hsou hswi _ _).mp hp
    refine ⟨?_, ?_, ?_⟩
    · intro hne st hst a ha
      have hsou : a.source = .state := by
        have hst : Asserted m st = true := by
          obtain rfl | rfl := hst
          · exact hcur
          · exact hnew
        rw [Asserted, ha] at hst
        exact of_decide_eq_true hst
      have hp := h (a.index, m.stateName st) ⟨m.indexed.listed _ a ha, a, ha, .inl hsou⟩
      rw [hval ha, hval ha, hsou] at hp
      apply (state_told_iff ha hsou _ _).mp hp hne
      obtain rfl | rfl := hst
      · exact .inl rfl
      · exact .inr rfl
    · intro hswi a ha hsou
      exact (hmac hswi a ha hsou).1
    · intro hswi a ha hsou
      exact (hmac hswi a ha hsou).2
  · rintro told ⟨i, n⟩ ⟨hp, a, ha, htra⟩
    obtain ⟨b, hb, rfl⟩ := m.indexed.exported _ hp
    obtain rfl := some.inj (ha.symm.trans hb)
    rw [hval ha, hval ha]
    obtain hsou | ⟨hnam, hsou, hswi⟩ := htra
    · rw [hsou]
      refine (state_told_iff ha hsou _ _).mpr fun hne hst => ?_
      obtain rfl | rfl := hst
      · exact told.states hne _ (.inl rfl) a ha
      · exact told.states hne _ (.inr rfl) a ha
    · subst hnam
      rw [hsou]
      exact (machine_told_iff ha rfl hsou hswi _ _).mpr
        ⟨told.register hswi a ha hsou, told.switch hswi a ha hsou⟩

def Pending (m : Exporter F M) (s : State) : Prop :=
  ∀ newState, .leaving newState ∈ s.frames → newState ∈ m.states

theorem Call.mem_of_accepted {c : Call} {states : List String} {current st : String}
    (h : c.accepted states current = some st) : st ∈ states := by
  unfold Call.accepted at h
  split_ifs at h with _ _ _ hmem hpro
  · exact some.inj h ▸ hmem
  · exact some.inj h ▸ hpro

theorem Pending.commit (hpen : Pending m s) (hcom : commit m s newState = some t) :
    Pending m t := by
  unfold ModbusView.commit at hcom
  split_ifs at hcom
  cases hcom
  intro st hst
  obtain hst | hst := mem_cons.mp hst
  · cases hst
  · exact hpen st hst

theorem next_cases (hpen : Pending m s) {e : Event} (h : next m s e = some t) :
    Pending m t ∧ ((t.current = s.current ∧ t.sent = s.sent) ∨
      ∃ newState ∈ m.states, ∃ frames, commit m { s with frames } newState = some t) := by
  cases e with
  | call c =>
    rw [next] at h
    cases hacc : c.accepted m.states s.current with
    | none =>
      rw [hacc] at h
      cases h
      exact ⟨hpen, .inl ⟨rfl, rfl⟩⟩
    | some st =>
      have hst := Call.mem_of_accepted hacc
      simp only [hacc] at h
      split_ifs at h
      · cases h
        refine ⟨fun st' hst' => ?_, .inl ⟨rfl, rfl⟩⟩
        obtain hst' | hst' := mem_cons.mp hst'
        · exact Frame.leaving.inj hst' ▸ hst
        · exact hpen st' hst'
      · exact ⟨hpen.commit h, .inr ⟨st, hst, s.frames, h⟩⟩
  | left =>
    obtain ⟨current, frames, sent⟩ := s
    cases frames with
    | nil => cases h
    | cons frame frames =>
      cases frame with
      | entering => cases h
      | leaving st =>
        have hres : Pending m ⟨current, frames, sent⟩ :=
          fun st' hst' => hpen st' (mem_cons_of_mem _ hst')
        exact ⟨hres.commit h, .inr ⟨st, hpen st mem_cons_self, frames, h⟩⟩
  | entered =>
    obtain ⟨current, frames, sent⟩ := s
    cases frames with
    | nil => cases h
    | cons frame frames =>
      cases frame with
      | leaving st => cases h
      | entering =>
        cases h
        exact ⟨fun st' hst' => hpen st' (mem_cons_of_mem _ hst'), .inl ⟨rfl, rfl⟩⟩

def plainCall (newState : String) : Call := ⟨newState, 0, 0, true, false, ""⟩

theorem next_plainCall (hmem : newState ∈ m.states) :
    next m s (.call (plainCall newState)) = commit m s newState := by
  simp [next, plainCall, Call.accepted, hmem]

/-- The messages of `setState` keep the values of a client up to date, whatever calls the handlers
make, exactly if the messages of each single change tell all that changes. -/
theorem agrees_iff (m : Exporter F M) :
    (∀ start events s, Run (fun s e t => next m s e = some t) ⟨start, [], []⟩ events s →
        s.frames = [] → Agrees m start s) ↔
      ∀ current, ∀ newState ∈ m.states, Asserted m current → Asserted m newState →
        Told m current newState := by
  constructor
  · intro h current newState hmem hcur hnew
    have hcom : commit m ⟨current, [], []⟩ newState =
        some ⟨newState, [.entering], updates m current newState⟩ := if_pos ⟨hcur, hnew⟩
    have hagr : Agrees m current ⟨current, [], []⟩ := fun _ _ => rfl
    have hrun : Run (fun s e t => next m s e = some t) ⟨current, [], []⟩
        [.call (plainCall newState), .entered] ⟨newState, [], updates m current newState⟩ :=
      .cons ((next_plainCall hmem).trans hcom) (.cons rfl (.nil _))
    have hend : Agrees m current ⟨newState, [], updates m current newState⟩ := h _ _ _ hrun rfl
    exact (agrees_commit_iff hagr hcom).mp hend
  · intro told start events s hrun _
    have hste : ∀ s e t, Pending m s ∧ Agrees m start s → next m s e = some t →
        Pending m t ∧ Agrees m start t := by
      rintro s e t ⟨hpen, hagr⟩ hnex
      obtain ⟨hpen', ⟨hcur, hsen⟩ | ⟨newState, hmem, frames, hcom⟩⟩ :=
        next_cases hpen hnex
      · refine ⟨hpen', ?_⟩
        unfold Agrees
        rw [hcur, hsen]
        exact hagr
      · have hagr' : Agrees m start { s with frames } := hagr
        obtain ⟨hcur, hnew, _⟩ := agrees_commit hagr' hcom
        exact ⟨hpen', (agrees_commit_iff hagr' hcom).mpr (told s.current newState hmem hcur hnew)⟩
    have hsta : Pending m ⟨start, [], []⟩ ∧ Agrees m start ⟨start, [], []⟩ :=
      ⟨fun _ h => (by cases h), fun _ _ => rfl⟩
    exact (hrun.invariant hste hsta).2

end Runs

def Exporter.ofSetup [DecidableEq M] [Double F] {lines : List (String × Line)}
    {machines : M → Machine F} {xs : List M} {r : Registry M}
    (hsetup : setupAll lines machines xs = some r) (x : M) (states : List String)
    (properties : String → Option (Value F)) (lookup : String → Option (Other F)) :
    Exporter F M where
  machine := machines x
  states := states
  exports name := r.state.modbusExports (x, name)
  addresses := r.modbusAddresses x
  indexed := allIndexed_setupAll lines machines hsetup x
  properties := properties
  lookup := lookup

/-- The mapping of a discrete to 40000 is kept as a `short`. -/
def lampLines : List (String × Line) := [("lamp.busy", ⟨1, 40000, 1⟩)]

def lamp : Machine ℚ where
  name := "lamp"
  owners := []
  type := "LAMP"
  exported := none
  pointType := .empty
  strlen := .empty
  stateExports := ["busy"]
  stateExportsRw := []
  commandExports := []
  exports := []

def lampExporter : Exporter ℚ Unit :=
  .ofSetup (Option.some_get (rfl : (setupAll lampLines (fun _ : Unit => lamp) [()]).isSome)).symm ()
    ["idle", "busy"] (fun _ => none) fun _ => none

/-- The message has the address -25536 in group 1, the snapshot 40000 in group 0. -/
theorem busy_not_seen : ∃ s, Run (fun s e t => next lampExporter s e = some t) ⟨"idle", [], []⟩
        [.call ⟨"busy", 0, 0, false, true, ""⟩, .left, .entered] s ∧
      s.frames = [] ∧ ¬Agrees lampExporter "idle" s := by
  refine ⟨⟨"busy", [], [⟨.discrete, -25536, "lamp.busy", 1, 1⟩]⟩, run_of_execute (by decide), rfl,
    ?_⟩
  intro h
  have hsee := h (40000, "lamp.busy") ⟨by decide, _, rfl, .inl rfl⟩
  cases hsee

end Clockwork.ModbusView
