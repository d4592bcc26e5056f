import Clockwork.ModbusAllocation
import Clockwork.Value

namespace Clockwork.ModbusExports

open ModbusAddress List Option Function

variable {F M : Type}

structure Template where
  propertyName : String
  group : Group
  exportType : ExportType
  size : ℕ
deriving DecidableEq, Repr

structure Machine (F : Type) where
  name : String
  owners : List String
  type : String
  exported : Option (Value F)
  pointType : Value F
  strlen : Value F
  stateExports : List String
  stateExportsRw : List String
  commandExports : List String
  exports : List Template

/-- What stands behind an address; `value` is the `VALUE` of a variable or constant. -/
inductive Item where
  | machine
  | state (name : String)
  | command (name : String)
  | value
  | property (name : String)
deriving DecidableEq, Repr

def Item.source : Item → Source
  | .machine => .machine
  | .state _ => .state
  | .command _ => .command
  | .value => .property
  | .property _ => .property

structure Export where
  item : Item
  group : Group
  n : ℕ
  kind : ExportType
deriving DecidableEq, Repr

def propertyExport (item : Item) (group : Group) (kind : ExportType) (size : ℕ) : Option Export :=
  match group with
  | .discrete => some ⟨item, .discrete, size, kind⟩
  | .coil => some ⟨item, .coil, size, kind⟩
  | .inputRegister => some ⟨item, .inputRegister, size, kind⟩
  | .holdingRegister => some ⟨item, .holdingRegister, size, kind⟩
  | .string => some ⟨item, .inputRegister, size, kind⟩
  | .none => none

namespace Machine

variable (m : Machine F)

def fullName : String := m.owners.foldl (fun res owner => owner ++ "." ++ res) m.name

def itemName : Item → String
  | .machine => m.name
  | .state s => m.name ++ "." ++ s
  | .command s => m.name ++ "." ++ s
  | .value => m.name
  | .property p => if m.name ≠ p then m.name ++ "." ++ p else p

/-- The name in the address. For properties only the direct owner is part of it. -/
def itemFullName : Item → String
  | .machine => m.fullName
  | .state s => m.fullName ++ "." ++ s
  | .command s => m.fullName ++ "." ++ s
  | .value => (m.owners.head?.map (· ++ ".")).getD "" ++ m.itemName .value
  | .property p => (m.owners.head?.map (· ++ ".")).getD "" ++ m.itemName (.property p)

def isVariable : Bool := m.type = "VARIABLE" || m.type = "CONSTANT"

variable [Double F]

/-- The group for `self_coil`, `self_discrete`, `self_reg` and `self_rwreg`, and the
`export_type`. -/
def selfExport : Option (Group × ExportType) :=
  m.exported.bind fun v =>
    if v.ne (.ofString "false") then
      if m.type = "POINT" then
        if m.pointType.isNull then none
        else if m.pointType.eq (.ofString "Input") then some (.discrete, .discrete)
        else if m.pointType.eq (.ofString "Output") then
          if v.eq (.ofString "rw") then some (.coil, .coil) else some (.discrete, .coil)
        else if m.pointType.eq (.ofString "AnalogueInput") then some (.inputRegister, .reg)
        else if m.pointType.eq (.ofString "AnalogueOutput") then
          if v.eq (.ofString "rw") then some (.holdingRegister, .rwReg)
          else some (.inputRegister, .reg)
        else none
      else if v.eq (.ofString "rw") then some (.coil, .coil)
      else if v.eq (.ofString "reg") then some (.inputRegister, .reg)
      else if v.eq (.ofString "rw_reg") then some (.holdingRegister, .rwReg)
      else if v.eq (.ofString "reg32") then some (.inputRegister, .reg32)
      else if v.eq (.ofString "rw_reg32") then some (.holdingRegister, .rwReg32)
      else if v.eq (.ofString "float32") then some (.holdingRegister, .float32)
      else if v.eq (.ofString "str") then some (.inputRegister, .str)
      else if v.eq (.ofString "rw_str") then some (.holdingRegister, .str)
      else some (.discrete, .discrete)
    else none

def strLength : Int64 := (m.strlen.asIntegerInto 0).2

/-- The export of the machine itself. A string has one register if a length is given. -/
def machineExport : Option Export :=
  if m.isVariable then none
  else
    m.selfExport.map fun x =>
      match x.2 with
      | .reg32 => ⟨.machine, x.1, 2, x.2⟩
      | .rwReg32 => ⟨.machine, x.1, 2, x.2⟩
      | .str => ⟨.machine, x.1, if m.strLength = 0 then 80 else 1, x.2⟩
      | _ => ⟨.machine, x.1, 1, x.2⟩

def valueExport : Option Export :=
  if m.isVariable then
    m.selfExport.bind fun x =>
      match x.2 with
      | .none => none
      | .discrete => propertyExport .value .discrete .discrete 1
      | .coil => propertyExport .value .coil .coil 1
      | .reg => propertyExport .value .inputRegister .reg 1
      | .rwReg => propertyExport .value .holdingRegister .rwReg 1
      | .reg32 => propertyExport .value .inputRegister .reg32 2
      | .rwReg32 => propertyExport .value .holdingRegister .rwReg32 2
      | .float32 => propertyExport .value .holdingRegister .float32 2
      | .str =>
        propertyExport .value (if x.1 = .inputRegister then .inputRegister else .holdingRegister)
          .str (m.strLength.toInt % 4294967296).toNat
  else none

def exportList : List Export :=
  m.machineExport.toList
    ++ m.stateExports.map (fun s => ⟨.state s, .discrete, 1, .discrete⟩)
    ++ m.stateExportsRw.map (fun s => ⟨.state s, .coil, 1, .discrete⟩)
    ++ m.commandExports.map (fun s => ⟨.command s, .coil, 1, .discrete⟩)
    ++ m.valueExport.toList
    ++ m.exports.filterMap fun t =>
      propertyExport (.property t.propertyName) t.group t.exportType t.size

end Machine

structure Registration (M : Type) where
  machine : M
  item : Item
  address : Address M
deriving DecidableEq, Repr

structure Registry (M : Type) where
  state : State M
  modbusAddresses : M → List (ℤ × String)
  entries : List (Registration M)

def Registry.load (lines : List (String × Line)) : Registry M :=
  ⟨ModbusAddress.load lines, fun _ => [], []⟩

def Export.call (x : M) (m : Machine F) (e : Export) : Call M :=
  ⟨x, m.itemName e.item, e.group, e.n, x, e.kind, e.item.source, m.itemFullName e.item⟩

variable [DecidableEq M]

def Registry.register (preset : Mapping) (machines : M → Machine F) (x : M) (r : Registry M)
    (e : Export) : Registry M :=
  let call := e.call x (machines x)
  let state := addModbusExport preset r.state call
  { r with
    state
    entries := r.entries ++ [⟨x, e.item, (state.modbusExports call.key).getD .null⟩] }

/-- The loop over `modbus_exports`, which asserts that no index is used twice. -/
def indexExports (exports : String → Option (Address M)) :
    List String → List (ℤ × String) → Option (List (ℤ × String))
  | [], addresses => some addresses
  | name :: names, addresses =>
    match exports name with
    | none => indexExports exports names addresses
    | some a =>
      if (addresses.lookup a.index).isSome then none
      else indexExports exports names (addresses ++ [(a.index, name)])

omit [DecidableEq M] in
theorem indexExports_spec {exports : String → Option (Address M)} {names : List String}
    {addresses out : List (ℤ × String)} (h : indexExports exports names addresses = some out)
    (hexp : ∀ p ∈ addresses, ∃ a, exports p.2 = some a ∧ a.index = p.1)
    (hnod : (addresses.map Prod.fst).Nodup) :
    addresses ⊆ out ∧ (∀ name ∈ names, ∀ a, exports name = some a → (a.index, name) ∈ out) ∧
      (∀ p ∈ out, ∃ a, exports p.2 = some a ∧ a.index = p.1) ∧ (out.map Prod.fst).Nodup := by
  induction names generalizing addresses with
  | nil =>
    cases h
    exact ⟨List.Subset.refl _, by simp, hexp, hnod⟩
  | cons name names ih =>
    rw [indexExports] at h
    cases hnam : exports name with
    | none =>
      simp only [hnam] at h
      obtain ⟨hsub, hnae, hout⟩ := ih h hexp hnod
      refine ⟨hsub, ?_, hout⟩
      intro n hn a ha
      obtain rfl | hn := mem_cons.mp hn
      · rw [hnam] at ha
        cases ha
      · exact hnae n hn a ha
    | some b =>
      simp only [hnam] at h
      split_ifs at h with hfre
      have hnew : b.index ∉ addresses.map Prod.fst := by
        have hloo := lookup_eq_none_iff.mp (not_isSome_iff_eq_none.mp hfre)
        intro hmem
        obtain ⟨p, hp, heq⟩ := mem_map.mp hmem
        simpa [heq] using hloo p hp
      obtain ⟨hsub, hnae, hout⟩ := ih h
        (fun p hp => by
          obtain hp | hp := mem_append.mp hp
          · exact hexp p hp
          · obtain rfl := mem_singleton.mp hp
            exact ⟨b, hnam, rfl⟩)
        (by
          rw [map_append, nodup_append]
          refine ⟨hnod, by simp, ?_⟩
          rintro i hi j hj rfl
          obtain rfl : i = b.index := by simpa using hj
          exact hnew hi)
      refine ⟨List.Subset.trans (subset_append_left _ _) hsub, ?_, hout⟩
      intro n hn a ha
      obtain rfl | hn := mem_cons.mp hn
      · obtain rfl := some.inj (hnam.symm.trans ha)
        exact hsub (mem_append_right _ (mem_singleton.mpr rfl))
      · exact hnae n hn a ha

theorem modbusAddresses_foldl (preset : Mapping) (machines : M → Machine F) (x : M)
    (exports : List Export) (r : Registry M) :
    (exports.foldl (Registry.register preset machines x) r).modbusAddresses =
      r.modbusAddresses := by
  induction exports generalizing r with
  | nil => rfl
  | cons e exports ih => exact ih _

variable [Double F] (lines : List (String × Line)) (machines : M → Machine F)

/-- `setupModbusInterface`; none if an assertion fails. -/
def setupModbusInterface (r : Registry M) (x : M) : Option (Registry M) :=
  if r.modbusAddresses x ≠ [] then some r
  else
    let exports := (machines x).exportList
    let r := exports.foldl (Registry.register (mapping lines) machines x) r
    let names := (exports.map fun e => (machines x).itemName e.item).eraseDups
    (indexExports (fun name => r.state.modbusExports (x, name)) names []).map fun addresses =>
      { r with modbusAddresses := Function.update r.modbusAddresses x addresses }

def setupAll (xs : List M) : Option (Registry M) :=
  xs.foldlM (setupModbusInterface lines machines) (.load lines)

def Registration.Named (e : Registration M) : Prop :=
  e.address = .null ∨
    e.address.source = e.item.source ∧ e.address.name = (machines e.machine).itemFullName e.item ∧
      e.address.owner = some e.machine

/-- The exports of a machine are entries, and an address is found at its own index. -/
structure Registered (r : Registry M) : Prop where
  mapped : ∀ i a, r.state.find i = some a → a.index = i
  entry : ∀ x name a, r.state.modbusExports (x, name) = some a →
    ∃ e ∈ r.entries, e.machine = x ∧ (machines x).itemName e.item = name ∧ e.address = a
  named : ∀ e ∈ r.entries, e.Named machines

omit [DecidableEq M] [Double F] in
theorem registered_load : Registered machines (.load lines : Registry M) :=
  ⟨fun _ _ h => (by cases h), fun _ _ _ h => (by cases h), fun _ h => by cases h⟩

omit [DecidableEq M] in
theorem index_of_find_record {w : State M} (h : ∀ i a, w.find i = some a → a.index = i)
    (b : Address M) {i : ℤ} {a : Address M} (ha : (w.record b).find i = some a) : a.index = i := by
  by_cases hi : i = b.index
  · subst hi
    by_cases hlow : b.address < firstAutoAddress
    · rw [State.find_record_user w hlow] at ha
      cases haut : w.automaticMappings b.index with
      | none =>
        rw [haut] at ha
        exact some.inj ha ▸ rfl
      | some c =>
        rw [haut] at ha
        apply h
        rw [State.find, haut]
        exact ha
    · rw [State.find_record_automatic w (not_lt.mp hlow)] at ha
      exact some.inj ha ▸ rfl
  · rw [State.find_record_of_ne w hi] at ha
    exact h i a ha

theorem index_of_find_addModbusExport {w : State M} (h : ∀ i a, w.find i = some a → a.index = i)
    (preset : Mapping) (c : Call M) {i : ℤ} {a : Address M}
    (ha : (addModbusExport preset w c).find i = some a) : a.index = i := by
  obtain ⟨d, _, heq⟩ | ⟨_, _, heq⟩ | ⟨counter, _, _, _, heq⟩ := addModbusExport_cases preset w c
  · rw [heq] at ha
    exact index_of_find_record h _ ha
  · rw [heq] at ha
    exact h i a ha
  · rw [heq] at ha
    have hnex : ∀ i a, State.find { w with next := afterAlloc w.next counter c.n } i = some a →
        a.index = i := h
    exact index_of_find_record hnex _ ha

variable {r t : Registry M} {xs : List M} (preset : Mapping)

theorem modbusExports_addModbusExport (w : State M) (c : Call M) :
    ∃ a : Address M, (addModbusExport preset w c).modbusExports =
        update w.modbusExports c.key (some a) ∧
      (a = .null ∨ a.source = c.source ∧ a.name = c.fullName ∧
        (a.owner = some c.owner ∨ a.owner = some c.machine)) := by
  obtain ⟨d, _, h⟩ | ⟨_, _, h⟩ | ⟨counter, _, _, _, h⟩ := addModbusExport_cases preset w c
  · exact ⟨c.preset d, by rw [h, modbusExports_addExport, modbusExports_record],
      .inr ⟨rfl, rfl, .inl rfl⟩⟩
  · exact ⟨.null, by rw [h, modbusExports_addExport], .inl rfl⟩
  · exact ⟨c.automatic (w.next counter),
      by rw [h, modbusExports_addExport, modbusExports_record], .inr ⟨rfl, rfl, .inr rfl⟩⟩

section

variable (h : Registered machines r)

include h

omit [Double F] in
theorem Registered.register (preset : Mapping) (x : M) (e : Export) :
    Registered machines (r.register preset machines x e) := by
  obtain ⟨a, hexp, hnam⟩ :=
    modbusExports_addModbusExport preset r.state (e.call x (machines x))
  have hnew : r.register preset machines x e =
      { r with
        state := addModbusExport preset r.state (e.call x (machines x))
        entries := r.entries ++ [⟨x, e.item, a⟩] } := by
    unfold Registry.register
    simp [hexp]
  rw [hnew]
  refine ⟨fun i b hb => index_of_find_addModbusExport h.mapped _ _ hb, ?_, ?_⟩
  · intro y name b hb
    rw [hexp, update_apply] at hb
    split_ifs at hb with hkey
    · cases hkey
      exact ⟨_, mem_append_right _ (mem_singleton.mpr rfl), rfl, rfl, some.inj hb⟩
    · obtain ⟨e', he', hent⟩ := h.entry y name b hb
      exact ⟨e', mem_append_left _ he', hent⟩
  · intro e' he'
    obtain he' | he' := mem_append.mp he'
    · exact h.named e' he'
    · obtain rfl := mem_singleton.mp he'
      exact hnam.imp_right fun ⟨hsou, hfull, hown⟩ => ⟨hsou, hfull, hown.elim id id⟩

omit [Double F] in
theorem Registered.foldl (preset : Mapping) (x : M) (exports : List Export) :
    Registered machines (exports.foldl (Registry.register preset machines x) r) :=
  foldlRecOn exports _ h fun _ h e _ => h.register machines preset x e

theorem Registered.setup {x : M}
    (hset : setupModbusInterface lines machines r x = some t) : Registered machines t := by
  unfold setupModbusInterface at hset
  split_ifs at hset with hdon
  · exact some.inj hset ▸ h
  · obtain ⟨addresses, _, rfl⟩ := map_eq_some_iff.mp hset
    have hr := h.foldl machines (mapping lines) x (machines x).exportList
    exact ⟨hr.mapped, hr.entry, hr.named⟩

end

variable {lines machines} in
theorem setupAll_induction {P : Registry M → Prop} (hloa : P (.load lines))
    (hste : ∀ r x t, P r → setupModbusInterface lines machines r x = some t → P t)
    (hset : setupAll lines machines xs = some t) : P t := by
  unfold setupAll at hset
  generalize Registry.load lines = r at hloa hset
  induction xs generalizing r with
  | nil => exact some.inj hset ▸ hloa
  | cons x xs ih =>
    obtain ⟨u, hu, ht⟩ := bind_eq_some_iff.mp hset
    exact ih u (hste r x u hloa hu) ht

theorem registered_setupAll (hset : setupAll lines machines xs = some t) : Registered machines t :=
  setupAll_induction (registered_load lines machines)
    (fun _ _ _ hr h => hr.setup lines machines h) hset

structure Indexed (exports : String → Option (Address M)) (addresses : List (ℤ × String)) :
    Prop where
  listed : ∀ name a, exports name = some a → (a.index, name) ∈ addresses
  exported : ∀ p ∈ addresses, ∃ a, exports p.2 = some a ∧ a.index = p.1
  nodup : (addresses.map Prod.fst).Nodup

omit [Double F] in
theorem modbusExports_foldl (x : M) (exports : List Export) (r : Registry M) (y : M)
    (name : String) :
    (exports.foldl (Registry.register preset machines x) r).state.modbusExports (y, name) =
        r.state.modbusExports (y, name) ∨
      y = x ∧ name ∈ exports.map fun e => (machines x).itemName e.item := by
  induction exports generalizing r with
  | nil => exact .inl rfl
  | cons e exports ih =>
    obtain h | ⟨hy, hnam⟩ := ih (r.register preset machines x e)
    · obtain ⟨a, hexp, _⟩ :=
        modbusExports_addModbusExport preset r.state (e.call x (machines x))
      rw [foldl_cons, h]
      show (addModbusExport preset r.state (e.call x (machines x))).modbusExports (y, name) = _ ∨ _
      rw [hexp, update_apply]
      split_ifs with hkey
      · cases hkey
        exact .inr ⟨rfl, mem_cons_self⟩
      · exact .inl rfl
    · exact .inr ⟨hy, mem_cons_of_mem _ hnam⟩

def AllIndexed (r : Registry M) : Prop :=
  ∀ y, Indexed (fun name => r.state.modbusExports (y, name)) (r.modbusAddresses y)

theorem AllIndexed.setup (h : AllIndexed r) {x : M}
    (hset : setupModbusInterface lines machines r x = some t) : AllIndexed t := by
  unfold setupModbusInterface at hset
  split_ifs at hset with hdon
  · exact some.inj hset ▸ h
  · obtain ⟨addresses, hadd, rfl⟩ := map_eq_some_iff.mp hset
    have hexp := modbusExports_foldl machines (mapping lines) x (machines x).exportList r
    intro y
    by_cases hy : y = x
    · subst hy
      obtain ⟨_, hnam, hexo, hnod⟩ := indexExports_spec hadd (by simp) (by simp)
      dsimp only
      rw [update_self]
      refine ⟨?_, hexo, hnod⟩
      intro name a ha
      -- the machine had no exports before
      have hnew : r.state.modbusExports (y, name) = none := by
        by_contra hsom
        obtain ⟨b, hb⟩ := ne_none_iff_exists'.mp hsom
        have hlis := (h y).listed name b hb
        rw [not_not.mp hdon] at hlis
        cases hlis
      obtain hsam | ⟨_, hnae⟩ := hexp y name
      · rw [hsam, hnew] at ha
        cases ha
      · exact hnam name (mem_eraseDups.mpr hnae) a ha
    · dsimp only
      rw [update_of_ne hy, modbusAddresses_foldl]
      have hsam : (fun name => ((machines x).exportList.foldl
          (Registry.register (mapping lines) machines x) r).state.modbusExports (y, name)) =
            fun name => r.state.modbusExports (y, name) := by
        funext name
        exact (hexp y name).resolve_right fun h => hy h.1
      rw [hsam]
      exact h y

omit [DecidableEq M] in
theorem allIndexed_load : AllIndexed (.load lines : Registry M) :=
  fun _ => ⟨fun _ _ h => (by cases h), fun _ h => (by cases h), nodup_nil⟩

theorem allIndexed_setupAll (hset : setupAll lines machines xs = some t) : AllIndexed t :=
  setupAll_induction (allIndexed_load lines) (fun _ _ _ hr h => hr.setup lines machines h) hset

end Clockwork.ModbusExports
