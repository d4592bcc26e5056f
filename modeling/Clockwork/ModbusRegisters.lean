import Clockwork.ModbusCommand
import Mathlib.Data.List.Nodup

namespace Clockwork.ModbusCommand

open List Option ModbusAddress ModbusExports

variable {F M : Type} [DecidableEq M] [Double F]

/-- A command for the register at the offset finds the export, passes the assertion, and reaches
the item in the tables of the owner. -/
structure Accepted (prog : Program F M) (r : Registry M) (e : Registration M) (offset : ℤ) :
    Prop where
  found : r.state.find (e.address.index + offset) = some e.address
  owner : e.address.owner = some e.machine
  executed : ∀ depth s (command group address value : Value F) v,
    group.asInteger.map Int64.toInt = some e.address.group.number →
    address.asInteger.map Int64.toInt = some (e.address.address + offset) →
    payload prog value = some v →
    ∃ s', run prog depth r [command, group, address, value] s = some (.ok s')
  listed : itemAt r e.machine (e.address.index + offset) =
    some ((prog.machines e.machine).itemName e.item, e.address)

/-- All registers of an export are accepted exactly if it has at most one, and no other export has
taken its index or its name: the address that is found is never that of a register before. -/
theorem accepted_iff (lines : List (String × Line)) (prog : Program F M) (xs : List M)
    {r : Registry M} (hsetup : setupAll lines prog.machines xs = some r) :
    ∀ e ∈ r.entries, e.address.group = .holdingRegister →
    ((∀ i : ℕ, (i : ℤ) < e.address.allocated → Accepted prog r e i) ↔
      e.address.allocated ≤ 0 ∨ e.address.allocated = 1 ∧
        r.state.find e.address.index = some e.address ∧
        r.state.modbusExports (e.machine, (prog.machines e.machine).itemName e.item) =
          some e.address) := by
  intro e he hgroup
  have hr := registered_setupAll lines prog.machines hsetup
  constructor
  · intro h
    by_cases hle : e.address.allocated ≤ 0
    · exact .inl hle
    have hone : e.address.allocated = 1 := by
      by_contra hne
      have hind := hr.mapped _ _ (h 1 (by omega)).found
      omega
    obtain ⟨hfin, -, -, hlis⟩ := h 0 (by omega)
    rw [Nat.cast_zero, Int.add_zero] at hfin hlis
    obtain ⟨name, -, hexp⟩ := bind_eq_some_iff.mp hlis
    obtain ⟨a, ha, heq⟩ := map_eq_some_iff.mp hexp
    obtain ⟨rfl, rfl⟩ := Prod.mk.inj heq
    exact .inr ⟨hone, hfin, ha⟩
  · rintro (hle | ⟨hone, hfin, hexp⟩) i hi
    · omega
    obtain rfl : i = 0 := by omega
    obtain ⟨-, -, hown⟩ : e.address.source = e.item.source ∧ _ := (hr.named e he).resolve_left
      fun hnul => by simp [hnul, Address.null] at hgroup
    have hind := allIndexed_setupAll lines prog.machines hsetup e.machine
    have hlis : itemAt r e.machine e.address.index =
        some ((prog.machines e.machine).itemName e.item, e.address) := by
      have hmem := hind.listed _ _ hexp
      cases hloo : (r.modbusAddresses e.machine).lookup e.address.index with
      | none => simpa using lookup_eq_none_iff.mp hloo _ hmem
      | some name =>
        obtain ⟨l, l', heq, -⟩ := lookup_eq_some_iff.mp hloo
        have hmem' : (e.address.index, name) ∈ r.modbusAddresses e.machine := by simp [heq]
        obtain ⟨-, rfl⟩ := Prod.mk.inj (inj_on_of_nodup_map hind.nodup hmem' hmem rfl)
        simp [itemAt, hloo, hexp]
    rw [← Int.add_zero e.address.index] at hfin hlis
    refine ⟨hfin, hown, fun depth s command group address value v hg ha hv => ?_, hlis⟩
    obtain ⟨g, hg, hnum⟩ := map_eq_some_iff.mp hg
    obtain ⟨n, hn, hadd⟩ := map_eq_some_iff.mp ha
    rw [Nat.cast_zero, Int.add_zero] at hadd
    have hind : g.toInt * 65536 + n.toInt = e.address.index + 0 := by
      rw [hnum, hadd, Int.add_zero]
      rfl
    simp only [run, hg, hn, hind, hfin, getD_some]
    simp [hgroup, hown, hadd, hv]

def settingProgram (kind : String) : Program ℚ Unit :=
  { pumpProgram with
    machines := fun _ => { pump with type := "VARIABLE", exported := some (.ofString kind) }
    name_eq := fun _ => rfl }

def settingEntry (kind : ExportType) (n : ℤ) : Registration Unit :=
  ⟨(), .value, ⟨.holdingRegister, 1000, n, kind, .property, some (), "pump"⟩⟩

theorem one_register_accepted :
    ∃ r, setupAll [] (settingProgram "rw_reg").machines [()] = some r ∧
      settingEntry .rwReg 1 ∈ r.entries ∧
      Accepted (settingProgram "rw_reg") r (settingEntry .rwReg 1) 0 := by
  refine ⟨_, rfl, by decide, ?_⟩
  exact (accepted_iff [] (settingProgram "rw_reg") [()] rfl (settingEntry .rwReg 1) (by decide)
    rfl).mpr (.inr ⟨rfl, rfl, rfl⟩) 0 (by decide)

/-- The second register of a number is not found, and the first one alone is the value. -/
theorem second_register_refused :
    ∃ r s, setupAll [] (settingProgram "rw_reg32").machines [()] = some r ∧
      settingEntry .rwReg32 2 ∈ r.entries ∧
      run (settingProgram "rw_reg32") 2 r [.ofString "MODBUS", .integer 4, .integer 1000,
        .integer 1] pumpSystem = some (.ok s) ∧
      run (settingProgram "rw_reg32") 2 r [.ofString "MODBUS", .integer 4, .integer 1001,
        .integer 2] s = some (.error .notFound) ∧
      (s.instances ()).properties "VALUE" = .integer 1 ∧
      ¬Accepted (settingProgram "rw_reg32") r (settingEntry .rwReg32 2) 1 := by
  refine ⟨_, _, rfl, by decide, rfl, rfl, rfl, ?_⟩
  intro h
  cases h.found

end Clockwork.ModbusCommand
