import Clockwork.Parameter
import Clockwork.StateEntry
import Mathlib.Tactic.Ring

namespace Clockwork.ListBits

open List Nat

open MachineCommand (Status)

variable {F M W : Type}

/-- The machines in a world that their handlers can change, and a list. -/
structure System (F M W : Type) where
  machine : M → StateEntry.Machine F W
  isList : W → Bool
  parameters : W → List (Parameter F M)
  getValue : W → String → Value F
  /-- the conversion from `double` to `unsigned long` -/
  toUnsigned : F → UInt64

namespace System

variable (sys : System F M W) [Double F]

/-- The entries below an index get the lowest bits, from the last one down. A handler may have
taken the entry out of the list, and then the access has no defined effect. -/
def setListEntries : ℕ → UInt64 → W → Option W
  | 0, _, w => some w
  | i + 1, bitmap, w =>
    match (sys.parameters w)[i]? with
    | none => none
    | some p =>
      setListEntries i (bitmap / 2)
        (p.machine.elim w fun m =>
          ((sys.machine m).setState w (if bitmap % 2 = 1 then "on" else "off") 0 false).2)

def bitmap (w : W) : Value F → Option UInt64
  | .integer i => some i.toUInt64
  | .float x => some (sys.toUnsigned x)
  | .symbol s _ => (sys.getValue w s).asInteger.map Int64.toUInt64
  | _ => none

def run (w : W) (source : Value F) : Option (Status × W) :=
  if sys.isList w then
    match sys.bitmap w source with
    | none => some (.complete, w)
    | some b => (sys.setListEntries (sys.parameters w).length b w).map (.complete, ·)
  else some (.failed, w)

def truth : Value F → Bool
  | .bool b => b
  | .integer i => i ≠ 0
  | .float x => Double.ne x Double.zero
  | .string s | .symbol s _ => s = "true" ∨ s = "TRUE"
  | .empty => false

def entryBit (state : String) (w : W) (p : Parameter F M) : Bool :=
  p.machine.elim (truth p.val) fun m => state = ((sys.machine m).view w).currentState

def bitset (state : String) (w : W) : Value F :=
  .integer ((sys.parameters w).foldl
    (fun val p => val * 2 + if sys.entryBit state w p then 1 else 0) (0 : UInt64)).toInt64

/-- The machines have the states `on` and `off` and need no authority. Their handlers, and those
of the machines that depend on them, change neither their states nor the list. -/
structure Calm (ms : List M) : Prop where
  authority : ∀ m ∈ ms, ∀ w, (sys.machine m).expectedAuthority w = 0
  states : ∀ m ∈ ms, "on" ∈ (sys.machine m).states ∧ "off" ∈ (sys.machine m).states
  undisturbed : ∀ m ∈ ms, (sys.machine m).Undisturbed
  others : ∀ m ∈ ms, ∀ x ∈ ms, x ≠ m → (sys.machine m).Keeps (sys.machine x).view
  list : ∀ m ∈ ms, (sys.machine m).Keeps sys.parameters

variable {sys} {ms : List M} {w : W}

theorem Calm.currentState_setState (h : sys.Calm ms) {m : M} (hm : m ∈ ms) (on : Bool) :
    ((sys.machine m).view ((sys.machine m).setState w
      (if on then "on" else "off") 0 false).2).currentState = if on then "on" else "off" := by
  have hsta : (if on then "on" else "off") ∈ (sys.machine m).states := by
    cases on
    · exact (h.states m hm).2
    · exact (h.states m hm).1
  generalize (if on then "on" else "off") = st at hsta ⊢
  cases hent : (sys.machine m).entered w st 0 false with
  | none =>
    rw [(sys.machine m).setState_of_not_entered hent]
    by_contra hne
    simp [StateEntry.Machine.entered, h.authority m hm, hsta, hne] at hent
  | some st' =>
    rw [(h.undisturbed m hm).view_of_entered hent]
    simp only [StateEntry.Machine.entered, h.authority m hm, hsta] at hent
    all_goals simp_all

/-- The entries below the index get the bits, the lowest one last; those above it stay as they
are. -/
theorem Calm.setListEntries (h : sys.Calm ms) (hnod : ms.Nodup) (i : ℕ) (hi : i ≤ ms.length)
    (b : UInt64) (hlis : (sys.parameters w).map (·.machine) = ms.map some) :
    ∃ w', sys.setListEntries i b w = some w' ∧ sys.parameters w' = sys.parameters w ∧
      (∀ j, i ≤ j → ∀ m, ms[j]? = some m → (sys.machine m).view w' = (sys.machine m).view w) ∧
      ∀ j < i, ∀ m, ms[j]? = some m → ((sys.machine m).view w').currentState =
        if b.toNat.testBit (i - 1 - j) then "on" else "off" := by
  induction i generalizing w b with
  | zero => exact ⟨w, rfl, rfl, fun _ _ _ _ => rfl, by simp⟩
  | succ i ih =>
    obtain ⟨m, hm⟩ : ∃ m, ms[i]? = some m := ⟨_, List.getElem?_eq_getElem hi⟩
    have hmem := List.mem_of_getElem? hm
    obtain ⟨p, hp, hmac⟩ : ∃ p, (sys.parameters w)[i]? = some p ∧ p.machine = some m := by
      have hget := congrArg (fun l => l[i]?) hlis
      simpa [List.getElem?_map, hm] using hget
    have hbit : b % 2 = 1 ↔ b.toNat.testBit 0 = true := by
      rw [testBit_zero, ← UInt64.toNat_inj, decide_eq_true_iff]
      rfl
    rw [System.setListEntries, hp]
    simp only [hmac, Option.elim_some, hbit]
    have hpar := (h.list m hmem).seen_setState w
      (if b.toNat.testBit 0 then "on" else "off") 0 false
    have hsta := h.currentState_setState (w := w) hmem (b.toNat.testBit 0)
    have hoth (j : ℕ) (hj : j ≠ i) (x : M) (hx : ms[j]? = some x) :=
      (h.others m hmem x (List.mem_of_getElem? hx) (by
        rintro rfl
        exact hj ((List.getElem?_inj (List.getElem?_eq_some_iff.mp hx).1 hnod).mp
          (hx.trans hm.symm)))).seen_setState w
            (if b.toNat.testBit 0 then "on" else "off") 0 false
    generalize ((sys.machine m).setState w (if b.toNat.testBit 0 then "on" else "off") 0 false).2
      = w₁ at *
    obtain ⟨w', heq, hpar', habo, hbel⟩ := ih (by omega) (b / 2) (w := w₁)
      (by rw [hpar, hlis])
    refine ⟨w', heq, hpar'.trans hpar, fun j hj x hx => ?_, fun j hj x hx => ?_⟩
    · rw [habo j (by omega) x hx, hoth j (by omega) x hx]
    · rcases Nat.lt_succ_iff_lt_or_eq.mp hj with hj | rfl
      · rw [hbel j hj x hx, UInt64.toNat_div, show i + 1 - 1 - j = (i - 1 - j) + 1 by omega,
          testBit_succ]
        rfl
      · obtain rfl : m = x := Option.some.inj (hm.symm.trans hx)
        rw [habo j le_rfl m hx, hsta]
        simp

/-- Bits that are read from the highest one on. -/
theorem foldl_bits (xs : List Bool) (b : ℕ) (acc : UInt64)
    (h : ∀ j (hj : j < xs.length), xs[j] = b.testBit (xs.length - 1 - j)) :
    (xs.foldl (fun val x => val * 2 + if x then 1 else 0) acc).toNat =
      (acc.toNat * 2 ^ xs.length + b % 2 ^ xs.length) % 2 ^ 64 := by
  induction xs generalizing acc with
  | nil => simp [mod_one]
  | cons x xs ih =>
    have hx : x = b.testBit xs.length := h 0 (zero_lt_succ _)
    have hres (j : ℕ) (hj : j < xs.length) : xs[j] = b.testBit (xs.length - 1 - j) := by
      have hj' := h (j + 1) (succ_lt_succ hj)
      rwa [getElem_cons_succ, length_cons,
        show xs.length + 1 - 1 - (j + 1) = xs.length - 1 - j by omega] at hj'
    have hbit : (acc * 2 + if x then 1 else 0).toNat =
        (acc.toNat * 2 + (b.testBit xs.length).toNat) % 2 ^ 64 := by
      rw [hx]
      cases b.testBit xs.length <;> simp
    have hmod : b % 2 ^ (xs.length + 1) =
        b % 2 ^ xs.length + 2 ^ xs.length * (b.testBit xs.length).toNat := by
      rw [mod_pow_succ, testBit_eq_decide_div_mod_eq]
      rcases mod_two_eq_zero_or_one (b / 2 ^ xs.length) with h | h <;> simp [h]
    rw [foldl_cons, ih _ hres, hbit, length_cons, hmod, add_mod, mod_mul_mod, ← add_mod]
    congr 1
    ring

/-- What is written is read again. -/
theorem bitset_run (h : sys.Calm ms) (hnodup : ms.Nodup) (hlength : ms.length ≤ 64)
    (hw : sys.isList w = true) (hlist : (sys.parameters w).map (·.machine) = ms.map some)
    {source : Value F} {b : UInt64} (hb : sys.bitmap w source = some b) :
    ∃ w', sys.run w source = some (.complete, w') ∧
      (∃ v : UInt64, sys.bitset "on" w' = .integer v.toInt64 ∧ v.toNat = b.toNat % 2 ^ ms.length) ∧
      ∀ i < ms.length, ∀ m, ms[ms.length - 1 - i]? = some m →
        (((sys.machine m).view w').currentState = "on" ↔ b.toNat.testBit i = true) := by
  have hsiz : (sys.parameters w).length = ms.length := by
    simpa using congrArg length hlist
  obtain ⟨w', heq, hpar, -, hsta⟩ := h.setListEntries hnodup ms.length le_rfl b hlist
  have hon (j : ℕ) (hj : j < ms.length) (m : M) (hm : ms[j]? = some m) :
      ((sys.machine m).view w').currentState = "on" ↔
        b.toNat.testBit (ms.length - 1 - j) = true := by
    rw [hsta j hj m hm]
    split_ifs with hbit <;> simp [hbit]
  refine ⟨w', ?_, ⟨_, rfl, ?_⟩, fun i hi m hm => ?_⟩
  · rw [run, if_pos hw, hb, hsiz]
    simp [heq]
  · have hbis : (sys.parameters w').map (sys.entryBit "on" w') =
        ms.map fun m => decide (((sys.machine m).view w').currentState = "on") := by
      rw [hpar]
      have hmap := congrArg (map fun o : Option M =>
        o.elim false fun m => decide (((sys.machine m).view w').currentState = "on")) hlist
      rw [map_map, map_map] at hmap
      refine (map_congr_left fun p hp => ?_).trans hmap
      have hsom : p.machine ∈ ms.map some := hlist ▸ mem_map_of_mem hp
      obtain ⟨m, -, hm⟩ := mem_map.mp hsom
      simp [entryBit, ← hm, eq_comm]
    have hmap := @foldl_map _ _ _ (sys.entryBit "on" w')
      (fun (val : UInt64) x => val * 2 + if x then 1 else 0) (sys.parameters w') 0
    rw [← hmap, hbis, foldl_bits _ b.toNat, length_map, UInt64.toNat_zero, zero_mul, zero_add]
    · exact Nat.mod_eq_of_lt (lt_of_lt_of_le (Nat.mod_lt _ (Nat.two_pow_pos _))
        (Nat.pow_le_pow_right two_pos hlength))
    · intro j hj
      simp only [getElem_map, length_map] at hj ⊢
      rw [Bool.eq_iff_iff, decide_eq_true_iff]
      exact hon j hj _ (getElem?_eq_getElem hj)
  · rw [hon _ (by omega) m hm, show ms.length - 1 - (ms.length - 1 - i) = i by omega]

end System

def lamps (handler : Bool) : System ℚ ℕ (ℕ → StateEntry.View ℚ) where
  machine m :=
    { name := if m = 0 then "first" else "second"
      isShadow := false
      states := ["off", "on"]
      view w := w m
      setView w v := Function.update w m v
      view_setView w v := Function.update_self m v w
      expectedAuthority _ := 0
      enabled _ := true
      getValue _ _ := .empty
      microsecs _ := 0
      receives _ _ := false
      handle w text :=
        (.complete, if handler = true ∧ text = "first.on_enter" then
          Function.update w 1 ⟨"off", .ofString "off", 0⟩ else w)
      tell w _ := w
      enterFunction w _ := w }
  isList _ := true
  parameters _ := [⟨.symbol "first" (some "first"), "first", some 0⟩,
    ⟨.symbol "second" (some "second"), "second", some 1⟩]
  getValue _ _ := .integer 3
  toUnsigned _ := 0

theorem lamps_bitset_run :
    ∃ w', (lamps false).run (fun _ => ⟨"off", .ofString "off", 0⟩) (.ofString "bits") =
        some (.complete, w') ∧
      (∃ v : UInt64, (lamps false).bitset "on" w' = .integer v.toInt64 ∧ v.toNat = 3 % 2 ^ 2) ∧
      ∀ i < 2, ∀ m, [0, 1][2 - 1 - i]? = some m →
        ((((lamps false).machine m).view w').currentState = "on" ↔ Nat.testBit 3 i = true) := by
  refine @System.bitset_run ℚ ℕ _ (lamps false) _ [0, 1] _ ?_ (by decide) (by decide) rfl rfl
    (.ofString "bits") 3 rfl
  constructor
  · exact fun _ _ _ => rfl
  · exact fun _ _ => by simp [lamps]
  · exact fun _ _ => ⟨fun _ _ => by simp [lamps], fun _ _ => rfl, fun _ _ => rfl⟩
  · exact fun _ _ _ _ hne => ⟨fun _ _ => Function.update_of_ne hne _ _, fun _ _ => by simp [lamps],
      fun _ _ => rfl, fun _ _ => rfl⟩
  · exact fun _ _ => ⟨fun _ _ => rfl, fun _ _ => rfl, fun _ _ => rfl, fun _ _ => rfl⟩

/-- The property `bits` is 3, so both lamps are to be on, but turning on the first one turns the
second one off again. -/
theorem handler_clears_bit :
    ((lamps true).run (fun _ => ⟨"off", .ofString "off", 0⟩) (.ofString "bits")).map
      (fun out => (lamps true).bitset "on" out.2) = some (.integer 2) := by
  decide

end Clockwork.ListBits
