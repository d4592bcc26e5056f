import Clockwork.Library.KeyedList
import Clockwork.ModbusServer
import Mathlib.Data.Nat.Bitwise

namespace Clockwork.ModbusServer

open CJson MessageEncoding List State Work Int64 KeyedList Prod

structure Command where
  group : Group
  addr : ℕ
  value : ℕ
deriving DecidableEq, Repr

def Command.params (c : Command) : List (Value ℚ) :=
  [.integer (Int64.ofNat c.group.number), .integer (Int64.ofNat c.addr),
    .integer (Int64.ofNat c.value)]

def Command.text (c : Command) : Text := iodCommand c.group c.addr c.value

/-- `iod` decodes the message as the command. -/
def Carries (msg : Text) (c : Command) : Prop :=
  getCommand false msg = .ok (some ("MODBUS", c.params))

def Command.Small (c : Command) : Prop := c.addr < 2 ^ 18 ∧ c.value < 2 ^ 16

theorem toInt_ofNat_of_small {n : ℕ} (h : n < 2 ^ 18) : (ofNat n).toInt = n :=
  toInt_ofNat_of_lt (by omega)

theorem ofNat_inj_of_small {n m : ℕ} (hn : n < 2 ^ 18) (hm : m < 2 ^ 18)
    (h : ofNat n = ofNat m) : n = m := by
  have hint := congrArg toInt h
  rw [toInt_ofNat_of_small hn, toInt_ofNat_of_small hm] at hint
  exact Int.ofNat.inj hint

theorem Group.number_lt (g : Group) : g.number < 2 ^ 18 := by
  cases g <;> decide

theorem Group.number_injective : Function.Injective Group.number := by
  intro g g' h
  cases g <;> cases g' <;> first | rfl | cases h

theorem arrive_of_small {n : ℕ} (h : n < 2 ^ 18) :
    arrive (F := ℚ) (.integer (ofNat n)) = .ok (.integer (ofNat n)) := by
  have hint := toInt_ofNat_of_small h
  have hsel : rereadLong (ofNat n) = .ok (ofNat n) := by
    refine (rereadLong_eq_self_iff _).mpr ⟨fun hmin => ?_, n, 0, by omega, ?_⟩
    · have hmin' : (ofNat n).toInt = -2 ^ 63 := congrArg toInt hmin
      omega
    · rw [hint, Int.natAbs_natCast, Nat.pow_zero, Nat.mul_one]
  rw [arrive, hsel]
  rfl

variable {modbusReply : Tables → Request → Tables} {c : Command} {g : Group} {p : ℕ × ℕ}
  {s : State} {r : Request} (iodcmd : Bool)

open Command

theorem carries_text (h : c.Small) : Carries c.text c := by
  have hcmd : plain "MODBUS" = "MODBUS" := (plain_eq_self_iff _).mpr (by decide)
  have htex : c.text = encodeCommand "MODBUS" (c.params ++ [.empty]) := by
    rfl
  have hflo : ∀ v ∈ c.params ++ [.empty], v.kind ≠ .float := by
    simp [params, Value.kind]
  rw [Carries, htex, getCommand_eq_ok_iff (by rw [hcmd]; decide) hflo]
  refine ⟨hcmd.symm, c.params ++ [.empty], ?_, rfl⟩
  have hval : c.value < 2 ^ 18 := by
    have := h.2
    omega
  exact .cons (arrive_of_small c.group.number_lt) (.cons (arrive_of_small h.1)
    (.cons (arrive_of_small hval) (.cons rfl .nil)))

theorem params_injective {c d : Command} (hc : c.Small) (hd : d.Small)
    (h : c.params = d.params) : c = d := by
  obtain ⟨hcad, hcva⟩ := hc
  obtain ⟨hdad, hdva⟩ := hd
  simp only [params, cons.injEq, Value.integer.injEq, and_true] at h
  obtain ⟨hgro, hadd, hval⟩ := h
  have hgro := Group.number_injective
    (ofNat_inj_of_small c.group.number_lt d.group.number_lt hgro)
  have hadd := ofNat_inj_of_small hcad hdad hadd
  have hval := ofNat_inj_of_small (by omega) (by omega) hval
  cases c
  subst hgro hadd hval
  rfl

theorem carries_text_iff {c d : Command} (hc : c.Small) (hd : d.Small) :
    Carries c.text d ↔ c = d := by
  constructor
  · intro h
    have heq := (carries_text hc).symm.trans h
    simp only [Except.ok.injEq, Option.some.injEq, Prod.mk.injEq, true_and] at heq
    exact params_injective hc hd heq
  · rintro rfl
    exact carries_text hc

theorem forall₂_carries_iff {cs ds : List Command} (hcs : ∀ c ∈ cs, c.Small)
    (hds : ∀ d ∈ ds, d.Small) : List.Forall₂ Carries (cs.map text) ds ↔ cs = ds := by
  rw [forall₂_map_left_iff]
  constructor
  · intro h
    induction h with
    | nil => rfl
    | cons hcd _ ih =>
      obtain ⟨hc, hcs⟩ := forall_mem_cons.mp hcs
      obtain ⟨hd, hds⟩ := forall_mem_cons.mp hds
      rw [(carries_text_iff hc hd).mp hcd, ih hcs hds]
  · rintro rfl
    exact forall₂_same.mpr fun c hc => carries_text (hcs c hc)

def State.value? (s : State) : Group → ℕ → Option ℕ
  | .coil, addr => (entry s.tabBits addr).map fun b => if b = 0 then 0 else 1
  | .register, addr => (entry s.tabRegisters addr).map UInt16.toNat

def State.Settled (s : State) (g : Group) (addr value : ℕ) : Prop :=
  (g, addr) ∈ s.initialisedAddress ∧ s.value? g addr = some value

instance (s : State) (g : Group) (addr value : ℕ) : Decidable (s.Settled g addr value) :=
  inferInstanceAs (Decidable (_ ∧ _))

def State.due (s : State) (g : Group) (p : ℕ × ℕ) : Option Command :=
  if (g, p.1) ∈ s.activeAddresses ∧ ¬s.Settled g p.1 p.2 then some ⟨g, p.1 + 1, p.2⟩ else none

def ignored (s : State) (addr : UInt16) (hi : UInt8) : Bool :=
  hi ≠ 0 && (entry s.tabBits addr.toNat).any (· ≠ 0)

/-- The commands for a request: one for each address that it gives a value, in increasing order,
where one is due. -/
def expected (s : State) : Request → List Command
  | .writeCoil addr hi _ =>
    if ignored s addr hi then [] else [⟨.coil, addr.toNat + 1, if hi = 0 then 0 else 1⟩]
  | .writeRegister addr value => [⟨.register, addr.toNat + 1, value.toNat⟩]
  | .writeCoils addr quantity data =>
    ((List.range' addr.toNat quantity.toNat).zip ((bits data).map Bool.toNat)).filterMap
      (s.due .coil)
  | .writeRegisters addr quantity data =>
    ((List.range' addr.toNat quantity.toNat).zip (words data)).filterMap (s.due .register)

def Informed (modbusReply : Tables → Request → Tables) (s : State) (r : Request) : Prop :=
  ∃ sent, (serve modbusReply s r).map Prod.snd = some sent ∧
    List.Forall₂ Carries sent (expected s r)

theorem State.due_eq_some_iff : s.due g p = some c ↔
      ((g, p.1) ∈ s.activeAddresses ∧ ¬s.Settled g p.1 p.2) ∧ c = ⟨g, p.1 + 1, p.2⟩ := by
  rw [due, Option.ite_none_right_eq_some, Option.some.injEq, eq_comm (a := c)]

theorem State.due_eq_none_iff :
    s.due g p = none ↔ ((g, p.1) ∈ s.activeAddresses → s.Settled g p.1 p.2) := by
  rw [due]
  simp

theorem entry_of_lt {α : Type} (table : Fin tableSize → α) {addr : ℕ} (h : addr < tableSize) :
    entry table addr = some (table ⟨addr, h⟩) := dif_pos h

def Work.visit (s : State) (g : Group) (iodcmd : Bool) (w : Work) (p : ℕ × ℕ) : Work :=
  if (g, p.1) ∉ w.initialisedAddress ∨ s.value? g p.1 ≠ some p.2 then
    w.push (g, p.1) (iodCommand g (p.1 + 1) p.2)
      (sendIODMessage iodcmd (iodCommand g (p.1 + 1) p.2))
  else w

section Visits

variable {s : State} {g : Group} {w : Work} (iodcmd : Bool)

theorem Work.visit_of_agree {p : ℕ × ℕ} (hact : (g, p.1) ∈ s.activeAddresses)
    (hagr : (g, p.1) ∈ w.initialisedAddress ↔ (g, p.1) ∈ s.initialisedAddress) :
    (w.visit s g iodcmd p).sent =
        w.sent ++ (s.due g p).toList.flatMap (fun c => sendIODMessage iodcmd c.text) ∧
      (w.visit s g iodcmd p).iodSyncCommands =
        w.iodSyncCommands ++ (s.due g p).toList.map text := by
  by_cases hset : s.Settled g p.1 p.2
  · have hnot : ¬((g, p.1) ∉ w.initialisedAddress ∨ s.value? g p.1 ≠ some p.2) := by
      rw [hagr]
      exact fun h => h.elim (fun h => h hset.1) (fun h => h hset.2)
    rw [visit, if_neg hnot, due_eq_none_iff.mpr fun _ => hset]
    simp
  · have hpus : (g, p.1) ∉ w.initialisedAddress ∨ s.value? g p.1 ≠ some p.2 := by
      rw [hagr]
      exact not_and_or.mp hset
    rw [visit, if_pos hpus, due_eq_some_iff.mpr ⟨⟨hact, hset⟩, rfl⟩]
    simp [push, text]

theorem Work.mem_visit_iff {p : ℕ × ℕ} {key : Group × ℕ} (hkey : key ≠ (g, p.1)) :
    key ∈ (w.visit s g iodcmd p).initialisedAddress ↔ key ∈ w.initialisedAddress := by
  unfold visit
  split_ifs
  · exact Finset.mem_insert.trans (or_iff_right hkey)
  · rfl

theorem Work.foldl_visit {ps : List (ℕ × ℕ)} (hps : KeyedList.Increasing fst ps)
    (hact : ∀ p ∈ ps, (g, p.1) ∈ s.activeAddresses)
    (hagr : ∀ p ∈ ps, (g, p.1) ∈ w.initialisedAddress ↔ (g, p.1) ∈ s.initialisedAddress) :
    (ps.foldl (visit s g iodcmd) w).sent =
        w.sent ++ (ps.filterMap (s.due g)).flatMap (fun c => sendIODMessage iodcmd c.text) ∧
      (ps.foldl (visit s g iodcmd) w).iodSyncCommands =
        w.iodSyncCommands ++ (ps.filterMap (s.due g)).map text := by
  induction ps generalizing w with
  | nil => simp
  | cons p ps ih =>
    obtain ⟨hlt, hps⟩ := pairwise_cons.mp hps
    obtain ⟨hp, hact⟩ := forall_mem_cons.mp hact
    obtain ⟨hpag, hagr⟩ := forall_mem_cons.mp hagr
    obtain ⟨hsen, hque⟩ := visit_of_agree iodcmd hp hpag
    have hnex := ih hps hact (w := w.visit s g iodcmd p) fun q hq => by
      rw [mem_visit_iff iodcmd fun h => (hlt q hq).ne' (Prod.mk.inj h).2, hagr q hq]
    rw [foldl_cons, hnex.1, hnex.2, hsen, hque]
    cases hdue : s.due g p <;> simp [hdue]

end Visits

theorem flatMap_sendIODMessage (cs : List Command) :
    cs.flatMap (fun c => sendIODMessage iodcmd c.text) =
      (if iodcmd then cs else []).map text := by
  cases iodcmd with
  | false => simp [sendIODMessage]
  | true => exact map_eq_flatMap.symm

def State.activePairs (s : State) (g : Group) (ps : List (ℕ × ℕ)) : List (ℕ × ℕ) :=
  ps.filter fun p => (g, p.1) ∈ s.activeAddresses

theorem State.filterMap_activePairs (s : State) (g : Group) (ps : List (ℕ × ℕ)) :
    (s.activePairs g ps).filterMap (s.due g) = ps.filterMap (s.due g) := by
  rw [activePairs, filterMap_filter]
  refine filterMap_congr fun p _ => ?_
  by_cases hact : (g, p.1) ∈ s.activeAddresses <;> simp [hact, due]

def CoilLoop.visit (s : State) (numCoils : ℕ) (l : CoilLoop) (b : Bool) : CoilLoop :=
  if numCoils ≤ l.currCoil then l
  else
    ⟨l.addr + 1, l.currCoil + 1,
      (s.activePairs .coil [(l.addr, b.toNat)]).foldl (Work.visit s .coil false) l.work⟩

theorem and_shiftLeft_eq_zero_iff (n bit : ℕ) : n &&& (1 <<< bit) = 0 ↔ n.testBit bit = false := by
  rw [Nat.one_shiftLeft, Nat.and_two_pow]
  cases n.testBit bit <;> simp

theorem coilBit_eq (s : State) (numCoils : ℕ) (byte : UInt8) (l : CoilLoop) (bit : ℕ) :
    coilBit s numCoils byte l bit = some (l.visit s numCoils (byte.toNat.testBit bit)) := by
  unfold coilBit CoilLoop.visit
  split
  · rfl
  by_cases hact : (Group.coil, l.addr) ∈ s.activeAddresses
  · have hent := entry_of_lt s.tabBits (s.active_lt _ hact)
    have hval := and_shiftLeft_eq_zero_iff byte.toNat bit
    generalize byte.toNat &&& (1 <<< bit) = val at hval
    generalize byte.toNat.testBit bit = b at hval
    have hpai : s.activePairs .coil [(l.addr, b.toNat)] = [(l.addr, b.toNat)] := by
      simp [activePairs, hact]
    have hcmd : getIODSyncCommandBool .coil (l.addr + 1) (val ≠ 0) =
        iodCommand .coil (l.addr + 1) b.toNat := by
      cases b <;> simp_all [getIODSyncCommandBool]
    have hdif : (val ≠ 0 ∧ s.tabBits ⟨l.addr, s.active_lt _ hact⟩ = 0) ∨
          (val = 0 ∧ s.tabBits ⟨l.addr, s.active_lt _ hact⟩ ≠ 0) ↔
        s.value? .coil l.addr ≠ some b.toNat := by
      rw [value?]
      by_cases hold : s.tabBits ⟨l.addr, s.active_lt _ hact⟩ = 0 <;> cases b <;> simp_all
    simp only [hact, if_true, hent, hpai, hcmd, hdif, foldl_cons, foldl_nil,
      visit, Option.bind_eq_bind, Option.bind_some]
    split <;> rfl
  · simp [hact, activePairs]

theorem coilBytes_eq (s : State) (numCoils : ℕ) (data : List UInt8) (l : CoilLoop) :
    coilBytes s numCoils data l = some ((bits data).foldl (CoilLoop.visit s numCoils) l) := by
  have hbyt (l : CoilLoop) (byte : UInt8) :
      (range 8).foldlM (coilBit s numCoils byte) l =
        some (((range 8).map byte.toNat.testBit).foldl (CoilLoop.visit s numCoils) l) := by
    exact (congrArg (fun f => (range 8).foldlM f l)
      (funext₂ fun l bit => coilBit_eq s numCoils byte l bit)).trans (foldlM_pure ..)
  induction data generalizing l with
  | nil => rfl
  | cons byte data ih =>
    rw [coilBytes, foldlM_cons, hbyt, bits]
    exact ih _

theorem work_foldl_visit (s : State) (numCoils : ℕ) (values : List Bool) (l : CoilLoop) :
    (values.foldl (CoilLoop.visit s numCoils) l).work =
      (s.activePairs .coil ((range' l.addr (numCoils - l.currCoil)).zip
        (values.map Bool.toNat))).foldl (visit s .coil false) l.work := by
  induction values generalizing l with
  | nil => simp [activePairs]
  | cons b values ih =>
    rw [foldl_cons, ih, CoilLoop.visit]
    by_cases hdon : numCoils ≤ l.currCoil
    · rw [if_pos hdon, Nat.sub_eq_zero_of_le hdon]
      simp [activePairs]
    · have hlef : numCoils - l.currCoil = numCoils - (l.currCoil + 1) + 1 := by omega
      rw [if_neg hdon, hlef, range'_succ, map_cons, zip_cons_cons, ← foldl_append]
      congr 1
      exact (filter_append [(l.addr, b.toNat)] _).symm

def State.activeRegisters (s : State) (addr quantity : ℕ) : List ℕ :=
  (List.range' addr quantity).filter fun a => (Group.register, a) ∈ s.activeAddresses

theorem registerWords_of_active {addr : ℕ} (h : (Group.register, addr) ∈ s.activeAddresses)
    (numWords : ℕ) (hi lo : UInt8) (data : List UInt8) (w : Work) :
    registerWords s (numWords + 1) addr (hi :: lo :: data) w =
      registerWords s numWords (addr + 1) data
        (w.visit s .register s.iodcmd (addr, getInt hi lo)) := by
  have hent := entry_of_lt s.tabRegisters (s.active_lt _ h)
  have hval : s.value? .register addr = some (s.tabRegisters ⟨addr, s.active_lt _ h⟩).toNat := by
    rw [value?, hent, Option.map_some]
  rw [registerWords]
  simp only [h, if_true, hent, Option.bind_eq_bind, Option.bind_some, visit, hval, ne_eq,
    Option.some.injEq, eq_comm (a := getInt hi lo)]
  split <;> rfl

theorem registerWords_eq (s : State) (numWords addr : ℕ) (data : List UInt8) (w : Work) :
    registerWords s numWords addr data w =
      if (s.activeRegisters addr numWords).length ≤ (words data).length then
        some (((s.activeRegisters addr numWords).zip (words data)).foldl
          (visit s .register s.iodcmd) w)
      else none := by
  induction numWords generalizing addr data w with
  | zero => rfl
  | succ numWords ih =>
    have hran : range' addr (numWords + 1) = addr :: range' (addr + 1) numWords :=
      range'_succ
    by_cases hact : (Group.register, addr) ∈ s.activeAddresses
    · have hreg : s.activeRegisters addr (numWords + 1) =
          addr :: s.activeRegisters (addr + 1) numWords := by
        rw [activeRegisters, hran, filter_cons_of_pos (by simpa using hact)]
        rfl
      rw [hreg]
      match data with
      | hi :: lo :: data =>
        rw [registerWords_of_active hact, ih, words]
        simp only [length_cons, Nat.add_le_add_iff_right, zip_cons_cons, foldl_cons]
      | [] => exact if_pos hact
      | [_] => exact if_pos hact
    · have hreg : s.activeRegisters addr (numWords + 1) =
          s.activeRegisters (addr + 1) numWords := by
        rw [activeRegisters, hran, filter_cons_of_neg (by simpa using hact)]
        rfl
      rw [hreg, ← ih]
      exact if_neg hact

/-- The commands that are sent, if `cs` are made: those for an `int` by both ways. -/
def told (iodcmd : Bool) (cs : List Command) : List Command := (if iodcmd then cs else []) ++ cs

theorem inform_eq (g : Group) (addr value : ℕ) :
    inform iodcmd g addr value = (told iodcmd [⟨g, addr, value⟩]).map text := by
  cases iodcmd <;> rfl

theorem Work.sent_foldl_visit {ps : List (ℕ × ℕ)} (hps : KeyedList.Increasing fst ps)
    (hact : ∀ p ∈ ps, (g, p.1) ∈ s.activeAddresses) :
    (ps.foldl (visit s g iodcmd) ⟨s.initialisedAddress, [], []⟩).sent ++
        (ps.foldl (visit s g iodcmd) ⟨s.initialisedAddress, [], []⟩).iodSyncCommands =
      (told iodcmd (ps.filterMap (s.due g))).map text := by
  obtain ⟨hsen, hque⟩ := foldl_visit iodcmd (w := ⟨s.initialisedAddress, [], []⟩) hps
    hact fun _ _ => Iff.rfl
  rw [hsen, hque, nil_append, nil_append, flatMap_sendIODMessage, told, map_append]

def Command.item (c : Command) : ℕ := c.addr - 1

theorem item_of_due (h : s.due g p = some c) : c.item = p.1 := by
  rw [(due_eq_some_iff.mp h).2]
  rfl

theorem told_eq_iff {iodcmd : Bool} {cs ds : List Command} (hds : KeyedList.Increasing item ds) :
    told iodcmd cs = ds ↔ cs = ds ∧ (iodcmd = false ∨ ds = []) := by
  cases iodcmd with
  | false => simp [told]
  | true =>
    refine hds.append_self_eq_iff.trans ?_
    constructor
    · rintro ⟨rfl, rfl⟩
      exact ⟨rfl, .inr rfl⟩
    · rintro ⟨rfl, h⟩
      have hnil := h.resolve_left (by decide)
      exact ⟨hnil, hnil⟩

theorem getInt_lt (hi lo : UInt8) : getInt hi lo < 2 ^ 16 := by
  have hhi := hi.toNat_lt
  have hlo := lo.toNat_lt
  unfold getInt
  omega

theorem words_lt (data : List UInt8) : ∀ v ∈ words data, v < 2 ^ 16 := by
  fun_induction words data with
  | case1 hi lo data ih => exact forall_mem_cons.mpr ⟨getInt_lt hi lo, ih⟩
  | case2 => simp

theorem bits_lt (data : List UInt8) : ∀ v ∈ (bits data).map Bool.toNat, v < 2 ^ 16 := by
  intro v hv
  obtain ⟨b, -, rfl⟩ := mem_map.mp hv
  cases b <;> decide

theorem lt_of_mem_block (addr quantity : UInt16) :
    ∀ a ∈ range' addr.toNat quantity.toNat, a < 2 ^ 17 := by
  intro a h
  have hadd := addr.toNat_lt
  have hqua := quantity.toNat_lt
  have hlt := (mem_range'_1.mp h).2
  omega

theorem small_of_mem_filterMap {addresses values : List ℕ}
    (hadd : ∀ a ∈ addresses, a < 2 ^ 17) (hval : ∀ v ∈ values, v < 2 ^ 16) :
    ∀ c ∈ (addresses.zip values).filterMap (s.due g), c.Small := by
  intro c hc
  obtain ⟨⟨a, v⟩, hp, hdue⟩ := mem_filterMap.mp hc
  obtain ⟨ha, hv⟩ := of_mem_zip hp
  obtain ⟨-, rfl⟩ := due_eq_some_iff.mp hdue
  have := hadd a ha
  exact ⟨by change a + 1 < _; omega, hval v hv⟩

theorem informed_of_served {iodcmd : Bool} {cs : List Command}
    (hser : (serve modbusReply s r).map snd = some ((told iodcmd cs).map text))
    (hcs : ∀ c ∈ cs, c.Small) (hexp : ∀ c ∈ expected s r, c.Small)
    (hinc : KeyedList.Increasing item (expected s r)) :
    Informed modbusReply s r ↔ cs = expected s r ∧ (iodcmd = false ∨ expected s r = []) := by
  have htol : ∀ c ∈ told iodcmd cs, c.Small := by
    intro c hc
    cases iodcmd <;> simp only [told, if_true, Bool.false_eq_true, if_false, nil_append,
      mem_append, or_self] at hc <;> exact hcs c hc
  rw [← told_eq_iff hinc, ← forall₂_carries_iff htol hexp, Informed, hser]
  simp

/-- The word that the loop takes for an active register is the word of this register. If the
request has none for it, the register has the value of the word that is taken. -/
def InStep (s : State) (addr quantity : ℕ) (ws : List ℕ) : Prop :=
  ∀ i a : ℕ, (s.activeRegisters addr quantity)[i]? = some a →
    ∃ v, ws[i]? = some v ∧
      (ws[a - addr]? = some v ∨ ws[a - addr]? = none ∧ s.Settled .register a v)

def Unchanging (s : State) (addr quantity : ℕ) (ws : List ℕ) : Prop :=
  ∀ a ∈ s.activeRegisters addr quantity, ∀ v, ws[a - addr]? = some v → s.Settled .register a v

def Reported (s : State) : Request → Prop
  | .writeCoil addr hi _ =>
    (hi ≠ 0 → addr.toNat < tableSize) ∧ (s.iodcmd = false ∨ ignored s addr hi = true)
  | .writeRegister addr _ => addr.toNat < tableSize ∧ s.iodcmd = false
  | .writeCoils _ _ _ => True
  | .writeRegisters addr quantity data =>
    InStep s addr.toNat quantity.toNat (words data) ∧
      (s.iodcmd = false ∨ Unchanging s addr.toNat quantity.toNat (words data))

/-- `modbus_reply` writes the value of a request with the function code 6 to its register. -/
def WritesRegister (modbusReply : Tables → Request → Tables) : Prop :=
  ∀ tables addr value, ∀ h : addr.toNat < tableSize,
    (modbusReply tables (.writeRegister addr value)).2 ⟨addr.toNat, h⟩ = value

@[simp] theorem State.reply_iodcmd (s : State) (r : Request) :
    (s.reply modbusReply r).iodcmd = s.iodcmd := rfl

theorem informed_of_single
    (hser : (serve modbusReply s r).map snd = some (inform s.iodcmd c.group c.addr c.value))
    (hc : c.Small) (hexp : expected s r = [c]) : Informed modbusReply s r ↔ s.iodcmd = false := by
  have hsma : ∀ d ∈ [c], d.Small := by simpa using hc
  rw [inform_eq] at hser
  rw [informed_of_served hser hsma (hexp ▸ hsma) (hexp ▸ pairwise_singleton _ c), hexp]
  simp

theorem not_informed_of_undefined (h : serve modbusReply s r = none) :
    ¬Informed modbusReply s r := by
  simp [Informed, h]

theorem small_of_addr (g : Group) (addr : UInt16) {value : ℕ} (h : value < 2 ^ 16) :
    (mk g (addr.toNat + 1) value).Small := by
  have hadd := addr.toNat_lt
  exact ⟨by change addr.toNat + 1 < _; omega, h⟩

theorem informed_writeCoil (s : State) (addr : UInt16) (hi lo : UInt8) :
    Informed modbusReply s (.writeCoil addr hi lo) ↔ Reported s (.writeCoil addr hi lo) := by
  have hval : (if hi = 0 then 0 else 1) < 2 ^ 16 := by split <;> decide
  have hsma := small_of_addr .coil addr hval
  by_cases hhi : hi = 0
  · subst hhi
    have hnot : ignored s addr 0 = false := by simp [ignored]
    rw [informed_of_single (by simp [serve]) hsma (by simp [expected, hnot])]
    simp [Reported, hnot]
  by_cases hadd : addr.toNat < tableSize
  · have hent := entry_of_lt s.tabBits hadd
    by_cases hbit : s.tabBits ⟨addr.toNat, hadd⟩ = 0
    · have hnot : ignored s addr hi = false := by simp [ignored, hent, hbit]
      rw [informed_of_single (by simp [serve, hhi, hent, hbit]) hsma (by simp [expected, hnot])]
      simp [Reported, hadd, hnot]
    · have hign : ignored s addr hi = true := by simp [ignored, hhi, hent, hbit]
      have hinf : Informed modbusReply s (.writeCoil addr hi lo) := by
        refine ⟨[], by simp [serve, hhi, hent, hbit], ?_⟩
        simp [expected, hign]
      exact iff_of_true hinf ⟨fun _ => hadd, .inr hign⟩
  · have hser : serve modbusReply s (.writeCoil addr hi lo) = none := by
      simp [serve, hhi, entry, hadd]
    exact iff_of_false (not_informed_of_undefined hser) fun h => hadd (h.1 hhi)

theorem informed_writeRegister (hreply : WritesRegister modbusReply) (s : State)
    (addr value : UInt16) :
    Informed modbusReply s (.writeRegister addr value) ↔
      Reported s (.writeRegister addr value) := by
  by_cases hadd : addr.toNat < tableSize
  · have hent : entry (s.reply modbusReply (.writeRegister addr value)).tabRegisters addr.toNat =
        some value := by
      rw [entry_of_lt _ hadd]
      exact congrArg some (hreply _ addr value hadd)
    rw [informed_of_single (c := ⟨.register, addr.toNat + 1, value.toNat⟩)
      (by simp [serve, hent]) (small_of_addr _ addr value.toNat_lt) rfl]
    simp [Reported, hadd]
  · have hser : serve modbusReply s (.writeRegister addr value) = none := by
      simp [serve, entry, hadd]
    exact iff_of_false (not_informed_of_undefined hser) fun h => hadd h.1

theorem informed_writeCoils (s : State) (addr quantity : UInt16) (data : List UInt8) :
    Informed modbusReply s (.writeCoils addr quantity data) := by
  have hran : (range' addr.toNat quantity.toNat).Pairwise (· < ·) :=
    pairwise_lt_range'
  have hpai := increasing_zip hran ((bits data).map Bool.toNat)
  have hsma := small_of_mem_filterMap (s := s) (g := .coil)
    (lt_of_mem_block addr quantity) (bits_lt data)
  have hser : (serve modbusReply s (.writeCoils addr quantity data)).map snd =
      some ((told false (expected s (.writeCoils addr quantity data))).map text) := by
    have hsen := sent_foldl_visit (s := s) (g := .coil) false
      (List.Pairwise.filter (fun p => (Group.coil, p.1) ∈ s.activeAddresses) hpai)
      fun p hp => by simpa using (mem_filter.mp hp).2
    rw [expected, ← s.filterMap_activePairs, activePairs, ← hsen, serve, coilBytes_eq]
    simp only [Option.bind_eq_bind, Option.bind_some, Option.map_some, work_foldl_visit,
      Nat.sub_zero, activePairs]
  rw [informed_of_served hser hsma hsma (hpai.filterMap item_of_due)]
  exact ⟨rfl, .inl rfl⟩

theorem due_eq_bind_iff {a v : ℕ} {w? : Option ℕ} (hact : (g, a) ∈ s.activeAddresses) :
    (s.due g (a, v) = w?.bind fun w => s.due g (a, w)) ↔
      w? = some v ∨ w? = none ∧ s.Settled g a v := by
  cases w? with
  | none =>
    rw [Option.bind_none, due_eq_none_iff]
    simp [hact]
  | some w =>
    rw [Option.bind_some]
    simp only [Option.some.injEq, reduceCtorEq, false_and, or_false]
    refine ⟨fun h => ?_, fun h => by rw [h]⟩
    by_cases hv : s.Settled g a v
    · rw [due_eq_none_iff.mpr fun _ => hv] at h
      have hw := due_eq_none_iff.mp h.symm hact
      exact Option.some.inj (hw.2.symm.trans hv.2)
    · have hcom : s.due g (a, v) = some ⟨g, a + 1, v⟩ :=
        due_eq_some_iff.mpr ⟨⟨hact, hv⟩, rfl⟩
      rw [h] at hcom
      exact ((Command.mk.injEq ..).mp (due_eq_some_iff.mp hcom).2).2.2.symm

section Registers

variable {s : State} {addr quantity : ℕ} {ws : List ℕ}

theorem mem_activeRegisters {a : ℕ} : a ∈ s.activeRegisters addr quantity ↔
      a ∈ range' addr quantity ∧ (Group.register, a) ∈ s.activeAddresses := by
  simp [activeRegisters]

theorem InStep.length_le (h : InStep s addr quantity ws) :
    (s.activeRegisters addr quantity).length ≤ ws.length := by
  by_contra hlt
  obtain ⟨v, hv, -⟩ := h ws.length _ (getElem?_eq_getElem (not_le.mp hlt))
  simp at hv

theorem commands_eq_iff_inStep (hlen : (s.activeRegisters addr quantity).length ≤ ws.length) :
    ((s.activeRegisters addr quantity).zip ws).filterMap (s.due .register) =
        ((List.range' addr quantity).zip ws).filterMap (s.due .register) ↔
      InStep s addr quantity ws := by
  have hval (i a : ℕ) (ha : (s.activeRegisters addr quantity)[i]? = some a) :
      ∃ v, ws[i]? = some v := by
    obtain ⟨hi, -⟩ := List.getElem?_eq_some_iff.mp ha
    exact ⟨_, List.getElem?_eq_getElem (hi.trans_le hlen)⟩
  have hact {i a : ℕ} (ha : (s.activeRegisters addr quantity)[i]? = some a) :
      (Group.register, a) ∈ s.activeAddresses :=
    (mem_activeRegisters.mp (List.mem_of_getElem? ha)).2
  refine (filterMap_zip_sublist_eq_iff filter_sublist item_of_due ?_ hval).trans ?_
  · intro p c hc hmem
    exact mem_activeRegisters.mpr ⟨hmem, (due_eq_some_iff.mp hc).1.1⟩
  constructor
  · intro h i a ha
    obtain ⟨v, hv⟩ := hval i a ha
    exact ⟨v, hv, (due_eq_bind_iff (hact ha)).mp (h i a v ha hv)⟩
  · intro h i a v ha hv
    obtain ⟨w, hw, hsam⟩ := h i a ha
    obtain rfl := Option.some.inj (hv.symm.trans hw)
    exact (due_eq_bind_iff (hact ha)).mpr hsam

theorem commands_eq_nil_iff : ((range' addr quantity).zip ws).filterMap (s.due .register) = [] ↔
      Unchanging s addr quantity ws := by
  rw [filterMap_eq_nil_iff]
  constructor
  · intro h a ha v hv
    obtain ⟨hmem, hact⟩ := mem_activeRegisters.mp ha
    exact due_eq_none_iff.mp (h (a, v) (mem_zip_range'_iff.mpr ⟨hmem, hv⟩)) hact
  · rintro h ⟨a, v⟩ hp
    obtain ⟨hmem, hv⟩ := mem_zip_range'_iff.mp hp
    refine due_eq_none_iff.mpr fun hact => ?_
    exact h a (mem_activeRegisters.mpr ⟨hmem, hact⟩) v hv

end Registers

theorem informed_writeRegisters (s : State) (addr quantity : UInt16) (data : List UInt8) :
    Informed modbusReply s (.writeRegisters addr quantity data) ↔
      Reported s (.writeRegisters addr quantity data) := by
  by_cases hlen :
      (s.activeRegisters addr.toNat quantity.toNat).length ≤ (words data).length
  · have hran : (range' addr.toNat quantity.toNat).Pairwise (· < ·) :=
      pairwise_lt_range'
    have hact := hran.filter fun a => (Group.register, a) ∈ s.activeAddresses
    have hser : (serve modbusReply s (.writeRegisters addr quantity data)).map snd =
        some ((told s.iodcmd (((s.activeRegisters addr.toNat quantity.toNat).zip
          (words data)).filterMap (s.due .register))).map text) := by
      have hsen := sent_foldl_visit (s := s) (g := .register) s.iodcmd
        (increasing_zip hact (words data))
        fun p hp => (mem_activeRegisters.mp (of_mem_zip hp).1).2
      rw [serve, registerWords_eq, if_pos hlen]
      exact congrArg some hsen
    have hblo := lt_of_mem_block addr quantity
    rw [informed_of_served hser
      (small_of_mem_filterMap (fun a ha => hblo a (mem_activeRegisters.mp ha).1) (words_lt data))
      (small_of_mem_filterMap hblo (words_lt data))
      ((increasing_zip hran (words data)).filterMap item_of_due)]
    exact and_congr (commands_eq_iff_inStep hlen) (or_congr_right commands_eq_nil_iff)
  · have hser : serve modbusReply s (.writeRegisters addr quantity data) = none := by
      rw [serve, registerWords_eq, if_neg hlen]
      rfl
    exact iff_of_false (not_informed_of_undefined hser) fun h => hlen h.1.length_le

/-- `iod` is told of every write of several coils. Registers need their words in step with the
active ones, and whatever is made for an `int` is sent twice. -/
theorem informed_iff (hreply : WritesRegister modbusReply) (s : State) (r : Request) :
    Informed modbusReply s r ↔ Reported s r := by
  cases r with
  | writeCoil addr hi lo => exact informed_writeCoil s addr hi lo
  | writeRegister addr value => exact informed_writeRegister hreply s addr value
  | writeCoils addr quantity data => exact iff_true_intro (informed_writeCoils s addr quantity data)
  | writeRegisters addr quantity data => exact informed_writeRegisters s addr quantity data

/-- A library that writes single registers and nothing else. -/
def registerReply (tables : Tables) : Request → Tables
  | .writeRegister addr value =>
    (tables.1, fun i => if i.val = addr.toNat then value else tables.2 i)
  | _ => tables

theorem register_informed :
    let s : State := {
      tabBits := fun _ => 0
      tabRegisters := fun _ => 0
      activeAddresses := ∅
      initialisedAddress := ∅
      iodcmd := false
      active_lt := by decide }
    Informed registerReply s (.writeRegister 3 7) := by
  intro s
  refine (informed_iff (fun tables addr value h => ?_) s _).mpr ⟨by decide, rfl⟩
  exact if_pos rfl

/-- Registers 0 and 1 are given 7 and 9, and only register 1 is active. -/
theorem inactive_register_not_informed :
    let s : State := {
      tabBits := fun _ => 0
      tabRegisters := fun _ => 0
      activeAddresses := {(.register, 1)}
      initialisedAddress := ∅
      iodcmd := true
      active_lt := by decide }
    let r := Request.writeRegisters 0 2 [0, 7, 0, 9]
    (serve registerReply s r).map snd = some [iodCommand .register 2 7, iodCommand .register 2 7] ∧
      expected s r = [⟨.register, 2, 9⟩] ∧ ¬Informed registerReply s r := by
  intro s r
  have hser : (serve registerReply s r).map snd =
      some [iodCommand .register 2 7, iodCommand .register 2 7] := rfl
  have hexp : expected s r = [⟨.register, 2, 9⟩] := by decide
  refine ⟨hser, hexp, ?_⟩
  rintro ⟨sent, hsen, hcar⟩
  obtain rfl := Option.some.inj (hser.symm.trans hsen)
  rw [hexp] at hcar
  exact absurd hcar.length_eq (by decide)

end Clockwork.ModbusServer
