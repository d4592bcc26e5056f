import Mathlib.Data.Int.Notation
import Mathlib.Data.List.Perm.Subperm

namespace Clockwork.ModbusUpdates

open List

inductive Request where
  | bit (addr : ℤ) (which : Bool)
  | register (addr : ℤ) (val : UInt16)
deriving DecidableEq

structure Device where
  bits : ℤ → Bool
  registers : ℤ → UInt16

def Device.apply (d : Device) : Request → Device
  | .bit addr which => { d with bits := Function.update d.bits addr which }
  | .register addr val => { d with registers := Function.update d.registers addr val }

/-- One call of the Modbus library: it succeeds, or it fails with `EAGAIN` or `EINTR`, or with
another error. -/
inductive Outcome where
  | ok
  | again
  | broken
deriving DecidableEq

/-- `close_connection` locks `update_mutex`, which is not recursive: if the thread holds it, the
call does not return. -/
def closeConnection (held : Bool) : Option Unit := if held then none else some ()

/-- The loop of `setBit` and `setRegisters` from an attempt on, which holds the mutex. After an
error of another kind `check_error` closes the connection, and without one the loop ends. -/
def attempts (outcome : ℕ → Outcome) (connected : Bool) : ℕ → ℕ → Option Bool
  | _, 0 => some false
  | i, retries + 1 => match outcome i with
    | .ok => some true
    | .again => if connected then attempts outcome connected (i + 1) retries else some false
    | .broken => if connected then (closeConnection true).map fun _ => false else some false

def Hangs (connected : Bool) (outcome : ℕ → Outcome) : Prop :=
  connected = true ∧ ∃ i < 3, outcome i = .broken ∧ ∀ j < i, outcome j = .again

def Lost (connected : Bool) (outcome : ℕ → Outcome) : Prop :=
  if connected then ∀ i < 3, outcome i = .again else outcome 0 ≠ .ok

structure Progress where
  device : Device
  /-- the writes made -/
  writes : ℕ := 0
  written : List Request := []

section Writing

variable (outcome : ℕ → ℕ → Outcome) (connected : Bool)

def write (s : Progress) (requests : List Request) : Option Progress :=
  (attempts (outcome s.writes) connected 0 3).map fun done =>
    if done then ⟨requests.foldl Device.apply s.device, s.writes + 1, s.written ++ requests⟩
    else { s with writes := s.writes + 1 }

def setBit (s : Progress) (change : ℤ × Bool) : Option Progress :=
  write outcome connected s [.bit change.1 change.2]

def registers : ℤ → List UInt16 → List Request
  | _, [] => []
  | addr, val :: vals => .register addr val :: registers (addr + 1) vals

/-- Other than `setBit` it makes no attempt without a connection. -/
def setRegisters (s : Progress) (addr : ℤ) (vals : List UInt16) : Option Progress :=
  if connected then write outcome connected s (registers addr vals) else some s

/-- The second loop of `performUpdates`: consecutive addresses are collected in `vals`. -/
def registerLoop : Progress → ℤ → ℤ → List UInt16 → List (ℤ × UInt16) → Option Progress
  | s, start, _, vals, [] =>
    if vals = [] then some s else setRegisters outcome connected s start vals
  | s, start, last, vals, (addr, val) :: changes =>
    if vals = [] then registerLoop s addr addr [val] changes
    else if addr ≠ last + 1 then
      (setRegisters outcome connected s start vals).bind fun s =>
        registerLoop s addr addr [val] changes
    else registerLoop s start addr (vals ++ [val]) changes

structure Queues where
  bitChanges : List (ℤ × Bool)
  registerChanges : List (ℤ × UInt16)

def Queues.requests (q : Queues) : List Request :=
  (q.bitChanges.map fun c => .bit c.1 c.2) ++ q.registerChanges.map fun c => .register c.1 c.2

/-- `performUpdates`, with the queues it leaves: each change is erased whatever its write
returned. -/
def performUpdates (q : Queues) (d : Device) : Option (Progress × Queues) :=
  ((q.bitChanges.foldlM (setBit outcome connected) { device := d }).bind fun s =>
    registerLoop outcome connected s 0 0 [] q.registerChanges).map fun s => (s, ⟨[], []⟩)

end Writing

/-- The runs of consecutive addresses, given the address before. -/
def runCount : Option ℤ → List (ℤ × UInt16) → ℕ
  | _, [] => 0
  | last, c :: changes =>
    (if last = some (c.1 - 1) then 0 else 1) + runCount (some c.1) changes

def Queues.writes (q : Queues) : ℕ := q.bitChanges.length + runCount none q.registerChanges

variable {outcome : ℕ → ℕ → Outcome} {connected : Bool}

theorem registers_append (addr : ℤ) (vals : List UInt16) (val : UInt16) :
    registers addr (vals ++ [val]) =
      registers addr vals ++ [.register (addr + vals.length) val] := by
  induction vals generalizing addr with
  | nil => simp [registers]
  | cons v vals ih =>
    have hadd : addr + 1 + vals.length = addr + (vals.length + 1) := by omega
    simp [registers, ih, hadd]

variable (outcome connected) in
theorem registerLoop_eq (changes : List (ℤ × UInt16)) {start last : ℤ} {vals : List UInt16}
    (hval : vals ≠ []) (hlas : last + 1 = start + vals.length) :
    ∃ groups : List (List Request), [] ∉ groups ∧
      groups.flatten = registers start vals ++ changes.map (fun c => .register c.1 c.2) ∧
      groups.length = 1 + runCount (some last) changes ∧
      ∀ s, registerLoop outcome connected s start last vals changes =
        if connected then groups.foldlM (write outcome connected) s else some s := by
  have hne : registers start vals ≠ [] := by cases vals <;> simp_all [registers]
  induction changes generalizing start last vals with
  | nil =>
    refine ⟨[registers start vals], by simpa using hne.symm, by simp, rfl, fun s => ?_⟩
    simp [registerLoop, hval, setRegisters]
  | cons c changes ih =>
    by_cases hnex : c.1 = last + 1
    · have hval' : vals ++ [c.2] ≠ [] := by simp
      have hlas' : c.1 + 1 = start + ((vals ++ [c.2]).length : ℤ) := by
        simp only [length_append, length_singleton]
        omega
      obtain ⟨groups, hmem, hfla, hlen, hrun⟩ := ih hval' hlas' (by simp [registers_append])
      refine ⟨groups, hmem, ?_, by simp [hlen, runCount, hnex], fun s => ?_⟩
      · rw [hfla, registers_append, ← hlas, ← hnex]
        simp
      · rw [← hrun s, registerLoop, if_neg hval, if_neg (by simpa using hnex)]
    · obtain ⟨groups, hmem, hfla, hlen, hrun⟩ := ih (cons_ne_nil c.2 [])
        (by simp : c.1 + 1 = c.1 + ([c.2].length : ℤ)) (by simp [registers])
      refine ⟨registers start vals :: groups, by simp [hne.symm, hmem], by simp [hfla, registers],
        ?_, fun s => ?_⟩
      · have hfar : ¬last = c.1 - 1 := by omega
        simp [hlen, runCount, hfar, Nat.add_comm]
      · rw [registerLoop, if_neg hval, if_pos hnex, setRegisters, foldlM_cons]
        cases connected with
        | false => exact hrun s
        | true => simp only [hrun, if_true, Option.bind_eq_bind]

open Queues

/-- The writes that are made: without a connection those of the bits only. -/
theorem performUpdates_eq (outcome : ℕ → ℕ → Outcome) (connected : Bool) (q : Queues) (d : Device) :
    ∃ groups : List (List Request), [] ∉ groups ∧
      performUpdates outcome connected q d =
        (groups.foldlM (write outcome connected) { device := d }).map (fun s => (s, ⟨[], []⟩)) ∧
      (connected = true ∨ q.registerChanges = [] →
        groups.flatten = q.requests ∧ groups.length = q.writes) ∧
      (connected = false → groups.flatten.length = q.bitChanges.length) := by
  obtain ⟨bits, changes⟩ := q
  have hloo : ∃ groups : List (List Request), [] ∉ groups ∧
      groups.flatten = changes.map (fun c => .register c.1 c.2) ∧
      groups.length = runCount none changes ∧
      ∀ s, registerLoop outcome connected s 0 0 [] changes =
        if connected then groups.foldlM (write outcome connected) s else some s := by
    cases changes with
    | nil => exact ⟨[], by simp, rfl, rfl, fun s => by simp [registerLoop]⟩
    | cons c changes =>
      obtain ⟨groups, hmem, hfla, hlen, hrun⟩ := registerLoop_eq outcome
        connected changes (cons_ne_nil c.2 []) (by simp : c.1 + 1 = c.1 + ([c.2].length : ℤ))
      exact ⟨groups, hmem, by simp [hfla, registers], by simp [hlen, runCount],
        fun s => by rw [← hrun, registerLoop, if_pos rfl]⟩
  obtain ⟨groups, hmem, hfla, hlen, hrun⟩ := hloo
  have hbit : (bits.map fun c => [Request.bit c.1 c.2]).flatten =
      bits.map fun c => .bit c.1 c.2 := by
    rw [← flatMap_def, ← map_eq_flatMap]
  refine ⟨bits.map (fun c => [.bit c.1 c.2]) ++ if connected then groups else [], ?_, ?_, ?_, ?_⟩
  · cases connected <;> simp [hmem]
  · simp only [performUpdates, foldlM_append, foldlM_map, hrun]
    cases connected <;> rfl
  · rintro (rfl | rfl)
    · simp [hbit, hfla, hlen, requests, writes]
    · obtain rfl := length_eq_zero_iff.mp hlen
      simp [hbit, requests, writes, runCount]
  · rintro rfl
    simp [hbit]

theorem attempts_eq_none {o : ℕ → Outcome} {i n : ℕ} : attempts o true i n = none ↔
    ∃ j < n, o (i + j) = .broken ∧ ∀ k < j, o (i + k) = .again := by
  induction n generalizing i with
  | zero => simp [attempts]
  | succ n ih =>
    simp only [attempts, Nat.exists_lt_succ_left, Nat.forall_lt_succ_left]
    cases o i <;> simp [ih, closeConnection, Nat.add_assoc, Nat.add_comm 1]

theorem attempts_eq_false {o : ℕ → Outcome} {i n : ℕ} : attempts o true i n = some false ↔
    ∀ j < n, o (i + j) = .again := by
  induction n generalizing i with
  | zero => simp [attempts]
  | succ n ih =>
    rw [attempts, Nat.forall_lt_succ_left]
    cases o i <;> simp [ih, closeConnection, Nat.add_assoc, Nat.add_comm 1]

variable (outcome connected) in
theorem write_cases (s : Progress) (g : List Request) :
    (Hangs connected (outcome s.writes) ∧ ¬Lost connected (outcome s.writes) ∧
      write outcome connected s g = none) ∨
    (¬Hangs connected (outcome s.writes) ∧ Lost connected (outcome s.writes) ∧
      write outcome connected s g = some { s with writes := s.writes + 1 }) ∨
    (¬Hangs connected (outcome s.writes) ∧ ¬Lost connected (outcome s.writes) ∧
      write outcome connected s g =
        some ⟨g.foldl Device.apply s.device, s.writes + 1, s.written ++ g⟩) := by
  cases connected with
  | false =>
    have hatt : attempts (outcome s.writes) false 0 3 =
        some (decide (outcome s.writes 0 = .ok)) := by
      rw [attempts]
      cases outcome s.writes 0 <;> rfl
    by_cases hok : outcome s.writes 0 = .ok <;> simp [write, hatt, hok, Hangs, Lost]
  | true =>
    have hnon := attempts_eq_none (o := outcome s.writes) (i := 0) (n := 3)
    have hfal := attempts_eq_false (o := outcome s.writes) (i := 0) (n := 3)
    simp only [Nat.zero_add] at hnon hfal
    simp only [Hangs, Lost, true_and, if_true, ← hnon, ← hfal]
    rcases h : attempts (outcome s.writes) true 0 3 with _ | _ | _ <;> simp [write, h]

theorem foldlM_write_eq_none {groups : List (List Request)} {s : Progress} :
    groups.foldlM (write outcome connected) s = none ↔
      ∃ k < groups.length, Hangs connected (outcome (s.writes + k)) := by
  induction groups generalizing s with
  | nil => simp
  | cons g groups ih =>
    rw [length_cons, Nat.exists_lt_succ_left, foldlM_cons]
    obtain ⟨hhan, -, hwri⟩ | ⟨hhan, -, hwri⟩ | ⟨hhan, -, hwri⟩ := write_cases outcome connected s g
    · simp [hwri, hhan]
    · simp [hwri, hhan, ih, Nat.add_assoc, Nat.add_comm 1]
    · simp [hwri, hhan, ih, Nat.add_assoc, Nat.add_comm 1]

/-- What a run of writes leaves: everything, or less if a write gave up. -/
theorem foldlM_write_eq_some {groups : List (List Request)} (hne : [] ∉ groups) {s s' : Progress}
    (hrun : groups.foldlM (write outcome connected) s = some s') :
    s'.written.length ≤ s.written.length + groups.flatten.length ∧
      ((∀ k < groups.length, ¬Lost connected (outcome (s.writes + k))) →
        s'.device = groups.flatten.foldl Device.apply s.device ∧
        s'.written = s.written ++ groups.flatten) ∧
      ((∃ k < groups.length, Lost connected (outcome (s.writes + k))) →
        s'.written.length < s.written.length + groups.flatten.length) := by
  induction groups generalizing s with
  | nil =>
    obtain rfl := Option.some.inj hrun
    simp
  | cons g groups ih =>
    have hg : 0 < g.length := length_pos_iff.mpr fun h => hne (by simp [h])
    rw [foldlM_cons] at hrun
    rw [length_cons, Nat.forall_lt_succ_left, Nat.exists_lt_succ_left]
    obtain ⟨-, -, hwri⟩ | ⟨-, hex, hwri⟩ | ⟨-, hex, hwri⟩ := write_cases outcome connected s g
    · simp [hwri] at hrun
    · rw [hwri] at hrun
      have hle := (ih (fun h => hne (by simp [h])) hrun).1
      simp only [flatten_cons, length_append] at hle ⊢
      refine ⟨by omega, fun h => absurd hex h.1, fun _ => by omega⟩
    · rw [hwri] at hrun
      obtain ⟨hle, hall, hsom⟩ := ih (fun h => hne (by simp [h])) hrun
      simp only [Nat.add_assoc, Nat.add_comm 1, length_append] at hle hall hsom
      simp only [Nat.add_zero, hex, false_or, not_false_eq_true, true_and, flatten_cons,
        length_append, foldl_append]
      refine ⟨hle, fun h => ⟨(hall h).1, by rw [(hall h).2, append_assoc]⟩, hsom⟩

/-- The updates do not return exactly if one of the writes they make breaks. -/
theorem performUpdates_eq_none_iff (outcome : ℕ → ℕ → Outcome) (q : Queues) (d : Device) :
    performUpdates outcome true q d = none ↔ ∃ k < q.writes, Hangs true (outcome k) := by
  obtain ⟨groups, -, hrun, hall, -⟩ := performUpdates_eq outcome true q d
  rw [hrun, Option.map_eq_none_iff, foldlM_write_eq_none, (hall (.inl rfl)).2]
  simp only [Nat.zero_add]

/-- When nothing fails the device is as after the changes one by one. No change is lost exactly if
none of the writes is, and register changes only with a connection, unless a write does not
return. -/
theorem performUpdates_iff (outcome : ℕ → ℕ → Outcome) (connected : Bool) (q : Queues)
    (d : Device) :
    ((connected = true → (∀ k < q.writes, outcome k 0 = .ok) →
        ∃ s, performUpdates outcome connected q d = some s ∧
          s.1.device = q.requests.foldl Device.apply d) ∧
      ∀ s, performUpdates outcome connected q d = some s →
        q.requests.Subperm (s.1.written ++ s.2.requests)) ↔
    (∃ k < q.writes, Hangs connected (outcome k)) ∨
      (connected = true ∨ q.registerChanges = []) ∧
        ∀ k < q.writes, ¬Lost connected (outcome k) := by
  obtain ⟨groups, hne, hrun, hall, hbit⟩ := performUpdates_eq outcome connected q d
  have hhan : groups.foldlM (write outcome connected) { device := d } = none ↔ _ :=
    foldlM_write_eq_none
  simp only [Nat.zero_add] at hhan
  rw [hrun]
  by_cases hcon : connected = true ∨ q.registerChanges = []
  · obtain ⟨hfla, hlen⟩ := hall hcon
    rw [hlen] at hhan
    rw [← hhan, and_iff_right hcon]
    cases hres : groups.foldlM (write outcome connected) { device := d } with
    | none =>
      refine iff_of_true ⟨fun _ hok => ?_, by simp⟩ (.inl rfl)
      obtain ⟨k, hk, -, i, -, hbro, haga⟩ := hhan.mp hres
      have hfir := hok k hk
      rcases Nat.eq_zero_or_pos i with rfl | hi
      · simp [hfir] at hbro
      · have hfai := haga 0 hi
        simp [hfir] at hfai
    | some s =>
      obtain ⟨-, hdon, hlos⟩ := foldlM_write_eq_some hne hres
      simp only [Nat.zero_add, nil_append, length_nil, hfla, hlen] at hdon hlos
      simp only [Option.map_some, Option.some.injEq, exists_eq_left', forall_eq', reduceCtorEq,
        false_or, append_nil, show requests ⟨[], []⟩ = [] from rfl]
      constructor
      · rintro ⟨-, hsub⟩ k hk hlost
        exact absurd hsub.length_le (Nat.not_le.mpr (hlos ⟨k, hk, hlost⟩))
      · intro h
        refine ⟨fun _ _ => (hdon h).1, ?_⟩
        rw [(hdon h).2]
  · -- without a connection the registers are not written
    obtain ⟨hdis, hreg⟩ := not_or.mp hcon
    rw [Bool.not_eq_true] at hdis
    have hnot : ∀ k, ¬Hangs connected (outcome k) := fun k h => by simp [hdis, Hangs] at h
    simp only [hcon, false_and, or_false, hnot, and_false, exists_false, iff_false, not_and]
    rintro - hsub
    obtain ⟨s, hs⟩ := Option.ne_none_iff_exists'.mp fun h => by simpa [hnot] using hhan.mp h
    have hle := (foldlM_write_eq_some hne hs).1
    have hsub := (hsub (s, ⟨[], []⟩) (by rw [hs]; rfl)).length_le
    have hpos := length_pos_iff.mpr hreg
    simp only [hbit hdis, requests, length_append, length_map, map_nil,
      length_nil] at hle hsub
    omega

/-- A register change whose write fails three times with `EAGAIN` is neither written nor
queued. -/
theorem register_change_lost :
    ∃ s, performUpdates (fun _ _ => .again) true ⟨[], [(5, 1)]⟩ ⟨fun _ => false, fun _ => 0⟩ =
        some s ∧ ¬(Queues.requests ⟨[], [(5, 1)]⟩).Subperm (s.1.written ++ s.2.requests) := by
  refine ⟨_, rfl, fun h => ?_⟩
  exact absurd h.length_le (by decide)

end Clockwork.ModbusUpdates
