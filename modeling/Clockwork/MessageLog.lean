import Clockwork.Library.Runs
import Mathlib.Algebra.Ring.Nat
import Mathlib.Data.List.Infix
import Mathlib.Data.List.TakeWhile

namespace Clockwork.MessageLog

open List Runs

abbrev Text := List Char

/-- The entries, oldest first; `current_memory` is an `unsigned int`. -/
structure Log where
  entries : List Text
  currentMemory : UInt32

def cString (t : Text) : Text := t.takeWhile (· ≠ '\x00')

inductive Call where
  /-- `add` with strings, which may hold a NUL; the time is put in front -/
  | addStrings (time a b c d : Text)
  | addText (time text : Text)
  | purge

/-- The text that is to be added. -/
def Call.message : Call → Option Text
  | .addStrings time a b c d => some (cString time ++ (a ++ b ++ c ++ d))
  | .addText time text => some (cString time ++ cString text)
  | .purge => none

def sizeofLogEntry : ℕ := 40

/-- `LogEntry::size` -/
def size (t : Text) : ℕ := t.length + 1 + sizeofLogEntry

def memory (es : List Text) : ℕ := (es.map size).sum

variable (maxMemory : UInt32)

/-- The loop that discards the oldest entries. -/
def trim (extra : ℕ) : List Text → UInt32 → Log
  | [], m => ⟨[], m⟩
  | e :: es, m =>
    if maxMemory.toNat < m.toNat + extra then trim extra es (m - .ofNat (size e))
    else ⟨e :: es, m⟩

def store (extra : ℕ) (text : Text) (log : Log) : Log :=
  let r := trim maxMemory extra log.entries log.currentMemory
  ⟨r.entries ++ [text], r.currentMemory + .ofNat extra⟩

def add (msg : Text) (log : Log) : Log :=
  store maxMemory (msg.length + 1 + sizeofLogEntry) (cString msg) log

def perform (log : Log) (c : Call) : Log :=
  match c.message with
  | some msg => add maxMemory msg log
  | none => { log with entries := [] }

/-- The messages since the last `purge`. -/
def since (msgs : List Text) (c : Call) : List Text :=
  match c.message with
  | some msg => msgs ++ [msg]
  | none => []

structure Accurate (log : Log) (msgs : List Text) : Prop where
  memory : log.currentMemory.toNat = memory log.entries
  entries : log.entries <:+ msgs

/-- An entry is discarded only if it and the later ones do not leave room for the message. -/
def Justified (log : Log) (c : Call) : Prop :=
  ∀ msg, c.message = some msg → ∃ kept, (perform maxMemory log c).entries = kept ++ [msg] ∧
    kept <:+ log.entries ∧ ∀ front e later, log.entries = front ++ e :: later → kept <:+ later →
      maxMemory.toNat < memory (e :: later) + size msg

def Safe (log : Log) (c : Call) : Prop :=
  match c.message with
  | some msg => '\x00' ∉ msg ∧ size msg < 4294967296
  | none => log.entries = []

theorem trim_spec (extra : ℕ) {es : List Text} {m : UInt32} (hm : m.toNat = memory es) :
    ∃ r, trim maxMemory extra es m = r ∧ r.entries <:+ es ∧
      r.currentMemory.toNat = memory r.entries ∧
      (r.entries = [] ∨ r.currentMemory.toNat + extra ≤ maxMemory.toNat) ∧
      ∀ front e later, es = front ++ e :: later → r.entries <:+ later →
        maxMemory.toNat < memory (e :: later) + extra := by
  refine ⟨_, rfl, ?_⟩
  induction es generalizing m with
  | nil => simp [trim, hm, memory]
  | cons e es ih =>
    have hcon : memory (e :: es) = size e + memory es := by
      simp [memory]
    rw [trim]
    split
    · next hful =>
      have hsub : (m - .ofNat (size e)).toNat = memory es := by
        have := m.toNat_lt
        rw [UInt32.toNat_sub, UInt32.toNat_ofNat']
        omega
      obtain ⟨hsuf, hmem, hroo, hdis⟩ := ih hsub
      refine ⟨hsuf.trans (suffix_cons e es), hmem, hroo, fun front e' later heq hlat => ?_⟩
      cases front with
      | nil =>
        obtain ⟨rfl, rfl⟩ := cons.inj heq
        rwa [← hm]
      | cons f front => exact hdis front e' later (cons.inj heq).2 hlat
    · next hroo =>
      refine ⟨suffix_rfl, hm, .inr (Nat.le_of_not_lt hroo), fun front e' later heq hlat => ?_⟩
      -- all of it was kept
      have hlen := congrArg length heq
      have hle := hlat.length_le
      simp only [length_append, length_cons] at hlen hle
      omega

variable {maxMemory}

theorem cString_eq_self_iff {t : Text} : cString t = t ↔ '\x00' ∉ t := by
  simp only [cString, takeWhile_eq_self_iff, decide_eq_true_eq]
  exact ⟨fun h h0 => h _ h0 rfl, fun h c hc h0 => h (h0 ▸ hc)⟩

theorem step_right_iff {log : Log} {msgs : List Text} (h : Accurate log msgs) (c : Call) :
    Accurate (perform maxMemory log c) (since msgs c) ∧ Justified maxMemory log c ↔ Safe log c := by
  unfold Justified perform since Safe
  cases hmsg : c.message with
  | none =>
    simp only [reduceCtorEq, false_implies, implies_true, and_true]
    constructor
    · intro hacc
      have hmem := h.memory.symm.trans hacc.memory
      cases hent : log.entries with
      | nil => rfl
      | cons e es => simp [memory, hent, size] at hmem
    · intro hnil
      exact ⟨by rw [h.memory, hnil], nil_suffix⟩
  | some msg =>
    obtain ⟨r, hr, hsuf, hmem, hroo, hdis⟩ := trim_spec maxMemory (size msg) h.memory
    have hadd : add maxMemory msg log =
        ⟨r.entries ++ [cString msg], r.currentMemory + .ofNat (size msg)⟩ := by
      rw [← hr]
      rfl
    have hnew : (r.currentMemory + .ofNat (size msg)).toNat =
        (memory r.entries + size msg) % 4294967296 := by
      rw [UInt32.toNat_add, UInt32.toNat_ofNat', ← hmem, Nat.add_mod_mod]
    have hcon (t : Text) : memory (r.entries ++ [t]) = memory r.entries + size t := by
      simp [memory]
    simp only [hadd]
    constructor
    · rintro ⟨⟨hacc, p, hp⟩, -⟩
      rw [← append_assoc] at hp
      have hsam := singleton_inj.mp (append_inj' hp rfl).2
      rw [hnew, hcon, hsam] at hacc
      exact ⟨cString_eq_self_iff.mp hsam, by omega⟩
    · rintro ⟨hnul, hsho⟩
      have hsam := cString_eq_self_iff.mpr hnul
      have hfit : memory r.entries + size msg < 4294967296 := by
        have := maxMemory.toNat_lt
        rcases hroo with hnil | hroo
        · rwa [hnil, memory, map_nil, sum_nil, Nat.zero_add]
        · omega
      rw [hsam]
      refine ⟨⟨by rw [hnew, hcon, Nat.mod_eq_of_lt hfit], ?_⟩, ?_⟩
      · obtain ⟨p, hp⟩ := hsuf.trans h.entries
        exact ⟨p, by rw [← append_assoc, hp]⟩
      · rintro _ ⟨⟩
        exact ⟨r.entries, rfl, hsuf, hdis⟩

/-- A call on a log, with the messages since the last `purge`. -/
def Step (maxMemory : UInt32) (s : Log × List Text) (c : Call) (t : Log × List Text) : Prop :=
  t = (perform maxMemory s.1 c, since s.2 c)

/-- The histories in which the log is right after every call are those in which every message is
short enough to be counted and holds no NUL, and only an empty log is purged. -/
theorem log_right_iff (maxMemory : UInt32) (cs : List Call) (t : Log × List Text) :
    Run (Guarded (Step maxMemory) fun s c t => Accurate t.1 t.2 ∧ Justified maxMemory s.1 c)
        (⟨[], 0⟩, []) cs t ↔
      Run (Guarded (Step maxMemory) fun s c _ => Safe s.1 c) (⟨[], 0⟩, []) cs t := by
  refine run_guarded_congr (I := fun s => Accurate s.1 s.2) ?_ (fun _ _ _ _ _ h => h.1)
    ⟨rfl, nil_suffix⟩
  rintro s c _ hs rfl
  exact step_right_iff hs c

/-- After a `purge` the memory of the entry that is gone is still counted. -/
theorem purged_memory_counted : ∃ msgs, Run (Step 2097152) (⟨[], 0⟩, [])
    [.addText "now ".toList "up".toList, .purge] (⟨[], 47⟩, msgs) :=
  ⟨_, .cons rfl (.cons rfl (.nil _))⟩

end Clockwork.MessageLog
