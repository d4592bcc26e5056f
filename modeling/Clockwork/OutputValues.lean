import Clockwork.OutputQueue
import Mathlib.Algebra.Ring.Int.Defs

namespace Clockwork.IOComponent

open List Image BitVec

open Image (Byte bit byte setBit)

variable {C M : Type} [DecidableEq C] (a : IOAddress)

def requestFor (v : ℤ) : Request :=
  if a.bitlen = 1 then if v = 0 then .turnOff else .turnOn
  else if a.isSigned then .setSigned (BitVec.ofInt 32 v)
  else .setUnsigned (BitVec.ofInt 32 v)

/-- The values of an address: a point is on or off, a number has the sign of the address. -/
def Representable (v : ℤ) : Prop :=
  if a.bitlen = 1 then v = 0 ∨ v = 1
  else if a.isSigned then -2 ^ (a.bitlen - 1) ≤ v ∧ v < 2 ^ (a.bitlen - 1)
  else 0 ≤ v ∧ v < 2 ^ a.bitlen

instance (a : IOAddress) (v : ℤ) : Decidable (Representable a v) := by
  unfold Representable
  infer_instance

def IOAddress.Within (im : List Byte) : Prop := a.start + a.bitlen ≤ 8 * im.length

def Sets (e : ℕ → Bool) (old new : List Byte) : Prop :=
  new.length = old.length ∧ ∀ b, bit new b = if a.Owns b then e (b - a.start) else bit old b

/-- A value survives the trip to the hardware and back: it has an encoding `e` that its request
writes over the bits of the component, and with these bits in the process data the component
gets the value again. `k` is the component when they come back. -/
def RoundTrip (hw : Hardware C M) (c : C) (v : ℤ) (k : Component) : Prop :=
  ∃ e : ℕ → Bool,
    (∀ s : State C, (hw.address c).Within s.getUpdateData →
      ∃ t, request hw c (requestFor (hw.address c) v) s = some t ∧
        Sets (hw.address c) e s.getUpdateData t.getUpdateData) ∧
    ∀ s : State C, s.hardwareState = .operational → s.component c = k →
      (hw.address c).Within s.processData →
      (∀ b, (hw.address c).Owns b → bit s.processData b = e (b - (hw.address c).start)) →
      ∃ r, handleChange hw c s = some r ∧ (r.1.component c).value.toInt = v

/-- The number that is read for a value: bytes have a sign, words of 16 bits have none. -/
def readBack (bitlen : ℕ) (v : ℤ) : ℤ := if bitlen = 16 then v % 2 ^ 16 else v.bmod (2 ^ bitlen)

def Readable (bitlen : ℕ) (v : ℤ) : Prop :=
  (bitlen = 8 → v < 2 ^ 7) ∧ (bitlen = 16 → 0 ≤ v) ∧ (bitlen = 32 → v < 2 ^ 31)

instance (bitlen : ℕ) (v : ℤ) : Decidable (Readable bitlen v) :=
  inferInstanceAs (Decidable (_ ∧ _))

variable {a : IOAddress} {v : ℤ} {c : C} {hw : Hardware C M} {s : State C}

theorem readBack_eq_iff (hv : Representable a v)
    (hlen : a.bitlen = 8 ∨ a.bitlen = 16 ∨ a.bitlen = 32) :
    readBack a.bitlen v = v ↔ Readable a.bitlen v := by
  unfold Representable at hv
  unfold readBack Readable
  rcases hlen with h | h | h <;>
  · rw [h] at hv ⊢
    cases hs : a.isSigned <;> simp [hs, Int.bmod] at hv ⊢ <;> omega

theorem toInt_readBack {bitlen : ℕ} (hlen : bitlen = 8 ∨ bitlen = 16 ∨ bitlen = 32) (v : ℤ) :
    (BitVec.ofInt 32 (readBack bitlen v)).toInt = readBack bitlen v := by
  unfold readBack
  rcases hlen with rfl | rfl | rfl <;> simp [Int.bmod] <;> omega

theorem readValue_eq {im : List Byte} (hlen : a.bitlen = 8 ∨ a.bitlen = 16 ∨ a.bitlen = 32)
    (hpos : a.ioBitpos % 8 = 0) (hin : a.Within im)
    (hbis : ∀ b, a.Owns b → bit im b = (BitVec.ofInt 32 v).getLsbD (b - a.start)) :
    readValue a im = some (BitVec.ofInt 32 (readBack a.bitlen v)) := by
  have hsta : 8 * (a.ioOffset + a.ioBitpos / 8) = a.start := by
    unfold IOAddress.start
    omega
  unfold IOAddress.Within at hin
  have hrea : ∀ n w, 8 * n = a.bitlen →
      ∃ xs, read im (a.ioOffset + a.ioBitpos / 8) n = some xs ∧
        ofLE w xs = ((BitVec.ofInt 32 v).setWidth (8 * n)).setWidth w := by
    intro n w hn
    have hroo : a.ioOffset + a.ioBitpos / 8 + n ≤ im.length := by omega
    obtain ⟨xs, hxs, hxsl, hbit⟩ := read_spec hroo
    refine ⟨xs, hxs, eq_of_getLsbD_eq fun b hb => ?_⟩
    rw [getLsbD_ofLE, getLsbD_setWidth]
    by_cases hlt : b < 8 * n
    · rw [hbit b hlt, hsta, hbis _ ⟨by omega, by omega⟩]
      simp [hlt]
    · rw [bit_of_le (by omega)]
      simp [hlt]
  unfold readValue
  rcases hlen with h | h | h
  · obtain ⟨xs, hxs, hle⟩ := hrea 1 8 (by omega)
    have hbyt : ofLE 8 xs = BitVec.ofInt 8 v := by
      rw [hle]
      apply BitVec.eq_of_toNat_eq
      simp [toNat_ofInt]
      omega
    simp [h, hxs, hbyt, readBack, signExtend, toInt_ofInt]
  · obtain ⟨xs, hxs, hle⟩ := hrea 2 32 (by omega)
    have hwor : ofLE 32 xs = BitVec.ofInt 32 (v % 2 ^ 16) := by
      rw [hle]
      apply BitVec.eq_of_toNat_eq
      simp [toNat_ofInt]
      omega
    simp [h, hxs, hwor, readBack]
  · obtain ⟨xs, hxs, hle⟩ := hrea 4 32 (by omega)
    have hwor : ofLE 32 xs = BitVec.ofInt 32 (v.bmod (2 ^ 32)) := by
      rw [hle]
      apply BitVec.eq_of_toInt_eq
      simp [toInt_ofInt]
    simp [h, hxs, hwor, readBack]

theorem handleChange_number (hfil : hw.filter c = id) (hpol : hw.regularPolls c = false)
    (hlen : (hw.address c).bitlen = 8 ∨ (hw.address c).bitlen = 16 ∨ (hw.address c).bitlen = 32)
    (hpos : (hw.address c).ioBitpos % 8 = 0) (hs : s.hardwareState = .operational)
    (hin : (hw.address c).Within s.processData) (hbit : ∀ b, (hw.address c).Owns b →
      bit s.processData b = (BitVec.ofInt 32 v).getLsbD (b - (hw.address c).start)) :
    ∃ r, handleChange hw c s = some r ∧ (r.1.component c).value =
      if (s.component c).rawValue = BitVec.ofInt 32 (readBack (hw.address c).bitlen v) then
        (s.component c).value
      else BitVec.ofInt 32 (readBack (hw.address c).bitlen v) := by
  have hone : (hw.address c).bitlen ≠ 1 := by omega
  unfold handleChange
  by_cases hraw :
      (s.component c).rawValue = BitVec.ofInt 32 (readBack (hw.address c).bitlen v)
  · refine ⟨(s, []), ?_, by rw [if_pos hraw]⟩
    simp [hone, readValue_eq hlen hpos hin hbit, hpol, hs, hraw]
  · refine ⟨(s.setComponent c { s.component c with
        rawValue := BitVec.ofInt 32 (readBack (hw.address c).bitlen v)
        value := BitVec.ofInt 32 (readBack (hw.address c).bitlen v) }, []), ?_, ?_⟩
    · simp [hone, readValue_eq hlen hpos hin hbit, hpol, hs, hraw, hfil]
    · simp [State.setComponent, hraw]

theorem request_update_iff {r : Request} (hr : r.Acts hw c) (P : List Byte → Prop) :
    (∃ t, request hw c r s = some t ∧ P t.getUpdateData) ↔
      ∃ data, written (hw.address c) r.event (r.pending (s.component c).pendingValue)
        s.getUpdateData = some data ∧ P data := by
  obtain ⟨e, he⟩ := request_eq (s := s) hr
  rw [he]
  constructor
  · rintro ⟨t, ht, hP⟩
    obtain ⟨data, hdat, rfl⟩ := Option.map_eq_some_iff.mp ht
    exact ⟨data, hdat, hP⟩
  · rintro ⟨data, hdat, hP⟩
    exact ⟨s.requested c r data e, by rw [hdat]; rfl, hP⟩

omit [DecidableEq C] in
theorem requestFor_number (h : (hw.address c).bitlen ≠ 1) :
    (requestFor (hw.address c) v).Acts hw c ∧ (requestFor (hw.address c) v).event = .change ∧
      ∀ p, (requestFor (hw.address c) v).pending p = BitVec.ofInt 32 v := by
  unfold requestFor
  rw [if_neg h]
  cases hs : (hw.address c).isSigned with
  | false => exact ⟨hs, rfl, fun _ => rfl⟩
  | true => exact ⟨hs, rfl, fun _ => rfl⟩

theorem written_number (hlen : a.bitlen = 8 ∨ a.bitlen = 16 ∨ a.bitlen = 32) :
    ∃ n, 8 * n = a.bitlen ∧ ∀ x data, written a .change x data =
      write data (a.ioOffset + a.ioBitpos / 8) (toLE n x) := by
  rcases hlen with h | h | h
  · exact ⟨1, by omega, fun x data => by simp [written, markValue, h]⟩
  · exact ⟨2, by omega, fun x data => by simp [written, markValue, h]⟩
  · exact ⟨4, by omega, fun x data => by simp [written, markValue, h]⟩

theorem written_short (h1 : a.bitlen ≠ 1) (h8 : a.bitlen < 8) (x : BitVec 32) (data : List Byte) :
    written a .change x data = some data := by
  have h16 : a.bitlen ≠ 16 := by omega
  have h32 : a.bitlen ≠ 32 := by omega
  simp [written, markValue, h1, h16, h32, h8.ne]

theorem not_sets_unchanged (hpos : 0 < a.bitlen) {e : ℕ → Bool}
    (h : ∀ im, a.Within im → Sets a e im im) : False := by
  have hown : a.Owns a.start := ⟨le_refl _, by omega⟩
  have hbit : ∀ x : Byte, x.getLsbD (a.start % 8) = e 0 := by
    intro x
    have hin : a.Within (replicate (a.start + a.bitlen) x) := by
      rw [IOAddress.Within, length_replicate]
      omega
    have hset := (h _ hin).2 a.start
    rwa [if_pos hown, Nat.sub_self, bit_replicate (by omega)] at hset
  have hmod : a.start % 8 < 8 := Nat.mod_lt _ (by decide)
  have hzer := hbit 0
  have hone := hbit (allOnes 8)
  rw [getLsbD_allOnes, decide_eq_true hmod] at hone
  rw [← hone] at hzer
  simp at hzer

theorem IOAddress.start_eq : a.start = 8 * (a.ioOffset + a.ioBitpos / 8) + a.ioBitpos % 8 := by
  unfold IOAddress.start
  omega

section WholeBytes

variable {a : IOAddress} {n : ℕ} {x : BitVec 32} {e : ℕ → Bool}

theorem aligned_of_write_sets (hn : 8 * n = a.bitlen) (hpos : 0 < n) (h : ∀ y : Byte, ∃ data,
      write (replicate (a.start + a.bitlen) y) (a.ioOffset + a.ioBitpos / 8)
        (toLE n x) = some data ∧ Sets a e (replicate (a.start + a.bitlen) y) data) :
    a.ioBitpos % 8 = 0 := by
  have hsta := a.start_eq
  by_contra hne
  obtain ⟨data, hdat, hset⟩ := h (if x.getLsbD 0 then 0 else allOnes 8)
  obtain ⟨-, hbit⟩ := write_spec hdat
  have hfir := hset.2 (8 * (a.ioOffset + a.ioBitpos / 8))
  have hnot : ¬a.Owns (8 * (a.ioOffset + a.ioBitpos / 8)) := by
    unfold IOAddress.Owns
    omega
  rw [hbit, length_toLE, if_pos (by omega), if_neg hnot, Nat.sub_self,
    bit_toLE n x (by omega), bit_replicate (by omega)] at hfir
  cases hx : x.getLsbD 0 with
  | false =>
    rw [hx] at hfir
    simp at hfir
  | true =>
    rw [hx] at hfir
    simp at hfir

theorem write_sets_iff (hn : 8 * n = a.bitlen) (hpos : 0 < n) (x : BitVec 32) (e : ℕ → Bool) :
    (∀ im, a.Within im → ∃ data, write im (a.ioOffset + a.ioBitpos / 8) (toLE n x) = some data ∧
        Sets a e im data) ↔ a.ioBitpos % 8 = 0 ∧ ∀ i < a.bitlen, e i = x.getLsbD i := by
  constructor
  · intro h
    have hall : ∀ y : Byte, ∃ data,
        write (replicate (a.start + a.bitlen) y) (a.ioOffset + a.ioBitpos / 8)
          (toLE n x) = some data ∧ Sets a e (replicate (a.start + a.bitlen) y) data := by
      intro y
      refine h _ ?_
      rw [IOAddress.Within, length_replicate]
      omega
    have hali := aligned_of_write_sets hn hpos hall
    have hsta := a.start_eq
    refine ⟨hali, fun i hi => ?_⟩
    obtain ⟨data, hdat, hset⟩ := hall 0
    obtain ⟨-, hbit⟩ := write_spec hdat
    have hi' := hset.2 (a.start + i)
    rw [hbit, length_toLE, if_pos (by omega), if_pos ⟨by omega, by omega⟩,
      Nat.add_sub_cancel_left] at hi'
    rw [← hi', bit_toLE n x (by omega)]
    congr 1
    omega
  · rintro ⟨hali, he⟩ im hin
    have hsta := a.start_eq
    unfold IOAddress.Within at hin
    have hroo : a.ioOffset + a.ioBitpos / 8 + (toLE n x).length ≤ im.length := by
      rw [length_toLE]
      omega
    obtain ⟨data, hdat⟩ := write_isSome hroo
    obtain ⟨hlen, hbit⟩ := write_spec hdat
    refine ⟨data, hdat, hlen, fun b => ?_⟩
    have hown : a.Owns b ↔ 8 * (a.ioOffset + a.ioBitpos / 8) ≤ b ∧
        b < 8 * (a.ioOffset + a.ioBitpos / 8 + n) := by
      unfold IOAddress.Owns
      omega
    rw [hbit, length_toLE]
    simp only [hown]
    split
    · next hb =>
      rw [bit_toLE n x (by omega), he _ (by omega)]
      congr 1
      omega
    · rfl

end WholeBytes

theorem markBit_spec (hlen : a.bitlen = 1) {e : Event} (he : e = .on ∨ e = .off) {im : List Byte}
    (hin : a.Within im) :
    ∃ r, markBit a e im = some r ∧ Sets a (fun _ => decide (e = .on)) im r.1 := by
  have hsta : a.start = 8 * (a.ioOffset + a.ioBitpos / 8) + a.ioBitpos % 8 := by
    unfold IOAddress.start
    omega
  unfold IOAddress.Within at hin
  have hroo : a.ioOffset + a.ioBitpos / 8 < im.length := by omega
  have hmod : a.ioBitpos % 8 < 8 := Nat.mod_lt _ (by decide)
  have hbit : (byte im (a.ioOffset + a.ioBitpos / 8)).getLsbD (a.ioBitpos % 8) = bit im a.start :=
    (bit_eq hsta hmod).symm
  have hown : ∀ b, a.Owns b ↔ b = a.start := by
    unfold IOAddress.Owns
    omega
  have hset : ∀ v, Sets a (fun _ => v) im (im.set (a.ioOffset + a.ioBitpos / 8)
      (setBit (byte im (a.ioOffset + a.ioBitpos / 8)) (a.ioBitpos % 8) v)) := by
    intro v
    refine ⟨length_set .., fun b => ?_⟩
    rw [bit, byte_set hroo]
    simp only [hown]
    by_cases hb : b / 8 = a.ioOffset + a.ioBitpos / 8
    · have hiff : b % 8 = a.ioBitpos % 8 ↔ b = a.start := by omega
      rw [if_pos hb, getLsbD_setBit _ hmod, bit, hb]
      simp only [hiff]
    · have hne : b ≠ a.start := by omega
      rw [if_neg hb, if_neg hne, bit]
  -- a bit that has its value already is left as it is
  have hsam : bit im a.start = decide (e = .on) → Sets a (fun _ => decide (e = .on)) im im := by
    intro h
    refine ⟨rfl, fun b => ?_⟩
    simp only [hown]
    split
    · next hb => rw [hb, h]
    · rfl
  unfold markBit
  by_cases hb : bit im a.start = decide (e = .on)
  · refine ⟨(im, false), ?_, hsam hb⟩
    rcases he with rfl | rfl <;> simp [hroo, hbit, hb]
  · refine ⟨(_, true), ?_, hset (decide (e = .on))⟩
    rcases he with rfl | rfl <;> simpa [hroo, hbit] using hb

theorem handleChange_point (hlen : (hw.address c).bitlen = 1)
    (hin : (hw.address c).Within s.processData) :
    ∃ r, handleChange hw c s = some r ∧ (r.1.component c).value =
      if bit s.processData (hw.address c).start then 1 else 0 := by
  have hsta : (hw.address c).start =
      8 * ((hw.address c).ioOffset + (hw.address c).ioBitpos / 8) +
        (hw.address c).ioBitpos % 8 := by
    unfold IOAddress.start
    omega
  unfold IOAddress.Within at hin
  have hroo : (hw.address c).ioOffset + (hw.address c).ioBitpos / 8 < s.processData.length := by
    omega
  unfold handleChange
  rw [if_pos hlen, if_pos hroo, ← bit_eq hsta (Nat.mod_lt _ (by decide))]
  exact ⟨_, rfl, by simp [State.setComponent]⟩

omit [DecidableEq C] in
theorem requestFor_point (hlen : (hw.address c).bitlen = 1) :
    ((requestFor (hw.address c) v).Acts hw c ↔ hw.isOutput c = true) ∧
      (requestFor (hw.address c) v).event = if v = 0 then .off else .on := by
  unfold requestFor
  rw [if_pos hlen]
  split
  · exact ⟨Iff.rfl, rfl⟩
  · exact ⟨Iff.rfl, rfl⟩

def State.holding (k : Component) (im : List Byte) : State C where
  hardwareState := .operational
  processData := im
  lastProcessData := none
  updateData := some im
  defaultData := none
  defaultMask := none
  updatedComponentsIn := ∅
  updatedComponentsOut := ∅
  updatesSent := false
  outputsWaiting := 0
  component _ := k

theorem roundTrip_point_iff (h1 : (hw.address c).bitlen = 1) (hv : Representable (hw.address c) v)
    (k : Component) : RoundTrip hw c v k ↔ hw.isOutput c = true := by
  obtain ⟨hact, heve⟩ := requestFor_point (v := v) h1
  constructor
  · rintro ⟨e, hset, -⟩
    by_contra hout
    -- the method is empty
    refine not_sets_unchanged (a := hw.address c) (e := e) (by omega) fun im hin => ?_
    obtain ⟨t, ht, hses⟩ := hset (State.holding k im) hin
    rwa [request_of_not_acts (mt hact.mp hout) ht] at hses
  · intro hout
    refine ⟨fun _ => decide (v ≠ 0), fun s hin => ?_, fun s _ _ hin hbit => ?_⟩
    · rw [request_update_iff (hact.mpr hout)]
      have hon : (requestFor (hw.address c) v).event = .on ∨
          (requestFor (hw.address c) v).event = .off := by
        rw [heve]
        split
        · exact .inr rfl
        · exact .inl rfl
      obtain ⟨r, hr, hses⟩ := markBit_spec h1 hon hin
      refine ⟨r.1, by rw [written, if_pos h1, hr]; rfl, ?_⟩
      have hval : decide ((requestFor (hw.address c) v).event = .on) = decide (v ≠ 0) := by
        rw [heve]
        by_cases h0 : v = 0 <;> simp [h0]
      rwa [hval] at hses
    · obtain ⟨r, hr, hvau⟩ := handleChange_point h1 hin
      refine ⟨r, hr, ?_⟩
      rw [hvau, hbit _ ⟨le_refl _, by omega⟩]
      unfold Representable at hv
      rw [if_pos h1] at hv
      rcases hv with rfl | rfl <;> rfl

theorem request_sets_iff (h1 : (hw.address c).bitlen ≠ 1) (v : ℤ) (e : ℕ → Bool) :
    (∀ s : State C, (hw.address c).Within s.getUpdateData →
      ∃ t, request hw c (requestFor (hw.address c) v) s = some t ∧
        Sets (hw.address c) e s.getUpdateData t.getUpdateData) ↔ ∀ im, (hw.address c).Within im →
      ∃ data, written (hw.address c) .change (BitVec.ofInt 32 v) im = some data ∧
        Sets (hw.address c) e im data := by
  obtain ⟨hact, heve, hpen⟩ := requestFor_number (v := v) h1
  simp only [request_update_iff hact, heve, hpen]
  exact ⟨fun h im => h (State.holding ⟨0, 0, 0, .none⟩ im), fun h s => h s.getUpdateData⟩

theorem not_roundTrip_short (hpos : 0 < (hw.address c).bitlen) (h1 : (hw.address c).bitlen ≠ 1)
    (h8 : (hw.address c).bitlen < 8) (v : ℤ) (k : Component) : ¬RoundTrip hw c v k := by
  rintro ⟨e, hset, -⟩
  refine not_sets_unchanged (a := hw.address c) (e := e) hpos fun im hin => ?_
  obtain ⟨data, hdat, hses⟩ := (request_sets_iff h1 v e).mp hset im hin
  rw [written_short h1 h8] at hdat
  rwa [← Option.some.inj hdat] at hses

theorem roundTrip_bytes_iff
    (hlen : (hw.address c).bitlen = 8 ∨ (hw.address c).bitlen = 16 ∨ (hw.address c).bitlen = 32)
    (hfil : hw.filter c = id) (hpol : hw.regularPolls c = false) (v : ℤ) (k : Component) :
    RoundTrip hw c v k ↔ (hw.address c).ioBitpos % 8 = 0 ∧
      (if k.rawValue = BitVec.ofInt 32 (readBack (hw.address c).bitlen v) then k.value
        else BitVec.ofInt 32 (readBack (hw.address c).bitlen v)).toInt = v := by
  obtain ⟨n, hn, hwri⟩ := written_number hlen
  unfold RoundTrip
  simp only [request_sets_iff (by omega : (hw.address c).bitlen ≠ 1), hwri,
    write_sets_iff hn (by omega : 0 < n)]
  constructor
  · rintro ⟨e, ⟨hpos, he⟩, hbac⟩
    refine ⟨hpos, ?_⟩
    have hin : (hw.address c).Within
        (replicate ((hw.address c).start + (hw.address c).bitlen) 0) := by
      rw [IOAddress.Within, length_replicate]
      omega
    obtain ⟨im, -, himl, him⟩ :=
      (write_sets_iff hn (by omega) (BitVec.ofInt 32 v) e).mpr ⟨hpos, he⟩ _ hin
    have hin' : (hw.address c).Within im := by rwa [IOAddress.Within, himl]
    have hbit : ∀ b, (hw.address c).Owns b → bit im b = e (b - (hw.address c).start) :=
      fun b hb => by rw [him, if_pos hb]
    obtain ⟨r, hr, hrv⟩ := hbac (State.holding k im) rfl rfl hin' hbit
    obtain ⟨r', hr', hrv'⟩ := handleChange_number (s := State.holding k im) (v := v) hfil
      hpol hlen hpos rfl hin' fun b hb => by
        have hlow := hb.1
        have hhig := hb.2
        rw [← he _ (by omega)]
        exact hbit b hb
    obtain rfl := Option.some.inj (hr.symm.trans hr')
    exact (congrArg BitVec.toInt hrv').symm.trans hrv
  · rintro ⟨hpos, hval⟩
    refine ⟨fun i => (BitVec.ofInt 32 v).getLsbD i, ⟨hpos, fun _ _ => rfl⟩,
      fun s hs hk hin hbit => ?_⟩
    obtain ⟨r, hr, hrv⟩ := handleChange_number hfil hpol hlen hpos hs hin hbit
    refine ⟨r, hr, ?_⟩
    rw [hrv, hk]
    exact hval

/-- Which values come back: those of outputs of one bit, and numbers of 8, 16 or 32 bits in
whole bytes that are read with the sign they have, unless the component has already read this
raw value and took it for another one. -/
theorem roundTrip_iff (hw : Hardware C M) (c : C)
    (hlen : 1 ≤ (hw.address c).bitlen ∧ (hw.address c).bitlen ≤ 8 ∨
      (hw.address c).bitlen = 16 ∨ (hw.address c).bitlen = 32)
    (hfilter : hw.filter c = id) (hpoll : hw.regularPolls c = false) (v : ℤ)
    (hv : Representable (hw.address c) v) (k : Component) : RoundTrip hw c v k ↔
      (hw.address c).bitlen = 1 ∧ hw.isOutput c = true ∨
      ((hw.address c).bitlen = 8 ∨ (hw.address c).bitlen = 16 ∨ (hw.address c).bitlen = 32) ∧
        (hw.address c).ioBitpos % 8 = 0 ∧
        if k.rawValue = BitVec.ofInt 32 (readBack (hw.address c).bitlen v) then k.value.toInt = v
        else Readable (hw.address c).bitlen v := by
  by_cases h1 : (hw.address c).bitlen = 1
  · rw [or_iff_left (by omega), and_iff_right h1]
    exact roundTrip_point_iff h1 hv k
  · rw [or_iff_right fun h => h1 h.1]
    by_cases h8 : (hw.address c).bitlen < 8
    · exact iff_of_false (not_roundTrip_short (by omega) h1 h8 v k) (by omega)
    · have hbyt : (hw.address c).bitlen = 8 ∨ (hw.address c).bitlen = 16 ∨
          (hw.address c).bitlen = 32 := by omega
      rw [and_iff_right hbyt, roundTrip_bytes_iff hbyt hfilter hpoll]
      refine and_congr_right fun _ => ?_
      split
      · exact Iff.rfl
      · rw [toInt_readBack hbyt, readBack_eq_iff hv hbyt]

def dial : Hardware Unit Unit where
  queue := [()]
  address _ := ⟨0, 0, 8, false⟩
  ioName _ := "dial"
  direction _ := .output
  isOutput _ := true
  owners _ := []
  filter _ := id
  regularPolls _ := false

theorem dial_roundTrip : RoundTrip dial () 100 ⟨0, 0, 0, .none⟩ :=
  (roundTrip_iff dial () (.inl (by decide)) rfl rfl 100 (by decide) ⟨0, 0, 0, .none⟩).mpr
    (.inr ⟨.inl rfl, rfl, by decide⟩)

/-- 200 is written as it is and comes back as -56. -/
theorem dial_reads_negative : ((request dial () (requestFor (dial.address ()) 200)
        (State.holding ⟨0, 0, 0, .none⟩ [0])).map State.getUpdateData) = some [200] ∧
    ((handleChange dial () (State.holding ⟨0, 0, 0, .none⟩ [200])).map fun r =>
        (r.1.component ()).value.toInt) = some (-56) ∧
    Representable (dial.address ()) 200 ∧ ¬RoundTrip dial () 200 ⟨0, 0, 0, .none⟩ := by
  refine ⟨by decide, by decide, by decide, fun h => ?_⟩
  have hval := ((roundTrip_bytes_iff (.inl rfl) rfl rfl 200 ⟨0, 0, 0, .none⟩).mp h).2
  cases hval

end Clockwork.IOComponent
