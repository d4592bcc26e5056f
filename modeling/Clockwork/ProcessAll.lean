import Clockwork.IOComponent
import Clockwork.IOLayout

namespace Clockwork.IOComponent

open Image (Byte bit byte setBit)

variable {C : Type}

section Spec

variable (map : IOMap C) (data mask old : List Byte)

def Differs (b : ℕ) : Prop := bit mask b = true ∧ byte data (b / 8) ≠ byte old (b / 8)

instance (b : ℕ) : Decidable (Differs data mask old b) := inferInstanceAs (Decidable (_ ∧ _))

def previousOwner : ℕ → Option C
  | 0 => none
  | b + 1 =>
    if Differs data mask old b then (map.index b).or (previousOwner b) else previousOwner b

/-- A changed bit that makes `processAll` report its component: between it and the bits of the
component below there is one of another component. -/
def Noticed (c : C) (b : ℕ) : Prop :=
  Differs data mask old b ∧ map.index b = some c ∧ bit data b ≠ bit old b ∧
    ∀ a < b, Differs data mask old a → map.index a = some c →
      ∃ d, a < d ∧ d < b ∧ Differs data mask old d ∧
        ∃ c', map.index d = some c' ∧ c' ≠ c

def mergedBit (b : ℕ) : Bool := bit old b && !bit mask b || bit data b && bit mask b

variable {map data mask old} {b : ℕ}

theorem previousOwner_succ_of_not (h : ¬Differs data mask old b) :
    previousOwner map data mask old (b + 1) = previousOwner map data mask old b := if_neg h

open Option

theorem previousOwner_eq_some_iff {c : C} : previousOwner map data mask old b = some c ↔
      ∃ a < b, Differs data mask old a ∧ map.index a = some c ∧
        ∀ d, a < d → d < b → Differs data mask old d → ∀ c', map.index d = some c' → c' = c := by
  induction b with
  | zero => simp [previousOwner]
  | succ b ih =>
    by_cases hski : Differs data mask old b → map.index b = none
    · -- such a bit is neither the one looked for nor between it and the end
      have hpre : previousOwner map data mask old (b + 1) = previousOwner map data mask old b := by
        by_cases hd : Differs data mask old b
        · rw [previousOwner, if_pos hd, hski hd, none_or]
        · exact previousOwner_succ_of_not hd
      rw [hpre, ih, Nat.exists_lt_succ_right, or_iff_left]
      · refine exists_congr fun a => and_congr_right fun ha => and_congr_right fun _ =>
          and_congr_right fun _ => ⟨fun h d had hdb hd c' hc' => ?_,
            fun h d had hdb => h d had (by omega)⟩
        rcases Nat.lt_succ_iff_lt_or_eq.mp hdb with hlt | rfl
        · exact h d had hlt hd c' hc'
        · rw [hski hd] at hc'
          cases hc'
      · rintro ⟨hd, hc, -⟩
        rw [hski hd] at hc
        cases hc
    · obtain ⟨hd, hind⟩ := Classical.not_imp.mp hski
      obtain ⟨d, hind⟩ := ne_none_iff_exists'.mp hind
      rw [previousOwner, if_pos hd, hind, some_or, some_inj]
      constructor
      · rintro rfl
        exact ⟨b, by omega, hd, hind, fun e hbe heb => by omega⟩
      · rintro ⟨a, ha, -, hc, hall⟩
        rcases Nat.lt_succ_iff_lt_or_eq.mp ha with hlt | rfl
        · exact hall b hlt (by omega) hd d hind
        · exact some.inj (hind.symm.trans hc)

theorem noticed_iff {c : C} : Noticed map data mask old c b ↔
    Differs data mask old b ∧ map.index b = some c ∧ bit data b ≠ bit old b ∧
      previousOwner map data mask old b ≠ some c := by
  refine and_congr_right fun _ => and_congr_right fun _ => and_congr_right fun _ => ?_
  rw [Ne, previousOwner_eq_some_iff]
  push Not
  rfl

theorem noticed_owner_iff {d : C} (hd : Differs data mask old b) (hind : map.index b = some d)
    (hpre : previousOwner map data mask old b ≠ some d) (c : C) :
    Noticed map data mask old c b ↔ c = d ∧ bit data b ≠ bit old b := by
  rw [noticed_iff]
  constructor
  · rintro ⟨-, hc, hne, -⟩
    exact ⟨some.inj (hc.symm.trans hind), hne⟩
  · rintro ⟨rfl, hne⟩
    exact ⟨hd, hind, hne, hpre⟩

theorem mergedBit_of_eq (h : bit mask b = true → bit data b = bit old b) :
    mergedBit data mask old b = bit old b := by
  unfold mergedBit
  cases hm : bit mask b with
  | false => simp
  | true => simp [h hm]

end Spec

variable {map : IOMap C} {data mask old : List Byte}

/-- What the loop has done when it comes to the bit `a`. Besides the components it noticed,
it has reported the `notified` ones. -/
structure Scanned (map : IOMap C) (data mask old : List Byte) (notified : C → Prop) (a : ℕ)
    (r : Scan C) : Prop where
  length : r.processData.length = old.length
  bits : ∀ b, bit r.processData b = if b < a then mergedBit data mask old b else bit old b
  justAdded : r.justAdded = previousOwner map data mask old a
  updated : ∀ c, c ∈ r.updated ↔ notified c ∨ ∃ b < a, Noticed map data mask old c b

variable {notified : C → Prop} {r : Scan C}

variable {c : C} {first : Bool} {i : ℕ} {s : State C} {L : Layout C} {updated : Finset C}

theorem Scanned.updated_succ {a : ℕ} (h : Scanned map data mask old notified a r)
    (hno : ¬Noticed map data mask old c a) :
    c ∈ r.updated ↔ notified c ∨ ∃ b < a + 1, Noticed map data mask old c b := by
  rw [h.updated, Nat.exists_lt_succ_right, or_iff_left hno]

theorem Scanned.skip {a : ℕ} (h : Scanned map data mask old notified a r)
    (hbit : ¬Differs data mask old a) (hmer : mergedBit data mask old a = bit old a) :
    Scanned map data mask old notified (a + 1) r where
  length := h.length
  bits b := by
    rw [h.bits]
    by_cases hb : b = a
    · subst hb
      simp [hmer]
    · have hiff : b < a ↔ b < a + 1 := by omega
      simp only [hiff]
  justAdded := by rw [h.justAdded, previousOwner_succ_of_not hbit]
  updated _ := h.updated_succ fun hn => hbit hn.1

open Image

open List

theorem merge_bit {i j a : ℕ} (ha : a = 8 * i + j) (hj : j < 8) (hi : i < old.length)
    (h : Scanned map data mask old notified a r) (hm : bit mask a = true) {pd : List Byte}
    (hpd : pd = if (byte data i).getLsbD j != (byte r.processData i).getLsbD j then
      r.processData.set i (setBit (byte r.processData i) j ((byte data i).getLsbD j))
      else r.processData) : pd.length = old.length ∧
      ∀ b, bit pd b = if b < a + 1 then mergedBit data mask old b else bit old b := by
  have hset : pd = r.processData.set i
      (setBit (byte r.processData i) j ((byte data i).getLsbD j)) := by
    rw [hpd]
    split
    · rfl
    · next heq =>
      rw [bne_iff_ne, not_not] at heq
      rw [heq, setBit_getLsbD _ hj, set_byte (h.length ▸ hi)]
  refine ⟨by rw [hset, length_set, h.length], fun b => ?_⟩
  have hbit : bit pd b = if b = a then bit data a else bit r.processData b := by
    rw [hset, bit, byte_set (h.length ▸ hi)]
    by_cases hb : b = a
    · have h8 : b / 8 = i := by omega
      have hmod : b % 8 = j := by omega
      rw [if_pos h8, if_pos hb, getLsbD_setBit _ hj, if_pos hmod, bit_eq ha hj]
    · by_cases h8 : b / 8 = i
      · have hmod : b % 8 ≠ j := by omega
        rw [if_pos h8, if_neg hb, getLsbD_setBit _ hj, if_neg hmod, bit, h8]
      · rw [if_neg h8, if_neg hb, bit]
  rw [hbit, h.bits]
  by_cases hb : b = a
  · subst hb
    simp [mergedBit, hm]
  · have hiff : b < a ↔ b < a + 1 := by omega
    simp only [hb, hiff, if_false]

theorem Scanned.skipByte {i n : ℕ} (h : Scanned map data mask old notified (8 * i) r) (hn : n ≤ 8)
    (hsam : byte data i = byte old i ∨ byte mask i = 0) :
    Scanned map data mask old notified (8 * i + n) r := by
  induction n with
  | zero => exact h
  | succ n ih =>
    have h8 : (8 * i + n) / 8 = i := by omega
    refine (ih (by omega)).skip ?_ (mergedBit_of_eq fun hm => ?_)
    · rintro ⟨hm, hne⟩
      rw [h8] at hne
      rcases hsam with heq | hzer
      · exact hne heq
      · rw [bit_eq rfl (by omega), hzer] at hm
        simp at hm
    · rcases hsam with heq | hzer
      · rw [bit_eq rfl (by omega), bit_eq rfl (by omega), heq]
      · rw [bit_eq rfl (by omega), hzer] at hm
        simp at hm

variable [DecidableEq C]

theorem Scanned.scanBit {i j : ℕ} (h : Scanned map data mask old notified (8 * i + j) r)
    (hi : i < old.length) (hj : j < 8) (hdif : byte data i ≠ byte old i) :
    Scanned map data mask old notified (8 * i + j + 1)
      (IOComponent.scanBit map (byte data i) (byte mask i) i r j) := by
  have hmas : bit mask (8 * i + j) = (byte mask i).getLsbD j := bit_eq rfl hj
  have h8 : (8 * i + j) / 8 = i := by omega
  unfold IOComponent.scanBit
  split
  · next hm =>
    have hd : Differs data mask old (8 * i + j) := ⟨hmas.trans hm, by rw [h8]; exact hdif⟩
    obtain ⟨hlen, hbit⟩ := merge_bit rfl hj hi h (hmas.trans hm) rfl
    -- the bit was not merged before
    have hold : (byte r.processData i).getLsbD j = bit old (8 * i + j) := by
      rw [← bit_eq rfl hj, h.bits, if_neg (by omega)]
    have hcha : ((byte data i).getLsbD j != (byte r.processData i).getLsbD j) = true ↔
        bit data (8 * i + j) ≠ bit old (8 * i + j) := by
      rw [hold, ← bit_eq rfl hj, bne_iff_ne]
    have hpre : previousOwner map data mask old (8 * i + j + 1) =
        (map.index (8 * i + j)).or (previousOwner map data mask old (8 * i + j)) := if_pos hd
    cases hind : map.index (8 * i + j) with
    | none =>
      refine ⟨hlen, hbit, ?_, fun c => ?_⟩
      · rw [h.justAdded, hpre, hind, Option.none_or]
      · apply h.updated_succ
        rintro ⟨-, hc, -⟩
        rw [hind] at hc
        cases hc
    | some d =>
      dsimp only
      split
      · next hjus =>
        refine ⟨hlen, hbit, ?_, fun c => ?_⟩
        · rw [hjus, hpre, hind, Option.some_or]
        · apply h.updated_succ
          rw [noticed_iff]
          rintro ⟨-, hc, -, hne⟩
          rw [hind, ← hjus, h.justAdded] at hc
          exact hne hc
      · next hjus =>
        refine ⟨hlen, hbit, by rw [hpre, hind, Option.some_or], fun c => ?_⟩
        have hoth : previousOwner map data mask old (8 * i + j) ≠ some d :=
          fun hp => hjus (h.justAdded.trans hp)
        rw [Nat.exists_lt_succ_right, noticed_owner_iff hd hind hoth, ← or_assoc, ← h.updated]
        split
        · next hne => simp [hcha.mp hne, or_comm]
        · next hne =>
          have heq : bit data (8 * i + j) = bit old (8 * i + j) := by
            by_contra hcon
            exact hne (hcha.mpr hcon)
          simp [heq]
  · next hm =>
    refine h.skip (fun hd => hm (hmas ▸ hd.1)) (mergedBit_of_eq fun hb => ?_)
    exact absurd (hmas ▸ hb) hm

theorem Scanned.scanBits {i n : ℕ} (h : Scanned map data mask old notified (8 * i) r)
    (hi : i < old.length) (hn : n ≤ 8) (hdif : byte data i ≠ byte old i) :
    Scanned map data mask old notified (8 * i + n)
      ((range n).foldl (IOComponent.scanBit map (byte data i) (byte mask i) i) r) := by
  induction n with
  | zero => exact h
  | succ n ih =>
    rw [range_succ, foldl_append]
    exact (ih (by omega)).scanBit hi (by omega) hdif

def NotifiedBelow (map : IOMap C) (first : Bool) (mask : List Byte) (n : ℕ) (c : C) : Prop :=
  first = true ∧ ∃ i < n, byte mask i ≠ 0 ∧ c ∈ map.ioMap.getD i []

theorem mem_notifyFirst {updated updated' : Finset C}
    (h : notifyFirst map first mask i updated = some updated') (c : C) :
    c ∈ updated' ↔ c ∈ updated ∨ first = true ∧ byte mask i ≠ 0 ∧ c ∈ map.ioMap.getD i [] := by
  unfold notifyFirst at h
  split at h
  · next hfir =>
    unfold notifyComponentsAt at h
    split at h
    · cases h
      rw [Finset.mem_union, mem_toFinset]
      exact or_congr_right ⟨fun hc => ⟨hfir.1, hfir.2, hc⟩, fun hc => hc.2.2⟩
    · cases h
  · next hfir =>
    cases h
    exact (or_iff_left fun hc => hfir ⟨hc.1, hc.2.1⟩).symm

theorem scanByte_spec {In : Finset C} {r' : Scan C}
    (h : Scanned map data mask old (fun c => c ∈ In ∨ NotifiedBelow map first mask i c) (8 * i) r)
    (hi : i < old.length) (hr : scanByte map first data mask r i = some r') :
    Scanned map data mask old (fun c => c ∈ In ∨ NotifiedBelow map first mask (i + 1) c)
      (8 * (i + 1)) r' := by
  obtain ⟨updated, hupd, hr⟩ := Option.bind_eq_some_iff.mp hr
  cases hr
  have hnot : Scanned map data mask old
      (fun c => c ∈ In ∨ NotifiedBelow map first mask (i + 1) c) (8 * i)
      { r with updated := updated } := by
    refine ⟨h.length, h.bits, h.justAdded, fun c => ?_⟩
    have hmor : NotifiedBelow map first mask (i + 1) c ↔ NotifiedBelow map first mask i c ∨
        first = true ∧ byte mask i ≠ 0 ∧ c ∈ map.ioMap.getD i [] := by
      rw [NotifiedBelow, Nat.exists_lt_succ_right, and_or_left, NotifiedBelow]
    rw [mem_notifyFirst hupd, h.updated, hmor, or_right_comm, or_assoc (a := c ∈ In)]
  have hbyt : byte r.processData i = byte old i := by
    refine byte_eq fun j _ => ?_
    rw [h.bits, if_neg (by omega)]
  unfold mergeByte
  rw [hbyt]
  split
  · next hdif => exact hnot.scanBits hi (le_refl 8) hdif.1
  · next hdif =>
    rw [not_and_or, not_not, not_not] at hdif
    exact hnot.skipByte (le_refl 8) hdif

theorem scan_spec (hlen : s.processData.length = map.processDataSize)
    (h : scan map data mask s = some r) : Scanned map data mask s.processData
      (fun c => c ∈ s.updatedComponentsIn ∨
        NotifiedBelow map s.lastProcessData.isNone mask map.processDataSize c)
      (8 * map.processDataSize) r := by
  have hrun : ∀ n ≤ map.processDataSize, ∀ r, (range n).foldlM
      (scanByte map s.lastProcessData.isNone data mask)
      ⟨s.processData, none, s.updatedComponentsIn⟩ = some r →
      Scanned map data mask s.processData (fun c => c ∈ s.updatedComponentsIn ∨
        NotifiedBelow map s.lastProcessData.isNone mask n c) (8 * n) r := by
    intro n
    induction n with
    | zero =>
      intro _ r hr
      cases hr
      exact ⟨rfl, fun b => by simp, rfl, fun c => by simp [NotifiedBelow]⟩
    | succ n ih =>
      intro hn r hr
      rw [range_succ, foldlM_append] at hr
      obtain ⟨r₀, hr₀, hr⟩ := Option.bind_eq_some_iff.mp hr
      exact scanByte_spec (ih (by omega) r₀ hr₀) (by omega) (by simpa using hr)
  exact hrun _ (le_refl _) r h

theorem notifyFirst_isSome_iff (updated : Finset C) (hi : i ≤ map.maxOffset) :
    (∃ updated', notifyFirst map first mask i updated = some updated') ↔
      (first = true → byte mask i ≠ 0 → map.minOffset ≤ i) := by
  unfold notifyFirst notifyComponentsAt
  split
  · next hfir =>
    split
    · next hin => exact ⟨fun _ _ _ => hin.2, fun _ => ⟨_, rfl⟩⟩
    · next hout =>
      constructor
      · rintro ⟨_, h⟩
        cases h
      · intro h
        exact absurd ⟨hi, h hfir.1 hfir.2⟩ hout
  · next hfir => exact ⟨fun _ hf hm => absurd ⟨hf, hm⟩ hfir, fun _ => ⟨_, rfl⟩⟩

theorem scan_isSome_iff (data : List Byte) :
    (∃ r, scan map data mask s = some r) ↔ (s.lastProcessData = none →
      ∀ i < map.processDataSize, byte mask i ≠ 0 → map.minOffset ≤ i) := by
  have hbyt : ∀ (r : Scan C) (i : ℕ), i < map.processDataSize →
      ((∃ r', scanByte map s.lastProcessData.isNone data mask r i = some r') ↔
        (s.lastProcessData = none → byte mask i ≠ 0 → map.minOffset ≤ i)) := by
    intro r i hi
    rw [← Option.isNone_iff_eq_none, ← notifyFirst_isSome_iff r.updated (Nat.lt_succ_iff.mp hi)]
    constructor
    · rintro ⟨r', hr'⟩
      obtain ⟨updated, hupd, -⟩ := Option.bind_eq_some_iff.mp hr'
      exact ⟨updated, hupd⟩
    · rintro ⟨updated, hupd⟩
      exact ⟨_, by rw [scanByte, hupd]; rfl⟩
  have hrun : ∀ n ≤ map.processDataSize, ((∃ r, (range n).foldlM
      (scanByte map s.lastProcessData.isNone data mask)
      ⟨s.processData, none, s.updatedComponentsIn⟩ = some r) ↔
      (s.lastProcessData = none → ∀ i < n, byte mask i ≠ 0 → map.minOffset ≤ i)) := by
    intro n
    induction n with
    | zero => simp
    | succ n ih =>
      intro hn
      have hn' : n < map.processDataSize := by omega
      rw [range_succ, foldlM_append]
      constructor
      · rintro ⟨r, hr⟩ hfir i hi
        obtain ⟨r₀, hr₀, hr⟩ := Option.bind_eq_some_iff.mp hr
        rcases Nat.lt_succ_iff_lt_or_eq.mp hi with hi | rfl
        · exact (ih (by omega)).mp ⟨r₀, hr₀⟩ hfir i hi
        · exact (hbyt r₀ i hn').mp ⟨r, by simpa using hr⟩ hfir
      · intro h
        obtain ⟨r₀, hr₀⟩ := (ih (by omega)).mpr fun hf i hi => h hf i (by omega)
        obtain ⟨r, hr⟩ := (hbyt r₀ n hn').mpr fun hf => h hf n (by omega)
        exact ⟨r, by rw [hr₀]; simpa using hr⟩
  exact hrun _ (le_refl _)

def Reported (L : Layout C) (map : IOMap C) (mask data : List Byte) (s : State C) (c : C) : Prop :=
  c ∈ s.updatedComponentsIn ∨
    (s.lastProcessData = none ∧ L.ioName c ≠ "" ∧ byte mask (L.address c).firstByte ≠ 0) ∨
    ∃ b, Noticed map data mask s.processData c b

theorem reported_of_mem (hmap : setupIOMap L = some map)
    (hold : s.processData.length = map.processDataSize) (hsca : scan map data mask s = some r)
    (hc : c ∈ r.updated) : Reported L map mask data s c := by
  rcases ((scan_spec hold hsca).updated c).mp hc with (hin | ⟨hfir, i, -, hi, hmem⟩) | ⟨b, -, hb⟩
  · exact .inl hin
  · obtain ⟨-, hnam, rfl⟩ := (mem_ioMap hmap).mp hmem
    exact .inr (.inl ⟨Option.isNone_iff_eq_none.mp hfir, hnam, hi⟩)
  · exact .inr (.inr ⟨b, hb⟩)

theorem mem_of_reported (hmap : setupIOMap L = some map)
    (hold : s.processData.length = map.processDataSize)
    (hmas : mask.length = map.processDataSize) (hsca : scan map data mask s = some r)
    (hc : c ∈ L.queue) (h : Reported L map mask data s c) : c ∈ r.updated := by
  rw [(scan_spec hold hsca).updated]
  rcases h with hin | ⟨hfir, hnam, hi⟩ | ⟨b, hb⟩
  · exact .inl (.inl hin)
  · refine .inl (.inr ⟨Option.isNone_iff_eq_none.mpr hfir, _, ?_, hi,
      (mem_ioMap hmap).mpr ⟨hc, hnam, rfl⟩⟩)
    by_contra hlt
    exact hi (by simp [byte, hmas ▸ Nat.le_of_not_lt hlt])
  · refine .inr ⟨b, ?_, hb⟩
    -- beyond the end of the mask nothing differs
    by_contra hlt
    have hzer : bit mask b = false := bit_of_le (by omega)
    exact Bool.false_ne_true (hzer.symm.trans hb.1.1)

theorem scan_bit (hold : s.processData.length = map.processDataSize)
    (hmas : mask.length = map.processDataSize) (hsca : scan map data mask s = some r) (b : ℕ) :
    bit r.processData b = mergedBit data mask s.processData b := by
  rw [(scan_spec hold hsca).bits]
  split
  · rfl
  · have hzer : bit mask b = false := bit_of_le (by omega)
    simp [mergedBit, hzer]

def Changes (L : Layout C) (data mask old : List Byte) (c : C) : Prop :=
  ∃ b, (L.address c).Owns b ∧ bit mask b = true ∧ bit data b ≠ bit old b

def State.scanned (s : State C) (r : Scan C) : State C :=
  { s with
    processData := r.processData
    lastProcessData :=
      if s.hardwareState = .operational then some r.processData else s.lastProcessData
    updatedComponentsIn := r.updated }

theorem processAll_eq (hs : s.hardwareState ≠ .preinit)
    (hdat : data.length = map.processDataSize) (hmas : mask.length = map.processDataSize) :
    processAll map mask data updated s =
      (scan map data mask s).map fun r => (s.scanned r).finish updated := by
  rw [processAll, if_pos ⟨hdat, hmas⟩, if_neg hs]
  cases scan map data mask s <;> rfl

theorem finish_spec (s : State C) (updated : Finset C) :
    (s.finish updated).1 = updated ∪ s.updatedComponentsIn ∧
      (s.finish updated).2.processData = s.processData ∧
      (s.finish updated).2.hardwareState = s.hardwareState := by
  unfold State.finish
  split
  · next h => simp [h]
  · exact ⟨rfl, rfl, rfl⟩

variable {r : Finset C × State C}

theorem processAll_merges (hs : s.hardwareState ≠ .preinit)
    (hold : s.processData.length = map.processDataSize)
    (h : processAll map mask data updated s = some r) :
    r.2.hardwareState = s.hardwareState ∧ r.2.processData.length = map.processDataSize ∧
      ∀ b, bit r.2.processData b = mergedBit data mask s.processData b := by
  have hlen : data.length = map.processDataSize ∧ mask.length = map.processDataSize := by
    by_contra hnot
    rw [processAll, if_neg hnot] at h
    cases h
  rw [processAll_eq hs hlen.1 hlen.2] at h
  obtain ⟨scanned, hsca, rfl⟩ := Option.map_eq_some_iff.mp h
  obtain ⟨-, hpro, hsta⟩ := finish_spec (s.scanned scanned) updated
  refine ⟨hsta, ?_, fun b => ?_⟩
  · rw [hpro]
    exact (scan_spec hold hsca).length.trans hold
  · rw [hpro]
    exact scan_bit hold hlen.2 hsca b

/-- All that `processAll` changes of a state. Nothing leaves the queue of requests unless some
component is reported. -/
theorem processAll_frame (hmap : setupIOMap L = some map)
    (hold : s.processData.length = map.processDataSize)
    (h : processAll map mask data updated s = some r) :
    ∃ processData last updatedIn n, ∃ reported : Finset C,
      processData.length = map.processDataSize ∧
      (∀ c ∈ reported, Reported L map mask data s c) ∧
      r.2 = { s with
        processData := processData
        lastProcessData := last
        updatedComponentsIn := updatedIn
        updatedComponentsOut := if reported = ∅ then s.updatedComponentsOut else s.settle reported
        outputsWaiting := n } := by
  have hlen : data.length = map.processDataSize ∧ mask.length = map.processDataSize := by
    by_contra hnot
    rw [processAll, if_neg hnot] at h
    cases h
  by_cases hs : s.hardwareState = .preinit
  · rw [processAll, if_pos hlen, if_pos hs] at h
    cases h
    exact ⟨data, s.lastProcessData, s.updatedComponentsIn, s.outputsWaiting, ∅, hlen.1, by simp,
      by simp⟩
  · rw [processAll_eq hs hlen.1 hlen.2] at h
    obtain ⟨scanned, hsca, rfl⟩ := Option.map_eq_some_iff.mp h
    refine ⟨scanned.processData, (s.scanned scanned).lastProcessData,
      ((s.scanned scanned).finish updated).2.updatedComponentsIn,
      ((s.scanned scanned).finish updated).2.outputsWaiting, scanned.updated,
      (scan_spec hold hsca).length.trans hold, fun c => reported_of_mem hmap hold hsca, ?_⟩
    unfold State.finish
    by_cases hnon : scanned.updated = ∅
    · simp [State.scanned, hnon]
    · simp only [State.scanned, hnon, if_false]
      rfl

/-- The data is always merged as the mask says. The components whose bits change are all
reported exactly if the loop has a reason to report each of them. -/
theorem processAll_reports_iff {L : Layout C} (hmap : setupIOMap L = some map) (s : State C)
    (hs : s.hardwareState = .operational) (hold : s.processData.length = map.processDataSize)
    (hdata : data.length = map.processDataSize) (hmask : mask.length = map.processDataSize)
    (updated : Finset C) : (∃ r, processAll map mask data updated s = some r ∧
      r.2.processData.length = map.processDataSize ∧
      (∀ b, bit r.2.processData b = mergedBit data mask s.processData b) ∧
      ∀ c ∈ L.queue, Changes L data mask s.processData c → c ∈ r.1) ↔
    (s.lastProcessData = none → ∀ i < map.processDataSize, byte mask i ≠ 0 → map.minOffset ≤ i) ∧
      ∀ c ∈ L.queue, Changes L data mask s.processData c →
        c ∈ updated ∨ Reported L map mask data s c := by
  rw [processAll_eq (by simp [hs]) hdata hmask, ← scan_isSome_iff data]
  cases hsca : scan map data mask s with
  | none => simp
  | some r =>
    obtain ⟨hupd, hpro, -⟩ := finish_spec (s.scanned r) updated
    have hmem : ∀ c ∈ L.queue,
        (c ∈ ((s.scanned r).finish updated).1 ↔ c ∈ updated ∨ Reported L map mask data s c) := by
      intro c hc
      rw [hupd, Finset.mem_union]
      exact or_congr_right ⟨reported_of_mem hmap hold hsca, mem_of_reported hmap hold hmask hsca hc⟩
    constructor
    · rintro ⟨_, hr, -, -, hall⟩
      cases hr
      exact ⟨⟨r, rfl⟩, fun c hc hch => (hmem c hc).mp (hall c hc hch)⟩
    · rintro ⟨-, hall⟩
      refine ⟨_, rfl, ?_, ?_, fun c hc hch => (hmem c hc).mpr (hall c hc hch)⟩
      · rw [hpro]
        exact (scan_spec hold hsca).length.trans hold
      · rw [hpro]
        exact scan_bit hold hmask hsca

def pair : Layout Unit where
  queue := [()]
  address _ := ⟨0, 0, 2, false⟩
  ioName _ := "pair"

def pairMap : IOMap Unit := ⟨0, 0, [some (), some (), none, none, none, none, none, none],
  [[()]], [3]⟩

def pairState : State Unit where
  hardwareState := .operational
  processData := [0]
  lastProcessData := some [0]
  updateData := none
  defaultData := none
  defaultMask := none
  updatedComponentsIn := ∅
  updatedComponentsOut := ∅
  updatesSent := true
  outputsWaiting := 0
  component _ := ⟨0, 0, 0, .none⟩

/-- A change of the upper bit is reported if only this bit is in the mask. -/
theorem pair_reported : ∃ r, processAll pairMap [2] [2] ∅ pairState = some r ∧
    r.2.processData.length = 1 ∧ (∀ b, bit r.2.processData b = mergedBit [2] [2] [0] b) ∧
    ∀ c ∈ pair.queue, Changes pair [2] [2] [0] c → c ∈ r.1 := by
  refine (processAll_reports_iff (L := pair) (by decide) pairState rfl rfl rfl rfl ∅).mpr
    ⟨by decide, fun c _ _ => Or.inr (Or.inr (Or.inr ⟨1, by decide, rfl, by decide, ?_⟩))⟩
  intro a ha hd
  obtain rfl : a = 0 := by omega
  exact absurd hd (by decide)

/-- With the whole component in the mask the same change is merged, but it is not reported:
the loop comes to the lower bit first, which has not changed. -/
theorem pair_not_reported :
    ((processAll pairMap [3] [2] ∅ pairState).map fun r => (r.1, r.2.processData)) =
      some (∅, [2]) ∧ setupIOMap pair = some pairMap ∧ Changes pair [2] [3] [0] () :=
  ⟨by decide, by decide, 1, by decide, by decide, by decide⟩

end Clockwork.IOComponent
