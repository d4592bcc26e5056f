import Clockwork.ProcessAll
import Clockwork.Library.Runs

namespace Clockwork.IOComponent

open Option

open Image (Byte bit byte setBit)
open Runs (Run Guarded)

variable {C : Type}

def changedBits (pm last pd : Byte) : Byte × ℕ :=
  (List.range 8).foldl
    (fun r j =>
      if pm.getLsbD j && (pd.getLsbD j != last.getLsbD j) then (setBit r.1 j true, r.2 + 1) else r)
    (0, 0)

/-- One byte of `collectState`: until there is process data to compare with, all of the process
mask is sent. -/
def collectByte (pm pd : Byte) : Option Byte → Byte × ℕ
  | none => (pm, 1)
  | some last => if last ≠ pd then changedBits pm last pd else (0, 0)

structure Collected where
  data : List Byte
  mask : List Byte
  affectedBits : ℕ
deriving DecidableEq, Repr

variable (pm : List Byte)

/-- `collectState` for the process mask, the process data saved last, and the data of the
domain. It saves this data, and it copies all of it into the update data, over what the loop has
put there. -/
def collectState (processData : Option (List Byte)) (domain : List Byte) : Collected :=
  let bytes := (List.range domain.length).map fun i =>
    collectByte (byte pm i) (byte domain i) (processData.map fun last => byte last i)
  ⟨domain, bytes.map Prod.fst, (bytes.map Prod.snd).sum⟩

variable [DecidableEq C]

structure Ends (C : Type) where
  processData : Option (List Byte)
  io : State C

def handleIncomingEtherCatData (map : IOMap C) (machineIsReady : Bool) (u : Collected)
    (s : State C) : Option (State C) :=
  if u.mask.any (· ≠ 0) then
    if machineIsReady then (processAll map u.mask u.data ∅ s).map Prod.snd else some s
  else some s

/-- A snapshot of the domain, and whether the machine is ready when it is handled. -/
structure Snapshot where
  domain : List Byte
  machineIsReady : Bool
deriving DecidableEq, Repr

/-- A snapshot is collected, and delivered if there is a bit in its mask. The domain has as
many bytes as the process mask. -/
def deliver (map : IOMap C) (pm : List Byte) (s : Ends C) (a : Snapshot) : Option (Ends C) :=
  if a.domain.length = pm.length then
    (handleIncomingEtherCatData map a.machineIsReady (collectState pm s.processData a.domain)
      s.io).map fun io => ⟨some a.domain, io⟩
  else none

def Handled (s : Ends C) (a : Snapshot) : Prop :=
  a.machineIsReady = true ∧ (collectState pm s.processData a.domain).mask.any (· ≠ 0) = true

/-- After a delivery that was handled the image has the snapshot on the process mask. -/
def Follows (s : Ends C) (a : Snapshot) (t : Ends C) : Prop :=
  Handled pm s a → ∀ b, bit pm b = true → bit t.io.processData b = bit a.domain b

def UpToDate (s : Ends C) (a : Snapshot) : Prop :=
  Handled pm s a → ∀ last, s.processData = some last → ∀ b, bit pm b = true →
    bit a.domain b = bit last b → bit s.io.processData b = bit last b

theorem changedBits_bit (pm last pd : Byte) {k : ℕ} (hk : k < 8) :
    (changedBits pm last pd).1.getLsbD k = (pm.getLsbD k && (pd.getLsbD k != last.getLsbD k)) := by
  have hrun : ∀ n ≤ 8, ((List.range n).foldl
      (fun r j => if pm.getLsbD j && (pd.getLsbD j != last.getLsbD j) then
        (setBit r.1 j true, r.2 + 1) else r) ((0, 0) : Byte × ℕ)).1.getLsbD k =
      (decide (k < n) && (pm.getLsbD k && (pd.getLsbD k != last.getLsbD k))) := by
    intro n
    induction n with
    | zero => intro _; simp
    | succ n ih =>
      intro hn
      rw [List.range_succ, List.foldl_append, List.foldl_cons, List.foldl_nil]
      have hpre := ih (by omega)
      by_cases hkn : k = n
      · subst hkn
        split
        · next hc => rw [Image.getLsbD_setBit _ hk]; simp [hc]
        · next hc => rw [hpre]; simp [hc]
      · have hiff : k < n + 1 ↔ k < n := by omega
        rw [decide_eq_decide.mpr hiff, ← hpre]
        split
        · rw [Image.getLsbD_setBit _ (by omega), if_neg hkn]
        · rfl
  rw [changedBits, hrun 8 (le_refl _), decide_eq_true hk, Bool.true_and]

theorem collectState_length (last : Option (List Byte)) (domain : List Byte) :
    (collectState pm last domain).mask.length = domain.length := by
  simp [collectState]

theorem collectState_byte (last : Option (List Byte)) {domain : List Byte} {i : ℕ}
    (hi : i < domain.length) : byte (collectState pm last domain).mask i =
      (collectByte (byte pm i) (byte domain i) (last.map fun last => byte last i)).1 := by
  simp [collectState, byte, List.getD_eq_getElem?_getD, hi]

theorem collectState_first (pm domain : List Byte) (hlen : domain.length = pm.length) (b : ℕ) :
    bit (collectState pm none domain).mask b = bit pm b := by
  by_cases hb : b / 8 < domain.length
  · rw [bit, collectState_byte pm none hb]
    rfl
  · rw [Image.bit_of_le (by rw [collectState_length]; omega), Image.bit_of_le (by omega)]

theorem collectState_next (pm last domain : List Byte) (hlen : domain.length = pm.length) (b : ℕ) :
    bit (collectState pm (some last) domain).mask b =
      (bit pm b && (bit domain b != bit last b)) := by
  by_cases hb : b / 8 < domain.length
  · rw [bit, collectState_byte pm (some last) hb, map_some, collectByte]
    split
    · exact changedBits_bit _ _ _ (Nat.mod_lt _ (by decide))
    · next heq =>
      rw [not_not] at heq
      rw [bit, bit, bit, heq]
      simp
  · have hpm : bit pm b = false := Image.bit_of_le (by omega)
    rw [Image.bit_of_le (by rw [collectState_length]; omega), hpm]
    rfl

structure Ends.Running (map : IOMap C) (s : Ends C) : Prop where
  operational : s.io.hardwareState = .operational
  size : s.io.processData.length = map.processDataSize

theorem deliver_running {map : IOMap C} {pm : List Byte} {s t : Ends C} {a : Snapshot}
    (hs : s.Running map) (h : deliver map pm s a = some t) : t.Running map := by
  unfold deliver at h
  split at h
  · obtain ⟨io, hio, rfl⟩ := map_eq_some_iff.mp h
    unfold handleIncomingEtherCatData at hio
    split at hio
    · split at hio
      · obtain ⟨r, hr, rfl⟩ := map_eq_some_iff.mp hio
        have hpre : s.io.hardwareState ≠ .preinit := by simp [hs.operational]
        obtain ⟨hsta, hlen, -⟩ := processAll_merges hpre hs.size hr
        exact ⟨hsta.trans hs.operational, hlen⟩
      · cases hio
        exact ⟨hs.operational, hs.size⟩
    · cases hio
      exact ⟨hs.operational, hs.size⟩
  · cases h

theorem deliver_follows_iff {map : IOMap C} {pm : List Byte} {s t : Ends C} {a : Snapshot}
    (hs : s.Running map) (h : deliver map pm s a = some t) :
    Follows pm s a t ↔ UpToDate pm s a := by
  refine forall_congr' fun hhan => ?_
  unfold deliver at h
  split at h
  · next hlen =>
    obtain ⟨io, hio, rfl⟩ := map_eq_some_iff.mp h
    rw [handleIncomingEtherCatData, if_pos hhan.2, if_pos hhan.1] at hio
    obtain ⟨r, hr, rfl⟩ := map_eq_some_iff.mp hio
    have hpre : s.io.hardwareState ≠ .preinit := by simp [hs.operational]
    obtain ⟨-, -, hbit⟩ := processAll_merges hpre hs.size hr
    cases hlas : s.processData with
    | none =>
      refine iff_of_true (fun b hb => ?_) nofun
      rw [hbit, hlas, mergedBit, collectState_first pm a.domain hlen, hb]
      simp [collectState]
    | some last =>
      have hiff : ∀ b, bit pm b = true → (bit r.2.processData b = bit a.domain b ↔
          (bit a.domain b = bit last b → bit s.io.processData b = bit last b)) := by
        intro b hb
        rw [hbit, hlas, mergedBit, collectState_next pm last a.domain hlen, hb]
        -- a bit is merged if it is not what it was
        by_cases hsam : bit a.domain b = bit last b
        · simp [hsam]
        · have hne : (bit a.domain b != bit last b) = true := bne_iff_ne.mpr hsam
          simp [hsam, hne, collectState]
      constructor
      · intro hall last' hlas' b hb
        cases hlas'
        exact (hiff b hb).mp (hall b hb)
      · intro hall b hb
        exact (hiff b hb).mpr (hall last rfl b hb)
  · cases h

/-- The runs in which the image follows the hardware: bits whose change was not handled must
change again before the next delivery that is. -/
theorem follows_run_iff (map : IOMap C) (pm : List Byte) (io : State C)
    (hstate : io.hardwareState = .operational)
    (hsize : io.processData.length = map.processDataSize) (t : Ends C) (as : List Snapshot) :
    Run (Guarded (fun s a t => deliver map pm s a = some t) (Follows pm)) ⟨none, io⟩ as t ↔
      Run (Guarded (fun s a t => deliver map pm s a = some t) fun s a _ => UpToDate pm s a)
        ⟨none, io⟩ as t :=
  Runs.run_guarded_congr (I := Ends.Running map) (fun _ _ _ hs h => deliver_follows_iff hs h)
    (fun _ _ _ hs h _ => deliver_running hs h) ⟨hstate, hsize⟩

def inputsMap : IOMap Bool :=
  ⟨0, 0, [some false, some true, none, none, none, none, none, none], [[false, true]], [3]⟩

def inputsState : State Bool where
  hardwareState := .operational
  processData := [0]
  lastProcessData := none
  updateData := none
  defaultData := none
  defaultMask := none
  updatedComponentsIn := ∅
  updatedComponentsOut := ∅
  updatesSent := false
  outputsWaiting := 0
  component _ := ⟨0, 0, 0, .none⟩

/-- As long as the machine is ready the image follows. -/
theorem inputs_follow : ∃ t, Run (Guarded (fun s a t => deliver inputsMap [3] s a = some t)
    (Follows [3])) ⟨none, inputsState⟩ [⟨[1], true⟩, ⟨[3], true⟩] t := by
  have hrun : ∃ t, Run (Guarded (fun s a t => deliver inputsMap [3] s a = some t)
      fun s a _ => UpToDate [3] s a) ⟨none, inputsState⟩ [⟨[1], true⟩, ⟨[3], true⟩] t := by
    refine ⟨_, .cons ⟨rfl, fun _ last hlas => by cases hlas⟩ (.cons ⟨rfl, ?_⟩ (.nil _))⟩
    intro _ last hlas b hb _
    cases hlas
    rfl
  obtain ⟨t, ht⟩ := hrun
  exact ⟨t, (follows_run_iff inputsMap [3] inputsState rfl rfl t _).mpr ht⟩

/-- The lower input turns on while the machine is not ready, and the upper one when it is again:
the image never gets the lower one. -/
theorem inputs_fall_behind : ((Runs.execute (deliver inputsMap [3]) ⟨none, inputsState⟩
        [⟨[0], true⟩, ⟨[1], false⟩, ⟨[3], true⟩]).map fun s => (s.processData, s.io.processData)) =
      some (some [3], [2]) := by
  decide

end Clockwork.IOComponent
