import Clockwork.OutputValues
import Clockwork.ProcessAll

namespace Clockwork.IOComponent

open Option State Finset

open Image (Byte bit byte)
open Runs (Run Guarded)

variable {C M : Type} [DecidableEq C]

/-- The components, their owners, and what was requested: `unsent` are the requests since the
last round of `getUpdates`. -/
structure Loop (C M : Type) where
  io : State C
  enabled : M → Bool
  requested : Finset C
  unsent : Finset C
  latest : C → Request

inductive Action (C M : Type) where
  | request (c : C) (r : Request)
  | setEnabled (m : M) (enabled : Bool)
  | processAll (mask data : List Byte)
  | handleChange (c : C)
  | operational
  | round

def Loop.request (hw : Hardware C M) (c : C) (r : Request) (s : Loop C M) : Option (Loop C M) :=
  (IOComponent.request hw c r s.io).map fun io =>
    { s with
      io := io
      requested := insert c s.requested
      unsent := insert c s.unsent
      latest := Function.update s.latest c r }

/-- The defaults are sent until the hardware is operational; there must be some. -/
def Loop.round (hw : Hardware C M) (map : IOMap C) (s : Loop C M) : Option (Loop C M) :=
  if s.io.hardwareState = .init then
    match getDefaults map s.io with
    | some (some _, io) => some { s with io := { io with updatesSent := true } }
    | _ => none
  else
    match getUpdates hw map s.enabled s.io with
    | some (some _, io) => some { s with io := { io with updatesSent := true }, unsent := ∅ }
    | some (none, io) => some { s with io := io, unsent := ∅ }
    | none => none

def Loop.next [DecidableEq M] (hw : Hardware C M) (map : IOMap C) (s : Loop C M) :
    Action C M → Option (Loop C M)
  | .request c r => s.request hw c r
  | .setEnabled m enabled => some { s with enabled := Function.update s.enabled m enabled }
  | .processAll mask data =>
    (IOComponent.processAll map mask data ∅ s.io).map fun r => { s with io := r.2 }
  | .handleChange c => (IOComponent.handleChange hw c s.io).map fun r => { s with io := r.1 }
  | .operational => some { s with io := { s.io with hardwareState := .operational } }
  | .round => s.round hw map

def Loop.start (io : State C) (enabled : M → Bool) : Loop C M :=
  ⟨{ io with updatedComponentsOut := ∅ }, enabled, ∅, ∅, fun _ => .turnOff⟩

def Request.bits : Request → ℕ → Bool
  | .turnOn, i => i == 0
  | .turnOff, _ => false
  | .setUnsigned x, i | .setSigned x, i => x.getLsbD i

/-- An update has all bits of the components with unsent requests, with the values of the latest
ones, and no bits of components that never had any. -/
structure Sends (hw : Hardware C M) (s : Loop C M) (u : Option Update) : Prop where
  sent : ∀ c ∈ s.unsent, ∃ upd, u = some upd ∧ ∀ b, (hw.address c).Owns b →
    b < 8 * upd.size ∧ bit upd.mask b = true ∧
      bit upd.data b = (s.latest c).bits (b - (hw.address c).start)
  only : ∀ upd, u = some upd → ∀ c ∈ hw.queue, c ∉ s.requested →
    ∀ b, (hw.address c).Owns b → bit upd.mask b = false

/-- No request is lost: once the hardware is not being initialised, a round sends them all. -/
def Loop.NothingLost (hw : Hardware C M) (map : IOMap C) (s : Loop C M) : Prop :=
  s.io.hardwareState ≠ .init → ∃ r, getUpdates hw map s.enabled s.io = some r ∧ Sends hw s r.1

structure Sendable (hw : Hardware C M) (map : IOMap C) (c : C) : Prop where
  queued : c ∈ hw.queue
  output : hw.direction c ≠ .input
  length : (hw.address c).bitlen = 1 ∨
    ((hw.address c).bitlen = 8 ∨ (hw.address c).bitlen = 16 ∨ (hw.address c).bitlen = 32) ∧
      (hw.address c).ioBitpos % 8 = 0
  size : (hw.address c).start + (hw.address c).bitlen ≤ 8 * (map.maxOffset - map.minOffset + 1)

def Request.Suits (a : IOAddress) (r : Request) : Prop :=
  (a.bitlen = 1 → r.event ≠ .change) ∧ (a.bitlen ≠ 1 → r.event = .change)

/-- Requests suit their components. While updates count as sent, process data neither reports
a component with an unsent request nor, if it reports any, finds one at its pending value. -/
def Action.Safe (hw : Hardware C M) (map : IOMap C) (s : Loop C M) : Action C M → Prop
  | .request c r => Sendable hw map c ∧ r.Acts hw c ∧ r.Suits (hw.address c)
  | .processAll mask data => s.io.updatesSent = true → ∀ c ∈ s.unsent,
      ¬Reported hw.toLayout map mask data s.io c ∧
        ((∀ d, ¬Reported hw.toLayout map mask data s.io d) ∨
          (s.io.component c).pendingValue ≠ (s.io.component c).value)
  | .setEnabled _ _ | .handleChange _ | .operational | .round => True

structure State.Sized (map : IOMap C) (s : State C) : Prop where
  process : s.processData.length = map.processDataSize
  update : ∀ im, s.updateData = some im → im.length = map.processDataSize
  default : ∀ im, s.defaultData = some im → im.length = map.processDataSize
  mask : ∀ im, s.defaultMask = some im → im.length = map.processDataSize

omit [DecidableEq C] in
theorem State.Sized.getUpdateData {map : IOMap C} {s : State C} (h : s.Sized map) :
    s.getUpdateData.length = map.processDataSize := by
  unfold State.getUpdateData
  cases hu : s.updateData with
  | none => exact h.process
  | some im => exact h.update im hu

structure Loop.Kept (hw : Hardware C M) (map : IOMap C) (s : Loop C M) : Prop where
  sized : s.io.Sized map
  unsent : s.unsent ⊆ s.io.updatedComponentsOut
  queue : s.io.updatedComponentsOut ⊆ s.requested
  sendable : ∀ c ∈ s.requested, Sendable hw map c
  latest : ∀ c ∈ s.requested, ∀ b, (hw.address c).Owns b →
    bit s.io.getUpdateData b = (s.latest c).bits (b - (hw.address c).start)
  marked : s.requested.Nonempty → s.io.updateData.isSome = true

theorem Sets.congr {a : IOAddress} {e e' : ℕ → Bool} {old new : List Byte} (h : Sets a e old new)
    (he : ∀ i < a.bitlen, e i = e' i) : Sets a e' old new := by
  refine ⟨h.1, fun b => ?_⟩
  rw [h.2]
  split
  · next hown => exact he _ (by have := hown.1; have := hown.2; omega)
  · rfl

omit [DecidableEq C] in
theorem written_sets {hw : Hardware C M} {map : IOMap C} {c : C} (hc : Sendable hw map c)
    {r : Request} (hr : r.Suits (hw.address c)) (p : BitVec 32) {im : List Byte}
    (hin : (hw.address c).Within im) :
    ∃ data, written (hw.address c) r.event (r.pending p) im = some data ∧
      Sets (hw.address c) r.bits im data := by
  rcases hc.length with h1 | ⟨hlen, hpos⟩
  · have hne := hr.1 h1
    have heve : r.event = .on ∨ r.event = .off := by
      cases r with
      | turnOn => exact .inl rfl
      | turnOff => exact .inr rfl
      | setUnsigned x => exact absurd rfl hne
      | setSigned x => exact absurd rfl hne
    obtain ⟨⟨data, changed⟩, hdat, hset⟩ := markBit_spec h1 heve hin
    refine ⟨data, by rw [written, if_pos h1, hdat]; rfl, hset.congr fun i hi => ?_⟩
    obtain rfl : i = 0 := by omega
    cases r with
    | turnOn => rfl
    | turnOff => rfl
    | setUnsigned x => exact absurd rfl hne
    | setSigned x => exact absurd rfl hne
  · have heve := hr.2 (by omega)
    obtain ⟨n, hn, hwri⟩ := written_number hlen
    have hbit : r.bits = (r.pending p).getLsbD := by
      cases r with
      | turnOn => cases heve
      | turnOff => cases heve
      | setUnsigned x => rfl
      | setSigned x => rfl
    rw [heve, hwri]
    exact (write_sets_iff hn (by omega) (r.pending p) r.bits).mpr
      ⟨hpos, fun i _ => by rw [hbit]⟩ im hin

section Kept

variable {hw : Hardware C M} {map : IOMap C} {s t : Loop C M}

omit [DecidableEq C] in
theorem Sendable.within {c : C} (hc : Sendable hw map c) {im : List Byte}
    (him : im.length = map.processDataSize) : (hw.address c).Within im := by
  have hsiz := hc.size
  unfold IOAddress.Within
  rw [him, IOMap.processDataSize]
  omega

theorem Loop.Kept.request {c : C} {r : Request} (hs : s.Kept hw map)
    (hdis : hw.toLayout.Disjoint) (hc : Sendable hw map c) (hact : r.Acts hw c)
    (hsui : r.Suits (hw.address c)) (h : s.request hw c r = some t) : t.Kept hw map := by
  obtain ⟨e, he⟩ := request_eq (s := s.io) hact
  obtain ⟨data, hdat, hset⟩ := written_sets hc hsui (s.io.component c).pendingValue
    (hc.within hs.sized.getUpdateData)
  rw [Loop.request, he, hdat] at h
  cases h
  have hsiz : data.length = map.processDataSize := hset.1.trans hs.sized.getUpdateData
  refine ⟨⟨hs.sized.process, fun im him => ?_, hs.sized.default, hs.sized.mask⟩,
    insert_subset_insert c hs.unsent, insert_subset_insert c hs.queue,
    fun d hd => ?_, fun d hd b hb => ?_, fun _ => rfl⟩
  · cases him
    exact hsiz
  · rcases mem_insert.mp hd with rfl | hd
    · exact hc
    · exact hs.sendable d hd
  · change bit data b = (Function.update s.latest c r d).bits (b - (hw.address d).start)
    rw [hset.2]
    rcases eq_or_ne d c with rfl | hne
    · rw [if_pos hb, Function.update_self]
    · -- the bits of other components are not touched
      have hmem : d ∈ s.requested := mem_of_mem_insert_of_ne hd hne
      have hnot : ¬(hw.address c).Owns b := fun hcb =>
        hne (hdis.eq_of_owns (hs.sendable d hmem).queued hc.queued hb hcb)
      rw [if_neg hnot, Function.update_of_ne hne]
      exact hs.latest d hmem b hb

structure Loop.Frames (map : IOMap C) (s t : Loop C M) : Prop where
  sized : t.io.Sized map
  requested : t.requested = s.requested
  latest : t.latest = s.latest
  data : s.io.updateData.isSome = true →
    t.io.updateData.isSome = true ∧ t.io.getUpdateData = s.io.getUpdateData
  queue : t.io.updatedComponentsOut ⊆ s.io.updatedComponentsOut
  unsent : t.unsent ⊆ t.io.updatedComponentsOut

omit [DecidableEq C] in
theorem Loop.Kept.frame (hs : s.Kept hw map) (h : s.Frames map t) : t.Kept hw map := by
  refine ⟨h.sized, h.unsent, ?_, ?_, ?_, ?_⟩
  · rw [h.requested]
    exact h.queue.trans hs.queue
  · rw [h.requested]
    exact hs.sendable
  · rw [h.requested]
    intro c hc b hb
    rw [(h.data (hs.marked ⟨c, hc⟩)).2, h.latest]
    exact hs.latest c hc b hb
  · rw [h.requested]
    exact fun hne => (h.data (hs.marked hne)).1

omit [DecidableEq C] in
theorem State.getUpdateData_congr {s t : State C} (h : t.updateData = s.updateData)
    (hs : s.updateData.isSome = true) :
    t.updateData.isSome = true ∧ t.getUpdateData = s.getUpdateData := by
  obtain ⟨im, him⟩ := isSome_iff_exists.mp hs
  simp [getUpdateData, h, him]

theorem Loop.Kept.processAll {mask data : List Byte} (hs : s.Kept hw map)
    (hmap : setupIOMap hw.toLayout = some map)
    (hsaf : Action.Safe hw map s (.processAll mask data)) {r : Finset C × State C}
    (h : IOComponent.processAll map mask data ∅ s.io = some r) :
    Loop.Kept hw map { s with io := r.2 } := by
  obtain ⟨pd, last, updatedIn, n, reported, hlen, hrep, hr⟩ :=
    processAll_frame hmap hs.sized.process h
  rw [hr]
  refine hs.frame ⟨⟨hlen, hs.sized.update, hs.sized.default, hs.sized.mask⟩, rfl, rfl,
    getUpdateData_congr rfl, ?_, ?_⟩
  · split
    · exact Finset.Subset.refl _
    · unfold settle
      split
      · exact (filter_subset _ _).trans sdiff_subset
      · exact Finset.Subset.refl _
  · intro c hc
    have hout := hs.unsent hc
    split
    · exact hout
    · next hne =>
      unfold settle
      split
      · next hsen =>
        obtain ⟨hnot, hoth⟩ := hsaf hsen c hc
        have hval := hoth.resolve_left fun hall =>
          hne (eq_empty_of_forall_notMem fun d hd => hall d (hrep d hd))
        exact mem_filter.mpr
          ⟨mem_sdiff.mpr ⟨hout, fun hmem => hnot (hrep c hmem)⟩, hval⟩
      · exact hout

omit [DecidableEq C] in
theorem copyMaskedBits_length {dest src mask : List Byte} (hsrc : src.length = dest.length)
    (hmas : mask.length = dest.length) : (copyMaskedBits dest src mask).length = dest.length := by
  simp [copyMaskedBits, hsrc, hmas]

section

variable (hs : s.Kept hw map)

include hs

omit [DecidableEq C] in
theorem Loop.Kept.getDefaults {u : Option Update} {io : State C}
    (h : IOComponent.getDefaults map s.io = some (u, io)) :
    Loop.Kept hw map { s with io := { io with updatesSent := true } } := by
  unfold IOComponent.getDefaults at h
  split at h
  · cases h
    exact hs.frame ⟨⟨hs.sized.process, hs.sized.update, hs.sized.default, hs.sized.mask⟩, rfl, rfl,
      getUpdateData_congr rfl, Finset.Subset.refl _, hs.unsent⟩
  · obtain ⟨data, hdat, h⟩ := bind_eq_some_iff.mp h
    obtain ⟨mask, hmas, h⟩ := bind_eq_some_iff.mp h
    cases h
    have hsiz := hs.sized.process
    have hdsi := hs.sized.default data hdat
    have hmsi := hs.sized.mask mask hmas
    have hcop := copyMaskedBits_length (hdsi.trans hsiz.symm) (hmsi.trans hsiz.symm)
    exact hs.frame ⟨⟨hcop.trans hsiz, hs.sized.update, hs.sized.default, hs.sized.mask⟩, rfl, rfl,
      getUpdateData_congr rfl, Finset.Subset.refl _, hs.unsent⟩

section

variable (hmap : setupIOMap hw.toLayout = some map)

include hmap

theorem Loop.Kept.getUpdates_eq (hout : s.io.updatedComponentsOut ≠ ∅) :
    ∃ mask, getUpdates hw map s.enabled s.io =
        some (some ⟨map.maxOffset - map.minOffset + 1, s.io.getUpdateData, mask⟩, { s.io with
            updatedComponentsOut :=
              s.io.updatedComponentsOut.filter fun c => ownersEnabled hw s.enabled c
            updateData := some s.io.getUpdateData }) ∧
      ∀ b, bit mask b = true ↔ ∃ c ∈ s.io.updatedComponentsOut, (hw.address c).Owns b := by
  have hmem : ∀ c, c ∈ (waiting hw s.io).filter (fun c => hw.direction c ≠ .input) ↔
      c ∈ s.io.updatedComponentsOut := by
    intro c
    rw [List.mem_filter, waiting, List.mem_filter]
    constructor
    · rintro ⟨⟨-, hc⟩, -⟩
      simpa using hc
    · intro hc
      have hsen := hs.sendable c (hs.queue hc)
      exact ⟨⟨hsen.queued, by simpa using hc⟩, by simpa using hsen.output⟩
  obtain ⟨hoff, -⟩ := setupIOMap_eq_some hmap
  have hlt := (findOffsets_spec hoff).1
  obtain ⟨mask, hmas, -, hbit⟩ := markComponents_spec (L := hw.toLayout)
    ((waiting hw s.io).filter fun c => hw.direction c ≠ .input)
    (List.replicate map.processDataSize 0)
    (by rw [List.length_replicate, IOMap.processDataSize]; dsimp only at hlt; omega)
    (fun c hc _ => (hs.sendable c (hs.queue ((hmem c).mp hc))).within List.length_replicate)
  refine ⟨mask, ?_, fun b => ?_⟩
  · rw [getUpdates, generateUpdateMask, if_neg hout, hmas]
    rfl
  · rw [hbit, Image.bit_replicate_zero]
    simp only [hmem]
    simp

theorem Loop.Kept.nothingLost (hdis : hw.toLayout.Disjoint) : s.NothingLost hw map := by
  intro _
  by_cases hout : s.io.updatedComponentsOut = ∅
  · refine ⟨(none, s.io), by rw [getUpdates, generateUpdateMask, if_pos hout]; rfl, ?_, ?_⟩
    · intro c hc
      have hmem := hs.unsent hc
      rw [hout] at hmem
      exact absurd hmem (notMem_empty c)
    · intro upd hupd
      cases hupd
  · obtain ⟨mask, hmas, hbit⟩ := hs.getUpdates_eq hmap hout
    refine ⟨_, hmas, ?_, ?_⟩
    · intro c hc
      refine ⟨_, rfl, fun b hb => ?_⟩
      have hmem := hs.unsent hc
      have hsiz := (hs.sendable c (hs.queue hmem)).size
      have hlt := hb.2
      exact ⟨by dsimp only; omega, (hbit b).mpr ⟨c, hmem, hb⟩, hs.latest c (hs.queue hmem) b hb⟩
    · intro upd hupd c hc hnot b hb
      cases hupd
      rw [← Bool.not_eq_true, hbit]
      rintro ⟨d, hd, hdb⟩
      -- then `c` would be that component
      have hreq := hs.queue hd
      obtain rfl := hdis.eq_of_owns (hs.sendable d hreq).queued hc hdb hb
      exact hnot hreq

theorem Loop.Kept.round (h : s.round hw map = some t) : t.Kept hw map := by
  unfold Loop.round at h
  split at h
  · split at h
    · next upd io hdef =>
      cases h
      exact hs.getDefaults hdef
    · cases h
  · by_cases hout : s.io.updatedComponentsOut = ∅
    · have hnon : getUpdates hw map s.enabled s.io = some (none, s.io) := by
        rw [getUpdates, generateUpdateMask, if_pos hout]
        rfl
      rw [hnon] at h
      cases h
      exact hs.frame ⟨hs.sized, rfl, rfl, getUpdateData_congr rfl, Finset.Subset.refl _,
        empty_subset _⟩
    · obtain ⟨mask, hmas, -⟩ := hs.getUpdates_eq hmap hout
      rw [hmas] at h
      cases h
      refine hs.frame ⟨⟨hs.sized.process, fun im him => ?_, hs.sized.default, hs.sized.mask⟩, rfl,
        rfl, fun _ => ⟨rfl, rfl⟩, filter_subset _ _, empty_subset _⟩
      cases him
      exact hs.sized.getUpdateData

end

end

end Kept

variable [DecidableEq M] {hw : Hardware C M} {map : IOMap C}

theorem Loop.Kept.next {s t : Loop C M} {a : Action C M} (hs : s.Kept hw map)
    (hmap : setupIOMap hw.toLayout = some map) (hdis : hw.toLayout.Disjoint)
    (hsaf : a.Safe hw map s) (h : s.next hw map a = some t) : t.Kept hw map := by
  cases a with
  | request c r => exact hs.request hdis hsaf.1 hsaf.2.1 hsaf.2.2 h
  | setEnabled m enabled =>
    cases h
    exact hs.frame ⟨hs.sized, rfl, rfl, getUpdateData_congr rfl, Finset.Subset.refl _,
      hs.unsent⟩
  | processAll mask data =>
    obtain ⟨r, hr, rfl⟩ := map_eq_some_iff.mp h
    exact hs.processAll hmap hsaf hr
  | handleChange c =>
    obtain ⟨r, hr, rfl⟩ := map_eq_some_iff.mp h
    obtain ⟨k, hk⟩ := handleChange_frame hr
    rw [hk]
    exact hs.frame ⟨⟨hs.sized.process, hs.sized.update, hs.sized.default, hs.sized.mask⟩, rfl, rfl,
      getUpdateData_congr rfl, Finset.Subset.refl _, hs.unsent⟩
  | operational =>
    cases h
    exact hs.frame ⟨⟨hs.sized.process, hs.sized.update, hs.sized.default, hs.sized.mask⟩, rfl, rfl,
      getUpdateData_congr rfl, Finset.Subset.refl _, hs.unsent⟩
  | round => exact hs.round hmap h

/-- In runs of safe actions no request is lost. -/
theorem nothing_lost_run (hmap : setupIOMap hw.toLayout = some map)
    (hdisj : hw.toLayout.Disjoint) (io : State C) (hsized : io.Sized map) (enabled : M → Bool)
    {as : List (Action C M)} {t : Loop C M}
    (run : Run (Guarded (fun s a t => s.next hw map a = some t) fun s a _ => a.Safe hw map s)
      (Loop.start io enabled) as t) : t.NothingLost hw map := by
  have hsta : (Loop.start (M := M) io enabled).Kept hw map := by
    refine ⟨⟨hsized.process, hsized.update, hsized.default, hsized.mask⟩,
      Finset.Subset.refl _, Finset.Subset.refl _, ?_, ?_, ?_⟩
    · intro c hc
      exact absurd hc (notMem_empty c)
    · intro c hc
      exact absurd hc (notMem_empty c)
    · intro hne
      exact absurd hne not_nonempty_empty
  have hkep : t.Kept hw map :=
    run.invariant (fun s a t hs h => hs.next hmap hdisj h.2 h.1) hsta
  exact hkep.nothingLost hmap hdisj

/-- A request that is sent by the next round. -/
theorem lamp_sent : ∃ t, Run (Guarded (fun s a t => Loop.next lamp lampMap s a = some t)
      fun s a _ => a.Safe lamp lampMap s)
      (Loop.start lampState fun _ => true) [.request () .turnOn, .round] t ∧
    t.NothingLost lamp lampMap := by
  have hrun : ∃ t, Run (Guarded (fun s a t => Loop.next lamp lampMap s a = some t)
      fun s a _ => a.Safe lamp lampMap s)
      (Loop.start lampState fun _ => true) [.request () .turnOn, .round] t := by
    refine ⟨_, .cons ⟨rfl, ⟨?_, rfl, ?_⟩⟩ (.cons ⟨rfl, trivial⟩ (.nil _))⟩
    · exact ⟨by decide, by decide, .inl rfl, by decide⟩
    · exact ⟨by decide, by decide⟩
  have hdis : lamp.toLayout.Disjoint := List.pairwise_singleton _ _
  have hsiz : lampState.Sized lampMap := ⟨rfl, by decide, by decide, by decide⟩
  obtain ⟨t, ht⟩ := hrun
  exact ⟨t, ht, nothing_lost_run (by decide) hdis lampState hsiz _ ht⟩

def lampInit : State Unit :=
  { lampState with
    hardwareState := .init
    lastProcessData := none
    defaultData := some [0]
    defaultMask := some [1] }

/-- The lamp is turned on before the defaults are sent. Then the updates count as sent, and the
first process data takes the lamp from the queue: the next round has nothing to send. -/
theorem lamp_lost : ((Runs.execute (Loop.next lamp lampMap) (Loop.start lampInit fun _ => true)
        [.request () .turnOn, .round, .operational, .processAll [1] [0]]).map fun s =>
      (s.unsent, s.io.hardwareState, (getUpdates lamp lampMap s.enabled s.io).map Prod.fst)) =
    some ({()}, .operational, some none) := by
  decide

end Clockwork.IOComponent
