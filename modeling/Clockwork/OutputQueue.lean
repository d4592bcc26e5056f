import Clockwork.IOComponent
import Clockwork.Library.Runs

namespace Clockwork.IOComponent

open Option State

open Image (Byte)
open Runs (Run Guarded)

variable {C M : Type} [DecidableEq C]

def Request.event : Request → Event
  | .turnOn => .on
  | .turnOff => .off
  | .setUnsigned _ | .setSigned _ => .change

def Request.pending (r : Request) (old : BitVec 32) : BitVec 32 :=
  match r with
  | .turnOn | .turnOff => old
  | .setUnsigned x | .setSigned x => x

/-- Only outputs have `turnOn` and `turnOff`; `setValue` is a method of every component, with
an assertion about the sign. -/
def Request.Acts (hw : Hardware C M) (c : C) : Request → Prop
  | .turnOn | .turnOff => hw.isOutput c = true
  | .setUnsigned _ => (hw.address c).isSigned = false
  | .setSigned _ => (hw.address c).isSigned = true

instance (hw : Hardware C M) (c : C) (r : Request) : Decidable (r.Acts hw c) := by
  unfold Request.Acts
  cases r <;> infer_instance

def written (a : IOAddress) (e : Event) (x : BitVec 32) (data : List Byte) : Option (List Byte) :=
  if a.bitlen = 1 then (markBit a e data).map Prod.fst
  else if e = .change then markValue a x data
  else some data

variable {c : C} {s t : State C} {hw : Hardware C M} {r : Request} {map : IOMap C}

theorem markChange_eq {L : Layout C} (hs : s.updatesSent = false) : ∃ e, markChange L c s =
      (written (L.address c) (s.component c).lastEvent (s.component c).pendingValue
        s.getUpdateData).map fun data =>
          ({ s with updateData := some data } : State C).setEvent c e := by
  unfold markChange written
  dsimp only
  split
  · refine ⟨.none, ?_⟩
    cases markBit (L.address c) (s.component c).lastEvent s.getUpdateData with
    | none => rfl
    | some p => simp [hs, setEvent, setComponent]
  · split
    · refine ⟨.none, ?_⟩
      cases markValue (L.address c) (s.component c).pendingValue s.getUpdateData with
      | none => rfl
      | some data => simp [hs, setEvent, setComponent]
    · refine ⟨(s.component c).lastEvent, ?_⟩
      simp [setEvent, setComponent]

def State.requested (s : State C) (c : C) (r : Request) (data : List Byte) (e : Event) : State C :=
  { s with
    updateData := some data
    updatedComponentsOut := insert c s.updatedComponentsOut
    updatesSent := false
    outputsWaiting := s.outputsWaiting + 1
    component := Function.update s.component c
      { s.component c with
        pendingValue := r.pending (s.component c).pendingValue
        lastEvent := e } }

theorem State.setComponent_self (s : State C) (c : C) : s.setComponent c (s.component c) = s := by
  rw [setComponent, Function.update_eq_self]

theorem request_of_acts (hr : r.Acts hw c) : request hw c r s = markChange hw.toLayout c
      ((s.setComponent c { s.component c with
        pendingValue := r.pending (s.component c).pendingValue }).enqueue c r.event) := by
  cases r with
  | turnOn =>
    have hout : hw.isOutput c = true := hr
    rw [request, turnOn, if_pos hout]
    exact congrArg (fun s : State C => markChange hw.toLayout c (s.enqueue c .on))
      (s.setComponent_self c).symm
  | turnOff =>
    have hout : hw.isOutput c = true := hr
    rw [request, turnOff, if_pos hout]
    exact congrArg (fun s : State C => markChange hw.toLayout c (s.enqueue c .off))
      (s.setComponent_self c).symm
  | setUnsigned x =>
    have hsig : (hw.address c).isSigned = false := hr
    rw [request, setValue, if_pos hsig]
    rfl
  | setSigned x =>
    have hsig : (hw.address c).isSigned = true := hr
    rw [request, setValue, if_pos hsig]
    rfl

theorem request_eq (hr : r.Acts hw c) : ∃ e, request hw c r s =
      (written (hw.address c) r.event (r.pending (s.component c).pendingValue)
        s.getUpdateData).map fun data => s.requested c r data e := by
  rw [request_of_acts hr]
  obtain ⟨e, he⟩ := markChange_eq (L := hw.toLayout) (c := c)
    (s := (s.setComponent c { s.component c with
      pendingValue := r.pending (s.component c).pendingValue }).enqueue c r.event) rfl
  refine ⟨e, he.trans ?_⟩
  simp only [enqueue, setEvent, setComponent, requested,
    getUpdateData, Function.update_self, Function.update_idem]

theorem request_of_not_acts (hr : ¬r.Acts hw c) (h : request hw c r s = some t) : t = s := by
  unfold Request.Acts at hr
  cases r with
  | turnOn =>
    rw [request, turnOn, if_neg hr] at h
    exact (some.inj h).symm
  | turnOff =>
    rw [request, turnOff, if_neg hr] at h
    exact (some.inj h).symm
  | setUnsigned x =>
    rw [request, setValue, if_neg hr] at h
    cases h
  | setSigned x =>
    rw [request, setValue, if_neg hr] at h
    cases h

/-- The calls that work on the queue of requests, or on what they look at. -/
inductive Call (C M : Type) where
  | request (c : C) (r : Request)
  | getUpdates (enabled : M → Bool)
  | updatesSent (which : Bool)
  | processAll (mask data : List Byte)
  | handleChange (c : C)

def call (hw : Hardware C M) (map : IOMap C) (s : State C) : Call C M → Option (State C)
  | .request c r => request hw c r s
  | .getUpdates enabled => (getUpdates hw map enabled s).map Prod.snd
  | .updatesSent which => some { s with updatesSent := which }
  | .processAll mask data => (processAll map mask data ∅ s).map Prod.snd
  | .handleChange c => (handleChange hw c s).map Prod.fst

def State.Counted (s : State C) : Prop := s.outputsWaiting = s.updatedComponentsOut.card

instance (s : State C) : Decidable s.Counted := inferInstanceAs (Decidable (_ = _))

/-- A component is requested only while it is not in the queue, and updates are taken only
while no component of the queue is disabled. -/
def Call.Counts (hw : Hardware C M) (s : State C) : Call C M → Prop
  | .request c r => r.Acts hw c → c ∉ s.updatedComponentsOut
  | .getUpdates enabled => ∀ c ∈ s.updatedComponentsOut, ownersEnabled hw enabled c = true
  | .updatesSent _ | .processAll _ _ | .handleChange _ => True

theorem getUpdates_queue {enabled : M → Bool} {u : Option Update}
    (h : getUpdates hw map enabled s = some (u, t)) :
    t.outputsWaiting = s.outputsWaiting ∧ t.updatedComponentsOut =
      s.updatedComponentsOut.filter fun c => ownersEnabled hw enabled c := by
  obtain ⟨⟨mask, s₁⟩, hmas, h⟩ := bind_eq_some_iff.mp h
  have hque : s₁.outputsWaiting = s.outputsWaiting ∧ s₁.updatedComponentsOut =
      s.updatedComponentsOut.filter fun c => ownersEnabled hw enabled c := by
    unfold generateUpdateMask at hmas
    split at hmas
    · next hemp =>
      cases hmas
      exact ⟨rfl, by rw [hemp, Finset.filter_empty]⟩
    · obtain ⟨m, -, hmas⟩ := bind_eq_some_iff.mp hmas
      cases hmas
      exact ⟨rfl, rfl⟩
  cases mask with
  | none =>
    cases h
    exact hque
  | some mask =>
    cases h
    exact hque

theorem State.finish_counted (hs : s.Counted) (updated : Finset C) :
    (s.finish updated).2.Counted := by
  unfold finish
  split
  · exact hs
  · rfl

theorem processAll_counted {mask data : List Byte} {updated : Finset C} {r : Finset C × State C}
    (h : processAll map mask data updated s = some r) (hs : s.Counted) : r.2.Counted := by
  unfold processAll at h
  split at h
  · split at h
    · cases h
      exact hs
    · obtain ⟨scanned, -, h⟩ := bind_eq_some_iff.mp h
      cases h
      refine finish_counted ?_ updated
      exact hs
  · cases h

theorem handleChange_frame {r : State C × List (M × String)} (h : handleChange hw c s = some r) :
    ∃ k, r.1 = s.setComponent c k := by
  unfold handleChange at h
  dsimp only at h
  split at h
  · split at h
    · cases h
      exact ⟨_, rfl⟩
    · cases h
  · obtain ⟨val, -, h⟩ := bind_eq_some_iff.mp h
    split at h
    · cases h
      exact ⟨_, rfl⟩
    · split at h
      · cases h
        exact ⟨_, rfl⟩
      · split at h
        · cases h
          exact ⟨_, rfl⟩
        · cases h
          exact ⟨_, (s.setComponent_self c).symm⟩

theorem call_counted_iff {a : Call C M} (hs : s.Counted) (h : call hw map s a = some t) :
    t.Counted ↔ a.Counts hw s := by
  cases a with
  | request c r =>
    by_cases hr : r.Acts hw c
    · obtain ⟨e, he⟩ := request_eq (s := s) hr
      rw [call, he] at h
      obtain ⟨data, -, rfl⟩ := map_eq_some_iff.mp h
      change s.outputsWaiting + 1 = (insert c s.updatedComponentsOut).card ↔ _
      rw [show s.outputsWaiting = _ from hs]
      constructor
      · intro hcar _ hmem
        rw [Finset.insert_eq_self.mpr hmem] at hcar
        omega
      · intro hcou
        exact (Finset.card_insert_of_notMem (hcou hr)).symm
    · obtain rfl := request_of_not_acts hr h
      exact iff_of_true hs fun hact => absurd hact hr
  | getUpdates enabled =>
    obtain ⟨⟨u, t⟩, hu, rfl⟩ := map_eq_some_iff.mp h
    obtain ⟨hwai, hque⟩ := getUpdates_queue hu
    rw [State.Counted, hwai, hque, show s.outputsWaiting = _ from hs, eq_comm,
      Finset.card_filter_eq_iff]
    rfl
  | updatesSent which =>
    cases h
    exact iff_of_true hs trivial
  | processAll mask data =>
    obtain ⟨r, hr, rfl⟩ := map_eq_some_iff.mp h
    exact iff_of_true (processAll_counted hr hs) trivial
  | handleChange c =>
    obtain ⟨r, hr, rfl⟩ := map_eq_some_iff.mp h
    obtain ⟨k, hk⟩ := handleChange_frame hr
    rw [hk]
    exact iff_of_true hs trivial

def State.idle (s : State C) : State C := { s with updatedComponentsOut := ∅, outputsWaiting := 0 }

/-- The sequences of calls after each of which the counter is right. -/
theorem counted_run_iff (hw : Hardware C M) (map : IOMap C) (s t : State C) (as : List (Call C M)) :
    Run (Guarded (fun s a t => call hw map s a = some t) fun _ _ t => t.Counted) s.idle as t ↔
      Run (Guarded (fun s a t => call hw map s a = some t) fun s a _ => a.Counts hw s)
        s.idle as t :=
  Runs.run_guarded_congr (I := State.Counted) (fun _ _ _ hs h => call_counted_iff hs h)
    (fun _ _ _ _ _ ht => ht) rfl

def lamp : Hardware Unit Unit where
  queue := [()]
  address _ := ⟨0, 0, 1, false⟩
  ioName _ := "lamp"
  direction _ := .output
  isOutput _ := true
  owners _ := []
  filter _ x := x
  regularPolls _ := false

def lampMap : IOMap Unit :=
  ⟨0, 0, [some (), none, none, none, none, none, none, none], [[()]], [1]⟩

def lampState : State Unit where
  hardwareState := .operational
  processData := [0]
  lastProcessData := some [0]
  updateData := none
  defaultData := none
  defaultMask := none
  updatedComponentsIn := ∅
  updatedComponentsOut := ∅
  updatesSent := false
  outputsWaiting := 0
  component _ := ⟨0, 0, 0, .none⟩

/-- A lamp that is turned on twice waits twice, but is in the queue once. -/
theorem lamp_counted_twice : ((Runs.execute (call lamp lampMap) lampState
        [.request () .turnOn, .request () .turnOn]).map fun s =>
      (s.outputsWaiting, s.updatedComponentsOut.card)) = some (2, 1) := by
  decide

end Clockwork.IOComponent
