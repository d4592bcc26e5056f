import Clockwork.Library.ListCursor
import Clockwork.Library.Runs
import Mathlib.Data.Finset.Card

namespace Clockwork.Sdo

open ListCursor

inductive Operation where
  | read | write
deriving DecidableEq, Repr

structure SDOEntry where
  operation : Operation
  errorCount : UInt32
  syncDone : Bool
deriving DecidableEq, Repr

namespace SDOEntry

def new : SDOEntry := ⟨.read, 0, false⟩

def failure (e : SDOEntry) : SDOEntry := { e with errorCount := e.errorCount + 1 }

def success (e : SDOEntry) : SDOEntry where
  operation := if e.operation = .write then .read else e.operation
  errorCount := 0
  syncDone := true

def setOperation (which : Operation) (e : SDOEntry) : SDOEntry := { e with operation := which }

theorem operation_success (e : SDOEntry) : e.success.operation = .read := by
  cases h : e.operation <;> simp [success, h]

end SDOEntry

inductive EntryState where
  | none | busyInitialisation | busyUpdate
deriving DecidableEq, Repr

inductive RequestState where
  | unused | busy | success | error
  | unexpected
deriving DecidableEq, Repr

def RequestState.ended : RequestState → Bool
  | .unused | .success | .error => true
  | .busy | .unexpected => false

/-- What `setData` puts into the request, by the size of the entry; nothing for other sizes. -/
def setData (size : ℕ) (iValue : Int64) : Option ℕ :=
  if size = 1 then some (if iValue = 0 then 0 else 1)
  else if size = 8 then some (iValue.toUInt64.toNat % 256)
  else if size = 16 then some (iValue.toUInt64.toNat % 65536)
  else if size = 32 then some (iValue.toUInt64.toNat % 4294967296)
  else none

/-- `ECInterface`, as far as its SDO entries are concerned, with the requests in progress at the
master: those that were started and have not yet been seen to have ended. -/
structure Interface (E : Type) where
  initialisationEntries : ListCursor (Option E × Int64)
  sdoUpdateEntries : ListCursor (Option E)
  sdoEntryState : EntryState
  entry : E → SDOEntry
  data : E → Option ℕ
  inProgress : Finset E

structure Cycle (E : Type) where
  answer : RequestState
  disabled : E → Bool
  /-- `syncValue` sets a property, and the machines that react may queue requests -/
  queued : List (Option E × Int64)

namespace Interface

variable {E : Type}

def new : Interface E where
  initialisationEntries := .ofList []
  sdoUpdateEntries := .ofList []
  sdoEntryState := .none
  entry _ := .new
  data _ := none
  inProgress := ∅

def queueInitialisationRequest (entry : Option E) (val : Int64) (s : Interface E) : Interface E :=
  { s with initialisationEntries := s.initialisationEntries.push (entry, val) }

def queueRuntimeRequest (entry : Option E) (s : Interface E) : Interface E :=
  { s with sdoUpdateEntries := s.sdoUpdateEntries.push entry }

variable (s : Interface E)

def beginModulePreparation : Interface E :=
  { s with
    initialisationEntries := s.initialisationEntries.rewind
    sdoEntryState := .none }

variable (c : Cycle E)

def syncValue (s : Interface E) : Interface E :=
  { s with initialisationEntries := c.queued.foldl ListCursor.push s.initialisationEntries }

variable [DecidableEq E]

def modify (f : SDOEntry → SDOEntry) (e : E) (s : Interface E) : Interface E :=
  { s with entry := Function.update s.entry e (f (s.entry e)) }

def ask (e : E) (s : Interface E) : Interface E :=
  if c.answer.ended then { s with inProgress := s.inProgress.erase e } else s

variable (size : E → ℕ)

def startWrite (e : E) (val : Int64) (s : Interface E) : Interface E :=
  { s.modify (SDOEntry.setOperation .write) e with
    data := Function.update s.data e (setData (size e) val)
    inProgress := insert e s.inProgress
    sdoEntryState := .busyInitialisation }

def retryOrDrop (e : E) (s : Interface E) : Interface E :=
  if (s.entry e).errorCount < 4 then
    { s with initialisationEntries := s.initialisationEntries.next }
  else
    { s with initialisationEntries := s.initialisationEntries.erase }.modify
      (SDOEntry.setOperation .read) e

def pollInitialisation (e : E) (s : Interface E) : Interface E :=
  let s := s.ask c e
  match c.answer with
  | .unused => { s with sdoEntryState := .none }
  | .busy | .unexpected => s
  | .success =>
    let s := (s.syncValue c).modify SDOEntry.success e
    { s with
      initialisationEntries := s.initialisationEntries.erase
      sdoEntryState := .none }
  | .error => { (s.modify SDOEntry.failure e).retryOrDrop e with sdoEntryState := .none }

def initialise (c : Cycle E) (s : Interface E) : Interface E :=
  match s.initialisationEntries.current with
  | none => s
  | some (none, _) => { s with initialisationEntries := s.initialisationEntries.next }
  | some (some e, val) =>
    if s.sdoEntryState = .none then s.startWrite size e val else s.pollInitialisation c e

def rewindInitialisation : Interface E :=
  if s.initialisationEntries.atEnd then
    { s with
      initialisationEntries := s.initialisationEntries.rewind
      sdoEntryState := .none }
  else s

/-- Nothing is left to do: the condition under which `checkSDOInitialisation` returns true. -/
def initialised : Bool :=
  s.sdoEntryState = .busyUpdate ||
    (s.initialisationEntries.atEnd && s.initialisationEntries.items.isEmpty)

def checkSDOInitialisation (c : Cycle E) (s : Interface E) : Bool × Interface E :=
  if s.initialised then (true, s) else (false, s.rewindInitialisation.initialise size c)

def startRead (e : E) (s : Interface E) : Interface E :=
  { s with
    inProgress := insert e s.inProgress
    sdoEntryState := .busyUpdate }

def nextUpdate : Interface E :=
  { s with sdoUpdateEntries := s.sdoUpdateEntries.next }

def pollUpdate (e : E) (s : Interface E) : Interface E :=
  let s := s.ask c e
  match c.answer with
  | .unused => { s with sdoEntryState := .none }
  | .busy | .unexpected => s
  | .success =>
    let s :=
      if (s.entry e).operation = .read then (s.syncValue c).modify SDOEntry.success e else s
    { s.nextUpdate with sdoEntryState := .none }
  | .error => { (s.modify SDOEntry.failure e).nextUpdate with sdoEntryState := .none }

/-- The body of `checkSDOUpdates` for the current entry. There is no result if the assertion
fails. -/
def update (s : Interface E) : Option (Interface E) :=
  match s.sdoUpdateEntries.current with
  | none => some s
  | some none => some s.nextUpdate
  | some (some e) =>
    if s.sdoEntryState = .none then
      if c.disabled e then some s.nextUpdate
      else
        match (s.entry e).operation with
        -- left to the initialisation
        | .write => if s.initialisationEntries.items.isEmpty then none else some s
        | .read => some (s.startRead e)
    else some (s.pollUpdate c e)

def rewindUpdates : Interface E :=
  if s.sdoUpdateEntries.atEnd then
    { s with
      sdoUpdateEntries := s.sdoUpdateEntries.rewind
      sdoEntryState := .none }
  else s

def checkSDOUpdates (s : Interface E) : Option (Interface E) :=
  if s.sdoUpdateEntries.atEnd && s.sdoUpdateEntries.items.isEmpty then some s
  else s.rewindUpdates.update c

def receiveState (c : Cycle E) (s : Interface E) : Option (Interface E) :=
  let r := s.checkSDOInitialisation size c
  if r.1 then r.2.checkSDOUpdates c else some r.2

end Interface

inductive Queueing (E : Type) where
  | initialisation (entry : Option E) (val : Int64)
  | runtime (entry : Option E)

inductive Event (E : Type) where
  | queue (q : Queueing E)
  | receiveState (c : Cycle E)

namespace Interface

variable {E : Type}

def queue (s : Interface E) : Queueing E → Interface E
  | .initialisation entry val => s.queueInitialisationRequest entry val
  | .runtime entry => s.queueRuntimeRequest entry

def start (before : List (Queueing E)) : Interface E :=
  (before.foldl queue new).beginModulePreparation

def step [DecidableEq E] (size : E → ℕ) (s : Interface E) : Event E → Option (Interface E)
  | .queue q => some (s.queue q)
  | .receiveState c => s.receiveState size c

/-- The request that the interface waits for is the only one in progress. -/
inductive Tracks (size : E → ℕ) (s : Interface E) : Prop
  | idle (hstate : s.sdoEntryState = .none) (hprogress : s.inProgress = ∅)
  | writing {e : E} {val : Int64} (hstate : s.sdoEntryState = .busyInitialisation)
      (hcurrent : s.initialisationEntries.current = some (some e, val))
      (hprogress : s.inProgress = {e}) (hdata : s.data e = setData (size e) val)
  | reading {e : E} (hstate : s.sdoEntryState = .busyUpdate)
      (hcurrent : s.sdoUpdateEntries.current = some (some e)) (hprogress : s.inProgress = {e})

def WritesQueued (s : Interface E) : Prop :=
  ∀ e, (s.entry e).operation = .write → ∃ val, (some e, val) ∈ s.initialisationEntries.items

structure Invariant (size : E → ℕ) (s : Interface E) : Prop where
  tracks : s.Tracks size
  writes : s.WritesQueued

variable {size : E → ℕ} {s t : Interface E}

theorem WritesQueued.mono (hs : s.WritesQueued)
    (hop : ∀ e, (t.entry e).operation = .write → (s.entry e).operation = .write)
    (hite : ∀ x ∈ s.initialisationEntries.items, x ∈ t.initialisationEntries.items) :
    t.WritesQueued := by
  intro e he
  obtain ⟨val, hval⟩ := hs e (hop e he)
  exact ⟨val, hite _ hval⟩

theorem WritesQueued.of_eq (hs : s.WritesQueued) (hent : t.entry = s.entry)
    (hite : t.initialisationEntries.items = s.initialisationEntries.items) : t.WritesQueued :=
  hs.mono (fun _ he => hent ▸ he) fun _ hx => hite ▸ hx

theorem WritesQueued.erase {e : E} {val : Int64} (hs : s.WritesQueued)
    (hcur : s.initialisationEntries.current = some (some e, val))
    (hop : ∀ e', (t.entry e').operation = .write → e' ≠ e ∧ (s.entry e').operation = .write)
    (hite : t.initialisationEntries = s.initialisationEntries.erase) : t.WritesQueued := by
  intro e' he'
  obtain ⟨hne, hwri⟩ := hop e' he'
  obtain ⟨val', hval'⟩ := hs e' hwri
  refine ⟨val', ?_⟩
  rw [hite]
  rcases s.initialisationEntries.mem_erase_or hval' with h | h
  · exact h
  · rw [hcur] at h
    simp only [Option.some.injEq, Prod.mk.injEq] at h
    exact absurd h.1.symm hne

theorem Tracks.card_le (h : s.Tracks size) : s.inProgress.card ≤ 1 := by
  cases h with
  | idle _ hpro => simp [hpro]
  | writing _ _ hpro _ => simp [hpro]
  | reading _ _ hpro => simp [hpro]

theorem Tracks.inProgress_of_none (h : s.Tracks size) (hsta : s.sdoEntryState = .none) :
    s.inProgress = ∅ := by
  cases h with
  | idle _ hpro => exact hpro
  | writing hbus => exact absurd (hsta.symm.trans hbus) (by decide)
  | reading hbus => exact absurd (hsta.symm.trans hbus) (by decide)

theorem invariant_queueInitialisationRequest (hs : s.Invariant size) (entry : Option E)
    (val : Int64) : (s.queueInitialisationRequest entry val).Invariant size := by
  constructor
  · cases hs.tracks with
    | idle hsta hpro => exact .idle hsta hpro
    | writing hsta hcur hpro hdat =>
      exact .writing hsta (current_push hcur) hpro hdat
    | reading hsta hcur hpro => exact .reading hsta hcur hpro
  · refine hs.writes.mono ?_ ?_
    · exact fun e he => he
    · intro x hx
      rw [queueInitialisationRequest, items_push]
      exact List.mem_append_left _ hx

theorem invariant_queueRuntimeRequest (hs : s.Invariant size) (entry : Option E) :
    (s.queueRuntimeRequest entry).Invariant size := by
  constructor
  · cases hs.tracks with
    | idle hsta hpro => exact .idle hsta hpro
    | writing hsta hcur hpro hdat => exact .writing hsta hcur hpro hdat
    | reading hsta hcur hpro =>
      exact .reading hsta (current_push hcur) hpro
  · exact hs.writes.of_eq rfl rfl

theorem invariant_queue (hs : s.Invariant size) (q : Queueing E) : (s.queue q).Invariant size := by
  cases q with
  | initialisation entry val => exact invariant_queueInitialisationRequest hs entry val
  | runtime entry => exact invariant_queueRuntimeRequest hs entry

theorem invariant_new :
    (new : Interface E).Invariant size := ⟨.idle rfl rfl, fun _ he => by cases he⟩

theorem invariant_start (before : List (Queueing E)) : (start before).Invariant size := by
  have hque : ∀ (qs : List (Queueing E)) (s : Interface E), s.Invariant size →
      s.inProgress = ∅ → (qs.foldl queue s).Invariant size ∧ (qs.foldl queue s).inProgress = ∅ := by
    intro qs
    induction qs with
    | nil => exact fun s hs hp => ⟨hs, hp⟩
    | cons q qs ih =>
      intro s hs hp
      apply ih _ (invariant_queue hs q)
      cases q <;> exact hp
  obtain ⟨hs, hp⟩ := hque before new invariant_new rfl
  refine ⟨.idle rfl hp, hs.writes.of_eq rfl rfl⟩

section Cycles

theorem invariant_rewindInitialisation (hs : s.Invariant size)
    (hsta : s.sdoEntryState ≠ .busyUpdate) : s.rewindInitialisation.Invariant size ∧
      s.rewindInitialisation.sdoEntryState ≠ .busyUpdate := by
  unfold rewindInitialisation
  split
  · rename_i hend
    rw [atEnd_iff_current] at hend
    refine ⟨⟨?_, hs.writes.of_eq rfl rfl⟩, by simp⟩
    cases hs.tracks with
    | idle _ hpro => exact .idle rfl hpro
    | writing _ hcur => simp [hend] at hcur
    | reading hbus => exact absurd hbus hsta
  · exact ⟨hs, hsta⟩

variable [DecidableEq E] (c : Cycle E)

variable {e : E} {val : Int64}

theorem inProgress_ask (hpro : s.inProgress = {e}) (hend : c.answer.ended) :
    (s.ask c e).inProgress = ∅ := by
  simp [ask, hend, hpro]

theorem ask_of_not_ended (hend : c.answer.ended = false) : s.ask c e = s := by
  simp [ask, hend]

theorem entry_ask (e : E) : (s.ask c e).entry = s.entry := by
  unfold ask
  split <;> rfl

theorem initialisationEntries_ask (e : E) :
    (s.ask c e).initialisationEntries = s.initialisationEntries := by
  unfold ask
  split <;> rfl

theorem writes_ask (e : E) (hs : s.WritesQueued) : (s.ask c e).WritesQueued :=
  hs.of_eq (entry_ask c e) (by rw [initialisationEntries_ask])

omit [DecidableEq E] in
theorem writes_syncValue (hs : s.WritesQueued) : (s.syncValue c).WritesQueued :=
  hs.mono (fun _ he => he) fun _ hx => mem_items_foldl_push hx c.queued

theorem of_write_modify {f : SDOEntry → SDOEntry} (hf : ∀ x, (f x).operation = .read) {e e' : E}
    (h : ((s.modify f e).entry e').operation = .write) :
    e' ≠ e ∧ (s.entry e').operation = .write := by
  by_cases he : e' = e
  · subst he
    simp [modify, hf] at h
  · simpa [modify, he] using h

theorem operation_failure (e e' : E) :
    ((s.modify SDOEntry.failure e).entry e').operation = (s.entry e').operation := by
  by_cases he : e' = e
  · subst he
    simp [modify, SDOEntry.failure]
  · simp [modify, he]

theorem writes_retryOrDrop (hs : s.WritesQueued)
    (hcur : s.initialisationEntries.current = some (some e, val)) :
    (s.retryOrDrop e).WritesQueued := by
  unfold retryOrDrop
  split
  · refine hs.mono (fun _ he => he) fun x hx => ?_
    rwa [items_next]
  · refine hs.erase hcur ?_ rfl
    intro e' he'
    exact of_write_modify (fun _ => rfl) he'

theorem inProgress_retryOrDrop (e : E) : (s.retryOrDrop e).inProgress = s.inProgress := by
  unfold retryOrDrop
  split <;> rfl

section

variable (hs : s.Invariant size)

include hs

section

variable (hcur : s.initialisationEntries.current = some (some e, val))

include hcur

theorem invariant_pollInitialisation (hpro : s.inProgress = {e}) :
    (s.pollInitialisation c e).Invariant size := by
  have hwri := writes_ask c e hs.writes
  have hcur' : (s.ask c e).initialisationEntries.current = some (some e, val) := by
    rwa [initialisationEntries_ask]
  unfold pollInitialisation
  cases hans : c.answer with
  | unused =>
    have hend := inProgress_ask c hpro (by rw [hans]; rfl)
    exact ⟨.idle rfl hend, hwri.of_eq rfl rfl⟩
  | busy | unexpected =>
    rwa [ask_of_not_ended c (by rw [hans]; rfl)]
  | success =>
    have hend := inProgress_ask c hpro (by rw [hans]; rfl)
    refine ⟨.idle rfl hend, ?_⟩
    refine (writes_syncValue c hwri).erase
      (current_foldl_push hcur' c.queued) ?_ rfl
    intro e' he'
    exact of_write_modify SDOEntry.operation_success he'
  | error =>
    have hend := inProgress_ask c hpro (by rw [hans]; rfl)
    have hfai : ((s.ask c e).modify SDOEntry.failure e).WritesQueued := by
      refine hwri.mono (fun e' he' => ?_) fun _ hx => hx
      rwa [operation_failure] at he'
    constructor
    · refine .idle rfl ?_
      exact (inProgress_retryOrDrop e).trans hend
    · exact (writes_retryOrDrop hfai hcur').of_eq rfl rfl

theorem invariant_startWrite
    (hsta : s.sdoEntryState = .none) : (s.startWrite size e val).Invariant size := by
  have hpro := hs.tracks.inProgress_of_none hsta
  constructor
  · refine .writing rfl hcur ?_ ?_
    · simp [startWrite, hpro]
    · simp [startWrite]
  · intro e' he'
    by_cases h : e' = e
    · subst h
      exact ⟨val, mem_items_of_current hcur⟩
    · apply hs.writes e'
      simpa [startWrite, modify, h] using he'

end

theorem invariant_initialise (hsta : s.sdoEntryState ≠ .busyUpdate) :
    (s.initialise size c).Invariant size := by
  unfold initialise
  split
  · exact hs
  · rename_i val hcur
    refine ⟨?_, hs.writes.mono (fun _ he => he) fun x hx => ?_⟩
    · cases hs.tracks with
      | idle hnon hpro => exact .idle hnon hpro
      | writing _ hwri => simp [hcur] at hwri
      | reading hbus => exact absurd hbus hsta
    · rwa [items_next]
  · rename_i e val hcur
    by_cases hnon : s.sdoEntryState = .none
    · rw [if_pos hnon]
      exact invariant_startWrite hs hcur hnon
    · rw [if_neg hnon]
      cases hs.tracks with
      | idle h => exact absurd h hnon
      | writing _ hwri hpro =>
        -- the entry whose request is in progress is the current one
        rw [hcur, Option.some.injEq, Prod.mk.injEq, Option.some.injEq] at hwri
        rw [← hwri.1] at hpro
        exact invariant_pollInitialisation c hs hcur hpro
      | reading hbus => exact absurd hbus hsta

theorem invariant_checkSDOInitialisation : (s.checkSDOInitialisation size c).2.Invariant size := by
  unfold checkSDOInitialisation
  split
  · exact hs
  · rename_i hini
    have hsta : s.sdoEntryState ≠ .busyUpdate := by
      intro h
      simp [initialised, h] at hini
    obtain ⟨hs', hsta'⟩ := invariant_rewindInitialisation hs hsta
    exact invariant_initialise c hs' hsta'

end

/-- When the updates are checked: a read is in progress, or nothing is queued for writing. -/
def UpdatesDue (s : Interface E) : Prop :=
  s.sdoEntryState = .busyUpdate ∨ s.initialisationEntries.items = []

omit [DecidableEq E] in
theorem updatesDue_of_initialised (h : s.initialised = true) : s.UpdatesDue := by
  simp only [initialised, Bool.or_eq_true, decide_eq_true_eq, Bool.and_eq_true,
    List.isEmpty_iff] at h
  exact h.imp id And.right

section

variable (hs : s.Invariant size)

include hs

theorem invariant_pollUpdate (hpro : s.inProgress = {e}) : (s.pollUpdate c e).Invariant size := by
  have hwri := writes_ask c e hs.writes
  unfold pollUpdate
  cases hans : c.answer with
  | unused =>
    have hend := inProgress_ask c hpro (by rw [hans]; rfl)
    exact ⟨.idle rfl hend, hwri.of_eq rfl rfl⟩
  | busy | unexpected =>
    rwa [ask_of_not_ended c (by rw [hans]; rfl)]
  | success =>
    have hend := inProgress_ask c hpro (by rw [hans]; rfl)
    dsimp only
    split
    · refine ⟨.idle rfl hend, (writes_syncValue c hwri).mono ?_ fun _ hx => hx⟩
      intro e' he'
      exact (of_write_modify SDOEntry.operation_success he').2
    · exact ⟨.idle rfl hend, hwri.of_eq rfl rfl⟩
  | error =>
    have hend := inProgress_ask c hpro (by rw [hans]; rfl)
    refine ⟨.idle rfl hend, hwri.mono (fun e' he' => ?_) fun _ hx => hx⟩
    rwa [← operation_failure e e']

theorem invariant_startRead
    (hcur : s.sdoUpdateEntries.current = some (some e)) (hsta : s.sdoEntryState = .none) :
    (s.startRead e).Invariant size := by
  have hpro := hs.tracks.inProgress_of_none hsta
  refine ⟨.reading rfl hcur ?_, hs.writes.of_eq rfl rfl⟩
  simp [startRead, hpro]

theorem update_spec (hdue : s.UpdatesDue) : ∃ t, s.update c = some t ∧ t.Invariant size := by
  have hski : (∀ e, s.sdoUpdateEntries.current = some (some e) → s.sdoEntryState = .none) →
      s.nextUpdate.Invariant size := by
    intro hnon
    refine ⟨?_, hs.writes.of_eq rfl rfl⟩
    cases hs.tracks with
    | idle hsta hpro => exact .idle hsta hpro
    | writing hsta hcur hpro hdat => exact .writing hsta hcur hpro hdat
    | @reading e hsta hcur => exact absurd ((hnon e hcur).symm.trans hsta) (by decide)
  unfold update
  cases hcur : s.sdoUpdateEntries.current with
  | none => exact ⟨s, rfl, hs⟩
  | some o =>
    cases o with
    | none =>
      refine ⟨_, rfl, hski fun e he => ?_⟩
      simp [hcur] at he
    | some e =>
      dsimp only
      by_cases hnon : s.sdoEntryState = .none
      · rw [if_pos hnon]
        by_cases hdis : c.disabled e
        · rw [if_pos hdis]
          exact ⟨_, rfl, hski fun _ _ => hnon⟩
        · rw [if_neg hdis]
          cases hop : (s.entry e).operation with
          | read => exact ⟨_, rfl, invariant_startRead hs hcur hnon⟩
          | write =>
            -- the entry is still queued, so that the updates were not due
            obtain ⟨val, hval⟩ := hs.writes e hop
            rcases hdue with hbus | hemp
            · exact absurd (hnon.symm.trans hbus) (by decide)
            · rw [hemp] at hval
              cases hval
      · rw [if_neg hnon]
        refine ⟨_, rfl, ?_⟩
        cases hs.tracks with
        | idle h => exact absurd h hnon
        | writing hsta hwri =>
          rcases hdue with hbus | hemp
          · exact absurd (hsta.symm.trans hbus) (by decide)
          · have hmem := mem_items_of_current hwri
            rw [hemp] at hmem
            cases hmem
        | reading _ hrea hpro =>
          rw [hcur, Option.some.injEq, Option.some.injEq] at hrea
          rw [← hrea] at hpro
          exact invariant_pollUpdate c hs hpro

omit [DecidableEq E] in
theorem rewindUpdates_spec (hdue : s.UpdatesDue) :
    s.rewindUpdates.Invariant size ∧ s.rewindUpdates.UpdatesDue := by
  unfold rewindUpdates
  split
  · rename_i hend
    rw [atEnd_iff_current] at hend
    have hemp : s.initialisationEntries.items = [] := by
      rcases hdue with hbus | hemp
      · cases hs.tracks with
        | idle h => exact absurd (h.symm.trans hbus) (by decide)
        | writing h => exact absurd (h.symm.trans hbus) (by decide)
        | reading _ hcur => simp [hend] at hcur
      · exact hemp
    refine ⟨⟨?_, hs.writes.of_eq rfl rfl⟩, .inr hemp⟩
    cases hs.tracks with
    | idle _ hpro => exact .idle rfl hpro
    | writing _ hwri =>
      have hmem := mem_items_of_current hwri
      rw [hemp] at hmem
      cases hmem
    | reading _ hcur => simp [hend] at hcur
  · exact ⟨hs, hdue⟩

theorem checkSDOUpdates_spec (hdue : s.UpdatesDue) :
    ∃ t, s.checkSDOUpdates c = some t ∧ t.Invariant size := by
  unfold checkSDOUpdates
  split
  · exact ⟨s, rfl, hs⟩
  · obtain ⟨hs', hdue'⟩ := rewindUpdates_spec hs hdue
    exact update_spec c hs' hdue'

theorem receiveState_spec : ∃ t, s.receiveState size c = some t ∧ t.Invariant size := by
  have hche := invariant_checkSDOInitialisation c hs
  unfold receiveState checkSDOInitialisation at *
  by_cases hini : s.initialised
  · simp only [if_pos hini, if_true]
    exact checkSDOUpdates_spec c hs (updatesDue_of_initialised hini)
  · rw [if_neg hini] at hche ⊢
    exact ⟨_, rfl, hche⟩

end

end Cycles

theorem step_spec [DecidableEq E] (hs : s.Invariant size) (a : Event E) :
    ∃ t, s.step size a = some t ∧ t.Invariant size := by
  cases a with
  | queue q => exact ⟨_, rfl, invariant_queue hs q⟩
  | receiveState c => exact receiveState_spec c hs

/-- Whatever is queued and answered, the assertion never fails, and at most one request is in
progress after every event and between the two checks of a cycle. -/
theorem sdo_one_request [DecidableEq E] (size : E → ℕ) (before : List (Queueing E))
    (events : List (Event E)) :
    ∃ s, Runs.execute (step size) (start before) events = some s ∧ s.inProgress.card ≤ 1 ∧
      ∀ c, (s.checkSDOInitialisation size c).2.inProgress.card ≤ 1 := by
  have hsta : (start before).Invariant size := invariant_start before
  obtain ⟨s, hs, hinv⟩ := Runs.execute_invariant (fun s a hs => step_spec hs a) hsta events
  refine ⟨s, hs, hinv.tracks.card_le, fun c => ?_⟩
  exact (invariant_checkSDOInitialisation c hinv).tracks.card_le

end Interface

end Clockwork.Sdo
