import Clockwork.Library.Runs
import Mathlib.Data.List.Infix
import Mathlib.Data.List.Nodup
import Mathlib.Order.Nat

namespace Clockwork.Dispatcher

open Runs List Option

inductive Kind where
  | ordinary | external | channel
deriving DecidableEq, Repr

/-- The receivers and the packages; a package without a receiver goes to all of them. -/
structure Receivers (R P : Type) where
  all : List R
  nodup : all.Nodup
  kind : R → Kind
  receiver : P → Option R

inductive Phase where
  | idle
  | waiting
  | notified
  | request
  | requested
  | running
  | draining
  | done
deriving DecidableEq, Repr

def Phase.holdsMutex : Phase → Bool
  | .draining | .done => true
  | _ => false

def Phase.asks : Phase → Bool
  | .requested | .done => true
  | _ => false

structure State (T R P : Type) where
  phase : Phase
  answered : Bool
  queue : List P
  delivering : T → Option P
  enqueued : List (R × P)
  delivered : List P
  handled : List (P × (R → Bool))

inductive Event (T R P : Type) where
  | push (t : T) (p : P)
  | notify (t : T)
  | spurious
  | answer
  | loop (accepts : R → Bool)

variable {T R P : Type} [DecidableEq T]

def State.initial : State T R P where
  phase := .idle
  answered := false
  queue := []
  delivering _ := none
  enqueued := []
  delivered := []
  handled := []

section Steps

variable (c : Receivers R P)

def dispatch (accepts : R → Bool) (p : P) (enqueued : List (R × P)) : List (R × P) :=
  match c.receiver p with
  | some m =>
    match c.kind m with
    | .ordinary => enqueued ++ [(m, p)]
    -- the message is sent to the outside
    | .external | .channel => enqueued
  | none =>
    c.all.foldl (fun enqueued r => if accepts r then enqueued ++ [(r, p)] else enqueued) enqueued

def loop (s : State T R P) (accepts : R → Bool) : Option (State T R P) :=
  match s.phase with
  | .idle => some { s with phase := if s.queue.isEmpty then .waiting else .request }
  | .waiting => none
  | .notified => some { s with phase := .request }
  | .request => some { s with phase := .requested, answered := false }
  | .requested => if s.answered then some { s with phase := .running } else none
  | .running => some { s with phase := .draining }
  | .draining =>
    match s.queue with
    | [] => some { s with phase := .done, answered := false }
    | p :: rest =>
      some { s with
        queue := rest
        enqueued := dispatch c accepts p s.enqueued
        handled := s.handled ++ [(p, accepts)] }
  | .done => if s.answered then some { s with phase := .idle } else none

def next (s : State T R P) : Event T R P → Option (State T R P)
  | .push t p =>
    if s.phase.holdsMutex = false ∧ s.delivering t = none then
      some { s with
        queue := s.queue ++ [p]
        delivering := Function.update s.delivering t (some p)
        delivered := s.delivered ++ [p] }
    else none
  | .notify t =>
    if s.delivering t = none then none
    else
      some { s with
        phase := if s.phase = .waiting then .notified else s.phase
        delivering := Function.update s.delivering t none }
  | .spurious => if s.phase = .waiting then some { s with phase := .notified } else none
  | .answer =>
    if s.phase.asks = true ∧ s.answered = false then some { s with answered := true } else none
  | .loop accepts => loop c s accepts

def Step (s : State T R P) (e : Event T R P) (s' : State T R P) : Prop := next c s e = some s'

def targets (p : P) (accepts : R → Bool) : List R :=
  match c.receiver p with
  | some m => if c.kind m = .ordinary then [m] else []
  | none => c.all.filter accepts

def mail [DecidableEq R] (s : State T R P) (m : R) : List P :=
  (s.enqueued.filter fun x => decide (x.1 = m)).map Prod.snd

def loopSteps (es : List (Event T R P)) : ℕ :=
  es.countP fun e => match e with
    | .loop _ => true
    | _ => false

end Steps

section Cases

variable {c : Receivers R P} {s s' : State T R P}

/-- A step queues a package, takes one from the queue, or leaves the packages as they are. -/
inductive Moves (c : Receivers R P) (s s' : State T R P) : Prop where
  | push (t : T) (p : P) (hphase : s'.phase = s.phase)
      (hfree : s.delivering t = none) (hmutex : s.phase.holdsMutex = false)
      (hqueue : s'.queue = s.queue ++ [p])
      (hdelivering : s'.delivering = Function.update s.delivering t (some p))
      (hdelivered : s'.delivered = s.delivered ++ [p])
      (henqueued : s'.enqueued = s.enqueued) (hhandled : s'.handled = s.handled)
  | take (p : P) (accepts : R → Bool) (hphase : s.phase = .draining)
      (hphase' : s'.phase = .draining) (hqueue : s.queue = p :: s'.queue)
      (hdelivering : s'.delivering = s.delivering) (hdelivered : s'.delivered = s.delivered)
      (henqueued : s'.enqueued = dispatch c accepts p s.enqueued)
      (hhandled : s'.handled = s.handled ++ [(p, accepts)])
  | stay (hqueue : s'.queue = s.queue) (hdelivered : s'.delivered = s.delivered)
      (henqueued : s'.enqueued = s.enqueued) (hhandled : s'.handled = s.handled)
      (hwaiting : s'.phase = .waiting → s.queue = [])

theorem moves_loop {accepts : R → Bool} (h : loop c s accepts = some s') : Moves c s s' := by
  obtain ⟨phase, answered, queue, delivering, enqueued, delivered, handled⟩ := s
  cases phase with
  | idle =>
    cases h
    refine .stay rfl rfl rfl rfl fun hwai => ?_
    by_contra hne
    simp [hne] at hwai
  | waiting => cases h
  | notified =>
    cases h
    exact .stay rfl rfl rfl rfl (by simp)
  | request =>
    cases h
    exact .stay rfl rfl rfl rfl (by simp)
  | requested =>
    simp only [loop] at h
    split at h
    · cases h
      exact .stay rfl rfl rfl rfl (by simp)
    · cases h
  | running =>
    cases h
    exact .stay rfl rfl rfl rfl (by simp)
  | draining =>
    cases queue with
    | nil =>
      cases h
      exact .stay rfl rfl rfl rfl (by simp)
    | cons p rest =>
      cases h
      exact .take p accepts rfl rfl rfl rfl rfl rfl rfl
  | done =>
    simp only [loop] at h
    split at h
    · cases h
      exact .stay rfl rfl rfl rfl (by simp)
    · cases h

theorem moves_of_step {e : Event T R P} (h : Step c s e s') : Moves c s s' := by
  unfold Step at h
  cases e with
  | push t p =>
    simp only [next] at h
    split at h
    next hfre =>
      cases h
      exact .push t p rfl hfre.2 hfre.1 rfl rfl rfl rfl rfl
    next => cases h
  | notify t =>
    simp only [next] at h
    split at h
    next => cases h
    next =>
      cases h
      refine .stay rfl rfl rfl rfl fun hwai => ?_
      split at hwai
      next => cases hwai
      next hne => exact absurd hwai hne
  | spurious =>
    simp only [next] at h
    split at h
    next =>
      cases h
      exact .stay rfl rfl rfl rfl (by simp)
    next => cases h
  | answer =>
    simp only [next] at h
    split at h
    next hask =>
      cases h
      refine .stay rfl rfl rfl rfl fun hwai => ?_
      rw [show s.phase = .waiting from hwai] at hask
      cases hask.1
    next => cases h
  | loop accepts => exact moves_loop h

end Cases

section Once

variable {c : Receivers R P} {s s' : State T R P}

omit [DecidableEq T] in
theorem foldl_enqueue (accepts : R → Bool) (p : P) (rs : List R) (enqueued : List (R × P)) :
    rs.foldl (fun enqueued r => if accepts r then enqueued ++ [(r, p)] else enqueued) enqueued =
      enqueued ++ (rs.filter accepts).map fun r => (r, p) := by
  induction rs generalizing enqueued with
  | nil => simp
  | cons r rs ih =>
    rw [foldl_cons, ih]
    cases hr : accepts r <;> simp [hr]

theorem dispatch_eq (accepts : R → Bool) (p : P) (enqueued : List (R × P)) :
    dispatch c accepts p enqueued = enqueued ++ (targets c p accepts).map fun r => (r, p) := by
  unfold dispatch targets
  cases c.receiver p with
  | none => exact foldl_enqueue accepts p c.all enqueued
  | some m =>
    simp only
    cases c.kind m <;> simp

structure Ordered (c : Receivers R P) (s : State T R P) : Prop where
  queued : s.handled.map Prod.fst ++ s.queue = s.delivered
  enqueued : s.enqueued = s.handled.flatMap fun x => (targets c x.1 x.2).map fun r => (r, x.1)
  notifies : s.phase = .waiting → ∀ p ∈ s.queue, ∃ t, s.delivering t = some p

theorem Ordered.step (hs : Ordered c s) (h : Moves c s s') : Ordered c s' := by
  cases h with
  | push t p hpha hfre _ hque hdei hdel henq hhan =>
    refine ⟨?_, by rw [henq, hhan, hs.enqueued], fun hwai q hq => ?_⟩
    · rw [hhan, hque, hdel, ← hs.queued, append_assoc]
    · rw [hque, mem_append, mem_singleton] at hq
      rcases hq with hq | rfl
      · obtain ⟨u, hu⟩ := hs.notifies (hpha ▸ hwai) q hq
        refine ⟨u, ?_⟩
        rw [hdei, Function.update_of_ne]
        · exact hu
        · rintro rfl
          rw [hfre] at hu
          cases hu
      · exact ⟨t, by rw [hdei, Function.update_self]⟩
  | take p accepts _ hpha' hque _ hdel henq hhan =>
    refine ⟨?_, ?_, fun hwai => ?_⟩
    · rw [hhan, hdel, ← hs.queued, hque]
      simp
    · rw [henq, hhan, dispatch_eq, hs.enqueued]
      simp
    · rw [hpha'] at hwai
      cases hwai
  | stay hque hdel henq hhan hwai =>
    refine ⟨?_, by rw [henq, hhan, hs.enqueued], fun hpha q hq => ?_⟩
    · rw [hhan, hque, hdel, hs.queued]
    · rw [hque, hwai hpha] at hq
      cases hq

theorem ordered_of_run {es : List (Event T R P)} (h : Run (Step c) .initial es s) :
    Ordered c s := by
  refine h.invariant (I := Ordered c) ?_ ⟨rfl, rfl, by simp [State.initial]⟩
  intro s e s' hs hste
  exact hs.step (moves_of_step hste)

variable (c) in
theorem nodup_targets (p : P) (accepts : R → Bool) : (targets c p accepts).Nodup := by
  unfold targets
  cases c.receiver p with
  | none => exact c.nodup.filter accepts
  | some m =>
    simp only
    split
    · exact nodup_singleton m
    · exact nodup_nil

variable [DecidableEq R]

omit [DecidableEq T] in
theorem filter_targets {l : List R} (hl : l.Nodup) (p : P) (m : R) :
    ((l.map fun r => (r, p)).filter fun x => decide (x.1 = m)).map Prod.snd =
      if m ∈ l then [p] else [] := by
  induction l with
  | nil => rfl
  | cons r l ih =>
    rw [nodup_cons] at hl
    rw [map_cons, filter_cons]
    by_cases hr : r = m
    · subst hr
      have hres := ih hl.2
      rw [if_neg hl.1] at hres
      simp [hres]
    · have hmem : m ∈ r :: l ↔ m ∈ l := by simp [Ne.symm hr]
      simp only [hmem, ← ih hl.2]
      simp [hr]

omit [DecidableEq T] in
theorem mail_eq (hs : Ordered c s) (m : R) :
    mail s m = (s.handled.filter fun x => decide (m ∈ targets c x.1 x.2)).map Prod.fst := by
  rw [mail, hs.enqueued]
  induction s.handled with
  | nil => rfl
  | cons x l ih =>
    rw [flatMap_cons, filter_append, map_append, ih,
      filter_targets (nodup_targets c x.1 x.2), filter_cons]
    by_cases hm : m ∈ targets c x.1 x.2 <;> simp [hm]

end Once

section Progress

variable {c : Receivers R P} {s s' : State T R P}

def Phase.distance : Phase → ℕ
  | .done => 5
  | .idle | .waiting | .notified => 4
  | .request => 3
  | .requested => 2
  | .running => 1
  | .draining => 0

theorem distance_le (phase : Phase) : phase.distance ≤ 5 := by
  cases phase <;> decide

open Phase

omit [DecidableEq T] in
theorem distance_loop {accepts : R → Bool} (h : loop c s accepts = some s') (hque : s.queue ≠ []) :
    s'.phase.distance + 1 + s.handled.length ≤ s.phase.distance + s'.handled.length := by
  obtain ⟨phase, answered, queue, delivering, enqueued, delivered, handled⟩ := s
  cases phase with
  | idle =>
    cases h
    have hne : queue.isEmpty = false := by simpa using hque
    simp [hne, distance]
  | waiting => cases h
  | notified =>
    cases h
    simp [distance]
  | request =>
    cases h
    simp [distance]
  | requested =>
    simp only [loop] at h
    split at h
    · cases h
      simp [distance]
    · cases h
  | running =>
    cases h
    simp [distance]
  | draining =>
    cases queue with
    | nil => exact absurd rfl hque
    | cons p rest =>
      cases h
      simp only [distance, length_append, length_singleton]
      omega
  | done =>
    simp only [loop] at h
    split at h
    · cases h
      simp [distance]
    · cases h

theorem distance_step {e : Event T R P} (h : Step c s e s') (hque : s.queue ≠ []) :
    s'.phase.distance + loopSteps [e] + s.handled.length ≤
      s.phase.distance + s'.handled.length := by
  unfold Step at h
  cases e with
  | push t p =>
    simp only [next] at h
    split at h
    · cases h
      exact le_rfl
    · cases h
  | notify t =>
    simp only [next] at h
    split at h
    · cases h
    · cases h
      by_cases hwai : s.phase = .waiting
      · simp [hwai, loopSteps, distance]
      · simp [hwai, loopSteps]
  | spurious =>
    simp only [next] at h
    split at h
    next hwai =>
      cases h
      simp [hwai, loopSteps, distance]
    next => cases h
  | answer =>
    simp only [next] at h
    split at h
    · cases h
      exact le_rfl
    · cases h
  | loop accepts => exact distance_loop h hque

theorem delivered_isPrefix (h : Moves c s s') : s.delivered <+: s'.delivered := by
  cases h with
  | push t p _ _ _ _ _ hdel =>
    rw [hdel]
    exact prefix_append ..
  | take p accepts _ _ _ _ hdel => rw [hdel]
  | stay _ hdel => rw [hdel]

variable {es : List (Event T R P)}

theorem delivered_run (h : Run (Step c) s es s') : s.delivered <+: s'.delivered := by
  induction h with
  | nil s => exact prefix_rfl
  | cons hste _ ih => exact (delivered_isPrefix (moves_of_step hste)).trans ih

theorem handled_length_le (h : Moves c s s') : s.handled.length ≤ s'.handled.length := by
  cases h with
  | push t p _ _ _ _ _ _ _ hhan => rw [hhan]
  | take p accepts _ _ _ _ _ _ hhan =>
    rw [hhan, length_append]
    omega
  | stay _ _ _ hhan => rw [hhan]

theorem handled_length_le_run (h : Run (Step c) s es s') :
    s.handled.length ≤ s'.handled.length := by
  induction h with
  | nil s => exact le_rfl
  | cons hste _ ih => exact (handled_length_le (moves_of_step hste)).trans ih

/-- In a run that leaves some of the first `n` packages, the loop takes few steps. -/
theorem distance_run (h : Run (Step c) s es s') (hs : Ordered c s) {n : ℕ}
    (hn : n ≤ s.delivered.length) : n ≤ s'.handled.length ∨
      s'.phase.distance + loopSteps es + s.handled.length ≤
        s.phase.distance + s'.handled.length := by
  induction h with
  | nil s => exact .inr le_rfl
  | @cons s t u e es hste run ih =>
    by_cases hque : s.queue = []
    · have hlen := congrArg length hs.queued
      rw [hque, append_nil, length_map] at hlen
      have hhan := handled_length_le_run (.cons hste run)
      exact .inl (by omega)
    · have hmov := moves_of_step hste
      have hdis := distance_step hste hque
      have hloo : loopSteps (e :: es) = loopSteps [e] + loopSteps es := by
        rw [loopSteps, loopSteps, loopSteps, ← countP_append]
        rfl
      refine (ih (hs.step hmov) (hn.trans (delivered_isPrefix hmov).length_le)).imp_right ?_
      intro hres
      omega

theorem handled_of_loopSteps (hs : Ordered c s) (h : Run (Step c) s es s')
    (hstp : s.queue.length + 5 ≤ loopSteps es) : s.delivered <+: s'.handled.map Prod.fst := by
  have hs' : Ordered c s' := by
    refine h.invariant (I := Ordered c) ?_ hs
    intro s e s' hs hste
    exact hs.step (moves_of_step hste)
  have hlen := congrArg length hs.queued
  rw [length_append, length_map] at hlen
  have hhan : s.delivered.length ≤ s'.handled.length := by
    rcases distance_run h hs le_rfl with hle | hle
    · exact hle
    · have := distance_le s.phase
      omega
  refine prefix_of_prefix_length_le (delivered_run h) ?_ (by simpa using hhan)
  rw [← hs'.queued]
  exact prefix_append ..

omit [DecidableEq T] in
theorem loop_isSome (hwai : s.phase ≠ .waiting)
    (hans : s.phase.asks = true → s.answered = true) (accepts : R → Bool) :
    (loop c s accepts).isSome := by
  obtain ⟨phase, answered, queue, delivering, enqueued, delivered, handled⟩ := s
  cases phase with
  | waiting => exact absurd rfl hwai
  | requested => simp [loop, show answered = true from hans rfl]
  | done => simp [loop, show answered = true from hans rfl]
  | draining => cases queue <;> rfl
  | _ => rfl

/-- While packages are queued, the loop can go on, or as soon as the processing thread has
answered or a call of `deliver` has notified. -/
theorem exists_step (hs : Ordered c s) (hque : s.queue ≠ []) :
    (∃ accepts s', Step c s (.loop accepts) s') ∨ (∃ s', Step c s .answer s') ∨
      ∃ t s', Step c s (.notify t) s' ∧ s'.phase = .notified := by
  by_cases hwai : s.phase = .waiting
  · obtain ⟨p, hp⟩ := exists_mem_of_ne_nil _ hque
    obtain ⟨t, ht⟩ := hs.notifies hwai p hp
    refine .inr (.inr ⟨t, { s with
      phase := if s.phase = .waiting then .notified else s.phase
      delivering := Function.update s.delivering t none }, ?_, if_pos hwai⟩)
    rw [Step, next, if_neg (by simp [ht])]
  · by_cases hans : s.phase.asks = true → s.answered = true
    · have hloo := loop_isSome (c := c) hwai hans fun _ => false
      exact .inl ⟨fun _ => false, isSome_iff_exists.mp hloo⟩
    · push Not at hans
      have hask : s.phase.asks = true ∧ s.answered = false := by simpa using hans
      exact .inr (.inl ⟨{ s with answered := true }, if_pos hask⟩)

end Progress

variable [DecidableEq R]

structure Dispatches (c : Receivers R P) (s : State T R P) : Prop where
  inOrder : s.handled.map Prod.fst ++ s.queue = s.delivered
  /-- each package that was handled is once in the mail queue of each receiver that gets it, and
  no other package is -/
  once : ∀ m, mail s m =
    (s.handled.filter fun x => decide (m ∈ targets c x.1 x.2)).map Prod.fst
  /-- no package for which `deliver` has notified is queued while the loop waits -/
  notWaiting : s.phase = .waiting → ∀ p ∈ s.queue, ∃ t, s.delivering t = some p
  goesOn : s.queue ≠ [] → (∃ accepts s', Step c s (.loop accepts) s') ∨
    (∃ s', Step c s .answer s') ∨ ∃ t s', Step c s (.notify t) s' ∧ s'.phase = .notified
  /-- what is delivered is handled when the loop goes on, whatever the threads do -/
  handles : ∀ es s', Run (Step c) s es s' → s.queue.length + 5 ≤ loopSteps es →
    s.delivered <+: s'.handled.map Prod.fst

theorem dispatches_of_run (c : Receivers R P) {es : List (Event T R P)} {s : State T R P}
    (h : Run (Step c) .initial es s) : Dispatches c s := by
  have hs := ordered_of_run h
  exact ⟨hs.queued, mail_eq hs, hs.notifies, exists_step hs,
    fun _ _ hrun => handled_of_loopSteps hs hrun⟩

def oneMachine : Receivers Unit Unit where
  all := [()]
  nodup := List.nodup_singleton ()
  kind _ := .ordinary
  receiver := some

def onePackage : List (Event Unit Unit Unit) :=
  [.loop fun _ => true, .push () (), .notify (), .loop fun _ => true, .loop fun _ => true,
    .answer, .loop fun _ => true, .loop fun _ => true, .loop fun _ => true]

theorem onePackage_dispatches : ∃ s : State Unit Unit Unit,
    Run (Step oneMachine) .initial onePackage s ∧ mail s () = [()] ∧ Dispatches oneMachine s := by
  obtain ⟨s, hs, hmai⟩ : ∃ s, execute (next oneMachine) .initial onePackage = some s ∧
      mail s () = [()] := ⟨_, rfl, rfl⟩
  exact ⟨s, run_of_execute hs, hmai, dispatches_of_run oneMachine (run_of_execute hs)⟩

end Clockwork.Dispatcher
