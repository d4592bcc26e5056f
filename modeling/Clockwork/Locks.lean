import Clockwork.MachineCommand
import Mathlib.Data.List.Induction

namespace Clockwork.Locks

open List Option

open MachineCommand (Status)

inductive Kind where
  | lock | unlock
deriving DecidableEq, Repr

variable {A M : Type} [DecidableEq A] [DecidableEq M]

def lock (requester : M) (locked : Option M) : Bool × Option M :=
  if locked.isSome ∧ locked ≠ some requester then (false, locked) else (true, some requester)

def unlock (requester : M) (locked : Option M) : Bool × Option M :=
  if locked ≠ some requester then (false, locked) else (true, none)

def Kind.request : Kind → M → Option M → Bool × Option M
  | .lock => Locks.lock
  | .unlock => Locks.unlock

def Kind.refused : Kind → Status
  | .lock => .running
  | .unlock => .failed

structure Actions (A M : Type) where
  kind : A → Kind
  owner : A → M

structure State (A M : Type) where
  locked : Option M
  enabled : Bool
  status : A → Status

inductive Event (A : Type) where
  | run (a : A) (found : Bool)
  | checkComplete (a : A) (executing : Bool)
  | setStatus (a : A) (status : Status)
  | enable
  | disable

section Steps

variable (actions : Actions A M) (collection : Bool) (s : State A M)

def State.request (a : A) : State A M :=
  let r := (actions.kind a).request (actions.owner a) s.locked
  { s with
    locked := r.2
    status := Function.update s.status a
      (if r.1 then .complete else (actions.kind a).refused) }

def State.retries (a : A) (executing : Bool) : Prop :=
  s.status a ≠ .complete ∧ s.status a ≠ .failed ∧ executing = true

instance (s : State A M) (a : A) (executing : Bool) : Decidable (s.retries a executing) :=
  inferInstanceAs (Decidable (_ ∧ _))

/-- `disable` comes to the lock; `collection` tells that the machine is a `LIST` or a
`REFERENCE`. -/
def State.disables : Prop := s.enabled = true ∨ collection = true

instance (s : State A M) : Decidable (s.disables collection) :=
  inferInstanceAs (Decidable (_ ∨ _))

def step : Event A → State A M
  | .run a found =>
    if found then s.request actions a
    else { s with status := Function.update s.status a .failed }
  | .checkComplete a executing => if s.retries a executing then s.request actions a else s
  | .setStatus a status => { s with status := Function.update s.status a status }
  | .enable => { s with enabled := true }
  | .disable => if s.disables collection then { s with locked := none, enabled := false } else s

def requesting : Event A → Option A
  | .run a found => if found then some a else none
  | .checkComplete a executing => if s.retries a executing then some a else none
  | _ => none

/-- The kind and the owner of the action that an event ends with `Complete`. -/
def completed (e : Event A) : Option (Kind × M) :=
  (requesting s e).bind fun a =>
    if ((actions.kind a).request (actions.owner a) s.locked).1 then
      some (actions.kind a, actions.owner a)
    else none

def execute (es : List (Event A)) : State A M :=
  es.foldl (step actions collection) s

def completions : State A M → List (Event A) → List (Kind × M)
  | _, [] => []
  | s, e :: es => (completed actions s e).toList ++ completions (step actions collection s e) es

/-- From the end of a `LOCK` to the next end of an `UNLOCK` of the same machine, no other
machine ends a `LOCK` or an `UNLOCK`. -/
def Exclusive (trace : List (Kind × M)) : Prop :=
  ∀ before between after a b k,
    trace = before ++ (Kind.lock, a) :: (between ++ (k, b) :: after) → b ≠ a →
      (Kind.unlock, a) ∈ between

/-- `disable` has taken the lock from the machine, which has completed no action since. -/
def Dropped (es : List (Event A)) (a : M) : Prop :=
  ∃ before after, es = before ++ .disable :: after ∧
    (execute actions collection s before).disables collection ∧
    (execute actions collection s before).locked = some a ∧
    ∀ k, (k, a) ∉ completions actions collection
      (execute actions collection s (before ++ [.disable])) after

def Inside (trace : List (Kind × M)) (a : M) : Prop :=
  ∃ before after, trace = before ++ (Kind.lock, a) :: after ∧ (Kind.unlock, a) ∉ after

end Steps

section Snoc

variable (actions : Actions A M) (collection : Bool) (s : State A M) (es : List (Event A))
  (e : Event A)

theorem execute_concat : execute actions collection s (es ++ [e]) =
    step actions collection (execute actions collection s es) e := by
  simp [execute]

theorem completions_concat : completions actions collection s (es ++ [e]) =
    completions actions collection s es ++
      (completed actions (execute actions collection s es) e).toList := by
  induction es generalizing s with
  | nil => simp [completions, execute]
  | cons d es ih =>
    rw [cons_append, completions, completions, ih, append_assoc]
    rfl

variable (trace : List (Kind × M))

omit [DecidableEq M] in
theorem inside_concat_iff (k : Kind) (b a : M) :
    Inside (trace ++ [(k, b)]) a ↔
      (k = .lock ∧ b = a) ∨ (Inside trace a ∧ ¬(k = .unlock ∧ b = a)) := by
  constructor
  · rintro ⟨before, after, htra, haft⟩
    rcases eq_nil_or_concat after with rfl | ⟨after, x, rfl⟩
    · obtain ⟨-, hlas⟩ := append_inj' htra rfl
      obtain ⟨rfl, rfl⟩ := Prod.mk.inj (singleton_inj.mp hlas)
      exact .inl ⟨rfl, rfl⟩
    · rw [concat_eq_append, ← cons_append, ← append_assoc] at htra
      obtain ⟨rfl, hlas⟩ := append_inj' htra rfl
      obtain rfl := singleton_inj.mp hlas
      rw [concat_eq_append, mem_append, not_or] at haft
      refine .inr ⟨⟨before, after, rfl, haft.1⟩, ?_⟩
      rintro ⟨rfl, rfl⟩
      exact haft.2 (mem_singleton.mpr rfl)
  · rintro (⟨rfl, rfl⟩ | ⟨⟨before, after, rfl, haft⟩, hne⟩)
    · exact ⟨trace, [], rfl, by simp⟩
    · refine ⟨before, after ++ [(k, b)], by simp, ?_⟩
      rw [mem_append, mem_singleton, not_or, Prod.mk.injEq]
      exact ⟨haft, fun h => hne ⟨h.1.symm, h.2.symm⟩⟩

omit [DecidableEq M] in
theorem exclusive_concat_iff (k : Kind) (b : M) :
    Exclusive (trace ++ [(k, b)]) ↔ Exclusive trace ∧ ∀ a, Inside trace a → a = b := by
  constructor
  · intro h
    constructor
    · rintro before between after a c l rfl hne
      exact h before between (after ++ [(k, b)]) a c l (by simp) hne
    · rintro a ⟨before, after, rfl, haft⟩
      by_contra hne
      exact haft (h before after [] a b k (by simp) (Ne.symm hne))
  · rintro ⟨htra, hins⟩ before between after a c l heq hne
    rcases eq_nil_or_concat after with rfl | ⟨after, x, rfl⟩
    · rw [← cons_append, ← append_assoc] at heq
      obtain ⟨rfl, hlas⟩ := append_inj' heq rfl
      obtain ⟨rfl, rfl⟩ := Prod.mk.inj (singleton_inj.mp hlas)
      by_contra hbet
      exact hne (hins a ⟨before, between, rfl, hbet⟩).symm
    · refine htra before between after a c l ?_ hne
      rw [concat_eq_append, ← cons_append, ← append_assoc, ← cons_append, ← append_assoc] at heq
      simpa using (append_inj' heq rfl).1

theorem dropped_concat_iff (a : M) : Dropped actions collection s (es ++ [e]) a ↔
    (e = .disable ∧ (execute actions collection s es).disables collection ∧
      (execute actions collection s es).locked = some a) ∨ (Dropped actions collection s es a ∧
      ∀ k, completed actions (execute actions collection s es) e ≠ some (k, a)) := by
  constructor
  · rintro ⟨before, after, hes, hdis, hloc, haft⟩
    rcases eq_nil_or_concat after with rfl | ⟨after, x, rfl⟩
    · obtain ⟨rfl, hlas⟩ := append_inj' hes rfl
      exact .inl ⟨singleton_inj.mp hlas, hdis, hloc⟩
    · rw [concat_eq_append] at hes haft
      rw [← cons_append, ← append_assoc] at hes
      obtain ⟨rfl, hlas⟩ := append_inj' hes rfl
      obtain rfl := singleton_inj.mp hlas
      simp only [completions_concat, mem_append, mem_toList, not_or] at haft
      refine .inr ⟨⟨before, after, rfl, hdis, hloc, fun k => (haft k).1⟩, ?_⟩
      intro k hk
      apply (haft k).2
      rw [← hk]
      simp [execute]
  · rintro (⟨rfl, hdis, hloc⟩ | ⟨⟨before, after, rfl, hdis, hloc, haft⟩, he⟩)
    · exact ⟨es, [], rfl, hdis, hloc, fun k => by simp [completions]⟩
    · refine ⟨before, after ++ [e], by simp, hdis, hloc, fun k => ?_⟩
      rw [completions_concat, mem_append, mem_toList, not_or]
      refine ⟨haft k, ?_⟩
      have hke := he k
      simpa [execute] using hke

end Snoc

section Lock

theorem lock_cases (r : M) (locked : Option M) :
    (lock r locked = (true, some r) ∧ (locked = none ∨ locked = some r)) ∨
      lock r locked = (false, locked) := by
  unfold lock
  split_ifs with h
  · exact .inr rfl
  · refine .inl ⟨rfl, ?_⟩
    cases locked with
    | none => exact .inl rfl
    | some x => exact .inr (by_contra fun hne => h ⟨rfl, hne⟩)

theorem unlock_cases (r : M) (locked : Option M) :
    (unlock r locked = (true, none) ∧ locked = some r) ∨ unlock r locked = (false, locked) := by
  unfold unlock
  split_ifs with h
  · exact .inr rfl
  · exact .inl ⟨rfl, not_not.mp h⟩

variable (actions : Actions A M) (collection : Bool) (s : State A M) (e : Event A)

theorem locked_step_of_requesting {a : A} (h : requesting s e = some a) :
    (step actions collection s e).locked =
      ((actions.kind a).request (actions.owner a) s.locked).2 := by
  cases e with
  | run c found =>
    cases found with
    | false => simp [requesting] at h
    | true =>
      obtain rfl : c = a := by simpa [requesting] using h
      rfl
  | checkComplete c executing =>
    by_cases hr : s.retries c executing
    · obtain rfl : c = a := by simpa [requesting, hr] using h
      rw [step, if_pos hr]
      rfl
    · simp [requesting, hr] at h
  | setStatus c status => simp [requesting] at h
  | enable => simp [requesting] at h
  | disable => simp [requesting] at h

theorem locked_step_of_not_requesting (h : requesting s e = none) :
    (e = .disable ∧ s.disables collection ∧ (step actions collection s e).locked = none) ∨
      (¬(e = .disable ∧ s.disables collection) ∧
        (step actions collection s e).locked = s.locked) := by
  cases e with
  | run c found =>
    cases found with
    | false => exact .inr ⟨by simp, rfl⟩
    | true => simp [requesting] at h
  | checkComplete c executing =>
    by_cases hr : s.retries c executing
    · simp [requesting, hr] at h
    · refine .inr ⟨by simp, ?_⟩
      rw [step, if_neg hr]
  | setStatus c status => exact .inr ⟨by simp, rfl⟩
  | enable => exact .inr ⟨by simp, rfl⟩
  | disable =>
    by_cases hd : s.disables collection
    · refine .inl ⟨rfl, hd, ?_⟩
      rw [step, if_pos hd]
    · refine .inr ⟨by simp [hd], ?_⟩
      rw [step, if_neg hd]

/-- What an event does: a machine takes the lock, a machine gives it back, `disable` clears it,
or it stays as it is. -/
theorem step_cases :
    (∃ b, completed actions s e = some (.lock, b) ∧ (s.locked = none ∨ s.locked = some b) ∧
      (step actions collection s e).locked = some b) ∨
    (∃ b, completed actions s e = some (.unlock, b) ∧ s.locked = some b ∧
      (step actions collection s e).locked = none) ∨
    (completed actions s e = none ∧ e = .disable ∧ s.disables collection ∧
      (step actions collection s e).locked = none) ∨
    (completed actions s e = none ∧ ¬(e = .disable ∧ s.disables collection) ∧
      (step actions collection s e).locked = s.locked) := by
  cases hr : requesting s e with
  | none =>
    have hnon : completed actions s e = none := by rw [completed, hr, bind_none]
    exact .inr (.inr ((locked_step_of_not_requesting actions collection s e hr).imp
      (fun h => ⟨hnon, h⟩) (fun h => ⟨hnon, h⟩)))
  | some a =>
    have hloc := locked_step_of_requesting actions collection s e hr
    have hdis : e ≠ .disable := by
      rintro rfl
      simp [requesting] at hr
    rw [completed, hr, bind_some]
    cases hk : actions.kind a with
    | lock =>
      rw [hk, Kind.request] at hloc
      rcases lock_cases (actions.owner a) s.locked with ⟨h, hbef⟩ | h
      · rw [h] at hloc
        exact .inl ⟨actions.owner a, by simp [Kind.request, h], hbef, hloc⟩
      · rw [h] at hloc
        exact .inr (.inr (.inr ⟨by simp [Kind.request, h], by simp [hdis], hloc⟩))
    | unlock =>
      rw [hk, Kind.request] at hloc
      rcases unlock_cases (actions.owner a) s.locked with ⟨h, hbef⟩ | h
      · rw [h] at hloc
        exact .inr (.inl ⟨actions.owner a, by simp [Kind.request, h], hbef, hloc⟩)
      · rw [h] at hloc
        exact .inr (.inr (.inr ⟨by simp [Kind.request, h], by simp [hdis], hloc⟩))

end Lock

def State.initial (enabled : Bool) (status : A → Status) : State A M :=
  { locked := none, enabled, status }

variable (actions : Actions A M) (collection : Bool) (enabled : Bool) (status : A → Status)

/-- The machines inside are the one that has the lock and those that lost it to `disable`. -/
theorem inside_iff (es : List (Event A)) (a : M) :
    Inside (completions actions collection (.initial enabled status) es) a ↔
      (execute actions collection (.initial enabled status) es).locked = some a ∨
        Dropped actions collection (.initial enabled status) es a := by
  induction es using reverseRecOn with
  | nil => simp [completions, Inside, execute, State.initial, Dropped]
  | append_singleton es e ih =>
    rw [completions_concat, execute_concat, dropped_concat_iff]
    rcases step_cases actions collection
      (execute actions collection (.initial enabled status) es) e with
      ⟨b, hc, hbef, haft⟩ | ⟨b, hc, hbef, haft⟩ | ⟨hc, he, hd, haft⟩ |
        ⟨hc, he, haft⟩
    · have he : e ≠ .disable := by
        rintro rfl
        simp [completed, requesting] at hc
      rw [hc, toList_some, inside_concat_iff, haft]
      all_goals
        grind
    · have he : e ≠ .disable := by
        rintro rfl
        simp [completed, requesting] at hc
      rw [hc, toList_some, inside_concat_iff, haft]
      grind
    · rw [hc, toList_none, append_nil, ih, haft]
      simp [he, hd]
    · rw [hc, toList_none, append_nil, ih, haft]
      simp [← and_assoc, he]

/-- Every `LOCK` that completes finds no other machine that lost the lock to `disable`. -/
def Undisturbed (s : State A M) (es : List (Event A)) : Prop :=
  ∀ before e after, es = before ++ e :: after →
    ∀ b, completed actions (execute actions collection s before) e = some (.lock, b) →
      ∀ a, Dropped actions collection s before a → a = b

theorem undisturbed_concat_iff (s : State A M) (es : List (Event A)) (e : Event A) :
    Undisturbed actions collection s (es ++ [e]) ↔ Undisturbed actions collection s es ∧
        ∀ b, completed actions (execute actions collection s es) e = some (.lock, b) →
          ∀ a, Dropped actions collection s es a → a = b := Runs.forall_event_concat_iff es e

theorem dropped_eq_of_locked (es : List (Event A)) {a b : M}
    (hes : Undisturbed actions collection (.initial enabled status) es)
    (hloc : (execute actions collection (.initial enabled status) es).locked = some b)
    (hdro : Dropped actions collection (.initial enabled status) es a) : a = b := by
  induction es using reverseRecOn with
  | nil => simp [execute, State.initial] at hloc
  | append_singleton es e ih =>
    obtain ⟨hes, he⟩ := (undisturbed_concat_iff actions collection _ es e).mp hes
    rw [execute_concat] at hloc
    rcases step_cases actions collection
      (execute actions collection (.initial enabled status) es) e with
      ⟨c, hc, -, haft⟩ | ⟨c, -, -, haft⟩ | ⟨-, -, -, haft⟩ | ⟨hc, hd, haft⟩
    · obtain rfl : c = b := some.inj (haft.symm.trans hloc)
      rcases (dropped_concat_iff actions collection _ es e a).mp hdro with
        ⟨rfl, -⟩ | ⟨hbef, -⟩
      · simp [completed, requesting] at hc
      · exact he c hc a hbef
    · simp [haft] at hloc
    · simp [haft] at hloc
    · rcases (dropped_concat_iff actions collection _ es e a).mp hdro with
        ⟨hdis, hdia, -⟩ | ⟨hbef, -⟩
      · exact absurd ⟨hdis, hdia⟩ hd
      · exact ih hes (haft.symm.trans hloc) hbef

/-- The lock excludes the other machines exactly if no machine takes it after `disable` has
taken it from another one. -/
theorem exclusive_iff (es : List (Event A)) :
    Exclusive (completions actions collection (.initial enabled status) es) ↔
      Undisturbed actions collection (.initial enabled status) es := by
  induction es using reverseRecOn with
  | nil => simp [completions, Exclusive, Undisturbed]
  | append_singleton es e ih =>
    rw [completions_concat, undisturbed_concat_iff]
    rcases step_cases actions collection
      (execute actions collection (.initial enabled status) es) e with
      ⟨b, hc, hbef, -⟩ | ⟨b, hc, hbef, -⟩ | ⟨hc, -⟩ | ⟨hc, -⟩
    · rw [hc, toList_some, exclusive_concat_iff, ih]
      refine and_congr_right fun _ => ?_
      simp only [inside_iff]
      constructor
      · intro h c hcb a ha
        obtain rfl : b = c := by simpa using hcb
        exact h a (.inr ha)
      · rintro h a (ha | ha)
        · rcases hbef with hb | hb
          · simp [hb] at ha
          · exact some.inj (ha.symm.trans hb)
        · exact h b rfl a ha
    · rw [hc, toList_some, exclusive_concat_iff, ih]
      refine and_congr_right fun hes => ?_
      simp only [inside_iff]
      refine iff_of_true ?_ (by simp)
      rintro a (ha | ha)
      · exact some.inj (ha.symm.trans hbef)
      · exact dropped_eq_of_locked actions collection enabled status es hes hbef ha
    all_goals
      rw [hc, toList_none, append_nil, ih]
      simp

/-- A machine locks the target, the target is disabled, and another machine locks it. -/
theorem lock_taken_after_disable : ¬Exclusive (completions ⟨fun _ => .lock, id⟩ false
      (.initial true fun _ : Bool => .new) [.run false true, .disable, .run true true]) := by
  intro h
  have hmem := h [] [] [] false true .lock (by decide) (by decide)
  cases hmem

end Clockwork.Locks
