import Clockwork.Library.Runs
import Mathlib.Data.List.Nodup

namespace WorkStack

open List

structure Job (κ : Type*) where
  id : ℕ
  kind : κ
deriving DecidableEq, Repr

/-- The jobs at hand, the one that is executing last. -/
structure Stack (κ : Type*) where
  active : List (Job κ)
  next : ℕ
  called : List ℕ
  fresh : ∀ j ∈ active, j.id < next
  nodup : (active.map Job.id).Nodup

variable {κ : Type*}

namespace Stack

def empty : Stack κ := ⟨[], 0, [], fun _ h => absurd h List.not_mem_nil, List.nodup_nil⟩

variable (s : Stack κ)

def executing : Option (Job κ) := s.active.getLast?

def newJob (k : κ) : Job κ := ⟨s.next, k⟩

theorem next_not_mem : s.next ∉ s.active.map Job.id := by
  intro h
  obtain ⟨j, hj, hid⟩ := mem_map.mp h
  exact absurd (s.fresh j hj) (by omega)

theorem fresh_newJob (k : κ) {j : Job κ} (h : j ∈ s.active ∨ j = s.newJob k) :
    j.id < s.next + 1 := by
  rcases h with h | rfl
  · exact Nat.lt_succ_of_lt (s.fresh j h)
  · exact Nat.lt_succ_self _

def push (k : κ) : Stack κ where
  active := s.active ++ [s.newJob k]
  next := s.next + 1
  called := s.called
  fresh j h := s.fresh_newJob k (by simpa using h)
  nodup := by
    rw [List.map_append, List.nodup_append]
    refine ⟨s.nodup, List.nodup_singleton _, ?_⟩
    rintro i hi _ (_ | ⟨_, h⟩)
    · rintro rfl
      exact s.next_not_mem hi
    · cases h

def enqueue (k : κ) : Stack κ where
  active := s.newJob k :: s.active
  next := s.next + 1
  called := s.called
  fresh j h := s.fresh_newJob k (by simpa [or_comm] using h)
  nodup := List.nodup_cons.mpr ⟨s.next_not_mem, s.nodup⟩

def remove (j : Job κ) : Stack κ where
  active := s.active.filter (·.id ≠ j.id)
  next := s.next
  called := s.called
  fresh i h := s.fresh i (List.mem_of_mem_filter h)
  nodup := s.nodup.sublist (List.filter_sublist.map _)

def clear : Stack κ where
  active := []
  next := s.next
  called := s.called
  fresh _ h := absurd h List.not_mem_nil
  nodup := List.nodup_nil

def call (j : Job κ) : Stack κ := { s with called := j.id :: s.called }

end Stack

def newJobs (s t : Stack κ) : List (Job κ) := t.active.filter (s.next ≤ ·.id)

theorem newJobs_sublist (s t : Stack κ) : (newJobs s t).Sublist t.active := filter_sublist

@[simp]
theorem newJobs_self (s : Stack κ) : newJobs s s = [] := by
  refine filter_eq_nil_iff.mpr fun j hj => ?_
  have := s.fresh j hj
  simpa using this

variable {s t : Stack κ} {a b : Job κ}

open Stack

theorem newJobs_push (h : s.next ≤ t.next) (k : κ) :
    newJobs s (t.push k) = newJobs s t ++ [t.newJob k] := by
  have hnew : s.next ≤ (t.newJob k).id := h
  simp [newJobs, push, hnew]

theorem newJobs_enqueue (h : s.next ≤ t.next) (k : κ) :
    newJobs s (t.enqueue k) = t.newJob k :: newJobs s t := by
  have hnew : s.next ≤ (t.newJob k).id := h
  simp [newJobs, enqueue, hnew]

theorem newJobs_remove {j : Job κ} (h : j.id < s.next) : newJobs s (t.remove j) = newJobs s t := by
  simp only [newJobs, remove, filter_filter]
  refine filter_congr fun i _ => ?_
  by_cases hi : s.next ≤ i.id
  · have hne : i.id ≠ j.id := by omega
    simp [hi, hne]
  · simp [hi]

theorem executing_push (s : Stack κ) (k : κ) : (s.push k).executing = some (s.newJob k) :=
  getLast?_concat

theorem active_remove_push (s : Stack κ) (k : κ) :
    ((s.push k).remove (s.newJob k)).active = s.active := by
  have hold : s.active.filter (fun j => decide (j.id ≠ s.next)) = s.active :=
    filter_eq_self.mpr fun j hj => decide_eq_true (Nat.ne_of_lt (s.fresh j hj))
  have hnew : [s.newJob k].filter (fun j => decide (j.id ≠ s.next)) = [] :=
    filter_cons_of_neg (by simp [newJob])
  show (s.active ++ [s.newJob k]).filter (fun j => decide (j.id ≠ s.next)) = s.active
  rw [filter_append, hold, hnew, append_nil]

inductive Event (κ : Type*) where
  | called (j : Job κ)
  | pushed (k : κ)
  | enqueued (k : κ)
  | removed (j : Job κ)
  | cleared

/-- Only the job at the back is executed, and a job leaves after it was executed unless
all jobs are thrown away. -/
inductive Step : Stack κ → Event κ → Stack κ → Prop
  | called {s : Stack κ} {j : Job κ} (h : s.executing = some j) : Step s (.called j) (s.call j)
  | pushed (s : Stack κ) (k : κ) : Step s (.pushed k) (s.push k)
  | enqueued (s : Stack κ) (k : κ) : Step s (.enqueued k) (s.enqueue k)
  | removed {s : Stack κ} {j : Job κ} (h : j ∈ s.active) (hcalled : j.id ∈ s.called) :
      Step s (.removed j) (s.remove j)
  | cleared (s : Stack κ) : Step s .cleared s.clear

theorem not_below_executing (hlas : s.executing = some a) : ¬ [a, b].Sublist s.active := by
  intro h
  obtain ⟨l, hl⟩ := getLast?_eq_some_iff.mp hlas
  rw [hl] at h
  have hnod : (l ++ [a]).Nodup := List.Nodup.of_map _ (hl ▸ s.nodup)
  have ha : a ∉ l := by
    intro hmem
    exact (nodup_append.mp hnod).2.2 a hmem a mem_cons_self rfl
  obtain ⟨l₁, l₂, hspl, h₁, h₂⟩ := sublist_append_iff.mp h
  cases l₁ with
  | nil =>
    rw [nil_append] at hspl
    exact absurd (hspl ▸ h₂).length_le (by simp)
  | cons x l₁ =>
    obtain rfl : a = x := (cons.inj hspl).1
    exact ha (h₁.subset mem_cons_self)

theorem step_next {e : Event κ} (h : Step s e t) : s.next ≤ t.next := by
  cases h with
  | pushed | enqueued => exact Nat.le_succ _
  | called | removed | cleared => exact Nat.le_refl _

theorem run_not_mem {es : List (Event κ)} (run : Runs.Run Step s es t) (hid : a.id < s.next)
    (ha : a ∉ s.active) : a ∉ t.active := by
  have hinv : a.id < t.next ∧ a ∉ t.active := by
    refine run.invariant (I := fun s => a.id < s.next ∧ a ∉ s.active) ?_ ⟨hid, ha⟩
    intro s e t ⟨hid, ha⟩ hste
    have hne : ∀ k, a ≠ s.newJob k := by
      rintro k rfl
      exact Nat.lt_irrefl _ hid
    cases hste with
    | called => exact ⟨hid, ha⟩
    | pushed => exact ⟨Nat.lt_succ_of_lt hid, by simp [push, ha, hne]⟩
    | enqueued => exact ⟨Nat.lt_succ_of_lt hid, by simp [enqueue, ha, hne]⟩
    | removed => exact ⟨hid, fun h => ha (mem_of_mem_filter h)⟩
    | cleared => exact ⟨hid, not_mem_nil⟩
  exact hinv.2

/-- A step keeps one job above the other, takes the upper one away or the lower one. -/
theorem step_below {e : Event κ} (hste : Step s e t) (h : [a, b].Sublist s.active) :
    e = .removed b ∨ a ∉ t.active ∨ [a, b].Sublist t.active := by
  cases hste with
  | called => exact .inr (.inr h)
  | pushed => exact .inr (.inr (h.trans (sublist_append_left _ _)))
  | enqueued => exact .inr (.inr (h.cons _))
  | @removed j hj _ =>
    by_cases ha : a.id = j.id
    · exact .inr (.inl (by simp [remove, ha]))
    · by_cases hb : b.id = j.id
      · have hbj : b = j := inj_on_of_nodup_map s.nodup (h.subset (by simp)) hj hb
        exact .inl (by rw [hbj])
      · refine .inr (.inr ?_)
        have hfil := h.filter (fun i => decide (i.id ≠ j.id))
        simpa [remove, ha, hb] using hfil
  | cleared => exact .inr (.inl not_mem_nil)

/-- A job is not executed before the jobs above it were executed and have left. -/
theorem removed_of_called {es : List (Event κ)} (run : Runs.Run Step s (es ++ [.called a]) t)
    (h : [a, b].Sublist s.active) : .removed b ∈ es := by
  induction es generalizing s with
  | nil =>
    cases run with
    | cons hste _ =>
      cases hste with
      | called hexe => exact absurd h (not_below_executing hexe)
  | cons e es ih =>
    cases run with
    | @cons _ u _ _ _ hste run =>
      rcases step_below hste h with he | hgon | hbel
      · exact he ▸ mem_cons_self
      · -- the lower job has left, so it cannot be called at the end
        obtain ⟨v, hrun, hlas⟩ := run.split
        cases hlas with
        | cons hcal _ =>
          cases hcal with
          | called hexe =>
            have hid : a.id < u.next :=
              Nat.lt_of_lt_of_le (s.fresh a (h.subset mem_cons_self)) (step_next hste)
            exact absurd (mem_of_getLast? hexe) (run_not_mem hrun hid hgon)
      · exact mem_cons_of_mem _ (ih run hbel)

end WorkStack
