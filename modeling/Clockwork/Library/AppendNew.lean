import Clockwork.Library.Runs
import Mathlib.Data.List.Basic

namespace AppendNew

open List

variable {α : Type*}

def add (found : List α → α → Bool) (dest : List α) (x : α) : List α :=
  if found dest x then dest else dest ++ [x]

def addAll (found : List α → α → Bool) (dest xs : List α) : List α := xs.foldl (add found) dest

variable {f g : List α → α → Bool} {dest : List α}

@[simp] theorem addAll_nil : addAll f dest [] = dest := rfl

@[simp] theorem addAll_cons (x : α) (xs : List α) :
    addAll f dest (x :: xs) = addAll f (add f dest x) xs := rfl

@[simp] theorem addAll_append (xs ys : List α) :
    addAll f dest (xs ++ ys) = addAll f (addAll f dest xs) ys := foldl_append

theorem exists_addAll_eq (f : List α → α → Bool) (dest xs : List α) :
    ∃ ys, addAll f dest xs = dest ++ ys := by
  induction xs generalizing dest with
  | nil => exact ⟨[], by simp⟩
  | cons x xs ih =>
    obtain ⟨ys, hys⟩ := ih (add f dest x)
    rw [addAll_cons, hys, add]
    split_ifs
    · exact ⟨ys, rfl⟩
    · exact ⟨x :: ys, by simp⟩

theorem mem_or_mem_of_mem_addAll {xs : List α} {x : α} (h : x ∈ addAll f dest xs) :
    x ∈ dest ∨ x ∈ xs := by
  induction xs generalizing dest with
  | nil => exact .inl h
  | cons y xs ih =>
    rcases ih h with hdes | hxs
    · rw [add] at hdes
      split_ifs at hdes
      · exact .inl hdes
      · rw [mem_append, mem_singleton] at hdes
        exact hdes.imp id fun heq => by simp [heq]
    · exact .inr (mem_cons_of_mem y hxs)

/-- The first item that is added is not found in the list as it was. -/
theorem not_found_of_addAll_eq {xs ys : List α} {x : α} (h : addAll f dest xs = dest ++ x :: ys) :
    f dest x = false := by
  induction xs with
  | nil => simp at h
  | cons z xs ih =>
    rw [addAll_cons, add] at h
    split_ifs at h with hz
    · exact ih h
    · obtain ⟨zs, hzs⟩ := exists_addAll_eq f (dest ++ [z]) xs
      rw [hzs, append_assoc, append_cancel_left_eq] at h
      obtain rfl : z = x := (cons.inj h).1
      simpa using hz

theorem addAll_ne_of_found {xs ys : List α} {x : α} (hf : f dest x = true) (hg : g dest x = false) :
    addAll f dest xs ≠ addAll g (add g dest x) ys := by
  intro h
  obtain ⟨zs, hzs⟩ := exists_addAll_eq g (add g dest x) ys
  have hadd : add g dest x = dest ++ [x] := by simp [add, hg]
  rw [hzs, hadd, append_assoc] at h
  simp [not_found_of_addAll_eq h] at hf

/-- Two tests lead to the same list exactly if they agree on each item when its turn comes. -/
theorem addAll_eq_iff (xs : List α) : addAll f dest xs = addAll g dest xs ↔
      ∀ before x after, xs = before ++ x :: after →
        f (addAll g dest before) x = g (addAll g dest before) x := by
  induction xs generalizing dest with
  | nil => simp
  | cons x xs ih =>
    rw [Runs.forall_event_cons_iff
      (Q := fun before z => f (addAll g dest before) z = g (addAll g dest before) z)]
    by_cases hx : f dest x = g dest x
    · have hadd : add f dest x = add g dest x := by rw [add, add, hx]
      rw [addAll_cons, addAll_cons, hadd, ih]
      exact (and_iff_right hx).symm
    · refine iff_of_false ?_ (fun h => hx h.1)
      cases hf : f dest x with
      | true =>
        have hg : g dest x = false := by simpa [hf] using Ne.symm hx
        have hadd : add f dest x = dest := by simp [add, hf]
        rw [addAll_cons, addAll_cons, hadd]
        exact addAll_ne_of_found hf hg
      | false =>
        have hg : g dest x = true := by simpa [hf] using Ne.symm hx
        have hadd : add g dest x = dest := by simp [add, hg]
        rw [addAll_cons, addAll_cons, hadd]
        exact (addAll_ne_of_found hg hf).symm

end AppendNew
