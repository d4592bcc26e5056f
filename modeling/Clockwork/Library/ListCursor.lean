import Mathlib.Data.List.Basic

/-- A linked list with an iterator: the items it has passed and those from the current one on.
At the end nothing is ahead. -/
structure ListCursor (α : Type*) where
  passed : List α
  ahead : List α
deriving DecidableEq, Repr

namespace ListCursor

open List

variable {α : Type*} (c : ListCursor α)

def items : List α := c.passed ++ c.ahead

def ofList (xs : List α) : ListCursor α := ⟨[], xs⟩

def atEnd : Bool := c.ahead.isEmpty

def current : Option α := c.ahead.head?

def rewind : ListCursor α := ofList c.items

/-- `list.push_back(a)`: an iterator at the end stays there. -/
def push (a : α) : ListCursor α :=
  match c.ahead with
  | [] => ⟨c.passed ++ [a], []⟩
  | b :: bs => ⟨c.passed, b :: bs ++ [a]⟩

def next : ListCursor α :=
  match c.ahead with
  | [] => c
  | b :: bs => ⟨c.passed ++ [b], bs⟩

def erase : ListCursor α := ⟨c.passed, c.ahead.tail⟩

section Operations

variable (c : ListCursor α) (a : α)

@[simp]
theorem items_push : (c.push a).items = c.items ++ [a] := by
  cases c with
  | mk passed ahead =>
    cases ahead with
    | nil => simp [push, items]
    | cons b bs => simp [push, items]

@[simp]
theorem items_next : c.next.items = c.items := by
  cases c with
  | mk passed ahead =>
    cases ahead with
    | nil => rfl
    | cons b bs => simp [next, items]

theorem mem_erase_or {b : α} (h : b ∈ c.items) : b ∈ c.erase.items ∨ c.current = some b := by
  rcases mem_append.mp h with hpas | hahe
  · exact .inl (mem_append_left _ hpas)
  · cases hc : c.ahead with
    | nil =>
      rw [hc] at hahe
      cases hahe
    | cons d ds =>
      rw [hc, mem_cons] at hahe
      rcases hahe with rfl | htai
      · exact .inr (by rw [current, hc, head?_cons])
      · exact .inl (mem_append_right _ (by simpa [erase, hc] using htai))

end Operations

variable {c : ListCursor α} {a b : α}

theorem atEnd_iff_current : c.atEnd = true ↔ c.current = none := by
  rw [atEnd, current, List.isEmpty_iff, List.head?_eq_none_iff]

theorem current_push (h : c.current = some b) : (c.push a).current = some b := by
  cases hc : c.ahead with
  | nil => simp [current, hc] at h
  | cons d ds =>
    rw [current, hc] at h
    rw [push, hc]
    exact h

theorem current_foldl_push (h : c.current = some b) (as : List α) :
    (as.foldl push c).current = some b :=
  foldlRecOn (motive := fun c => c.current = some b) as push h fun _ h _ _ => current_push h

theorem mem_items_foldl_push (h : b ∈ c.items) (as : List α) : b ∈ (as.foldl push c).items := by
  refine foldlRecOn (motive := fun c => b ∈ c.items) as push h fun c h a _ => ?_
  rw [items_push]
  exact mem_append_left _ h

theorem mem_items_of_current (h : c.current = some a) : a ∈ c.items :=
  mem_append_right _ (mem_of_mem_head? h)

end ListCursor
