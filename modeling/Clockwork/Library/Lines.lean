import Mathlib.Tactic.Common

namespace Lines

open List

def lines : List Char → List (List Char)
  | [] => []
  | c :: cs =>
    if c = '\n' then [] :: lines cs
    else
      match lines cs with
      | [] => [[c]]
      | l :: ls => (c :: l) :: ls

theorem lines_append {l : List Char} (hl : '\n' ∉ l) (rest : List Char) :
    lines (l ++ '\n' :: rest) = l :: lines rest := by
  induction l with
  | nil => rfl
  | cons c l ih =>
    obtain ⟨hc, hl⟩ := ne_and_not_mem_of_not_mem_cons hl
    rw [cons_append, lines, if_neg hc.symm, ih hl]

theorem lines_flatMap {α : Type*} {f : α → List Char} {xs : List α}
    (h : ∀ x ∈ xs, '\n' ∉ f x) : lines (xs.flatMap fun x => f x ++ ['\n']) = xs.map f := by
  induction xs with
  | nil => rfl
  | cons x xs ih =>
    obtain ⟨hx, hxs⟩ := forall_mem_cons.mp h
    rw [flatMap_cons, append_assoc, singleton_append, lines_append hx, ih hxs, map_cons]

theorem newline_not_mem {text l : List Char} (h : l ∈ lines text) : '\n' ∉ l := by
  induction text generalizing l with
  | nil => cases h
  | cons c cs ih =>
    rw [lines] at h
    split at h
    · rcases mem_cons.mp h with rfl | h
      · simp
      · exact ih h
    · next hc =>
      split at h
      · rw [mem_singleton.mp h]
        simpa using Ne.symm hc
      · next l' ls heq =>
        rcases mem_cons.mp h with rfl | h
        · have hl' : '\n' ∉ l' := ih (heq ▸ mem_cons_self)
          simp [Ne.symm hc, hl']
        · exact ih (heq ▸ mem_cons_of_mem l' h)

end Lines
