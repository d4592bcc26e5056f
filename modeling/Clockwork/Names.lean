import Mathlib.Tactic.Common

namespace Clockwork

open List

def splitDot (name : String) : Option (String × String) :=
  match name.toList.dropWhile (· ≠ '.') with
  | [] => none
  | _ :: rest => some (String.ofList (name.toList.takeWhile (· ≠ '.')), String.ofList rest)

def shortName (text : String) : String :=
  match splitDot text with
  | none => text
  | some (_, rest) => rest

variable {name first rest : String}

section

variable (h : splitDot name = some (first, rest))

include h

theorem eq_of_splitDot : name.toList = first.toList ++ '.' :: rest.toList := by
  have happ := takeWhile_append_dropWhile (p := (· ≠ '.')) (l := name.toList)
  have hdot := head?_dropWhile_not (· ≠ '.') name.toList
  unfold splitDot at h
  cases hdro : name.toList.dropWhile (· ≠ '.') with
  | nil =>
    rw [hdro] at h
    cases h
  | cons c cs =>
    rw [hdro] at h happ hdot
    obtain ⟨rfl, rfl⟩ := h
    obtain rfl : c = '.' := by simpa using hdot
    rw [String.toList_ofList, String.toList_ofList, happ]

theorem splitDot_length : first.length < name.length ∧ rest.length < name.length := by
  have hlen := congrArg length (eq_of_splitDot h)
  simp only [length_append, length_cons, String.length_toList] at hlen
  omega

theorem splitDot_suffix : rest.toList <:+ name.toList ∧ '.' ∈ name.toList := by
  rw [eq_of_splitDot h]
  exact ⟨(suffix_cons _ _).trans (suffix_append _ _), by simp⟩

end

end Clockwork
