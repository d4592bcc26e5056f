import Mathlib.Logic.Basic

namespace Minimum

open Std List

variable {α : Type*} [LE α]

def Covered (as bs : List α) : Prop := ∀ a ∈ as, ∃ b ∈ bs, b ≤ a

variable {as as' bs bs' : List α}

theorem Covered.append (h : Covered as bs) (h' : Covered as' bs') :
    Covered (as ++ as') (bs ++ bs') := by
  intro a ha
  rcases mem_append.mp ha with ha | ha
  · obtain ⟨b, hb, hle⟩ := h a ha
    exact ⟨b, mem_append_left _ hb, hle⟩
  · obtain ⟨b, hb, hle⟩ := h' a ha
    exact ⟨b, mem_append_right _ hb, hle⟩

variable [Min α] [IsLinearOrder α] [LawfulOrderMin α]

theorem covered_of_min?_eq {as bs : List α} (h : as.min? = bs.min?) : Covered as bs := by
  intro a ha
  cases hb : bs.min? with
  | none =>
    rw [hb, min?_eq_none_iff] at h
    exact absurd ha (by simp [h])
  | some b =>
    have hlea := min?_eq_some_iff.mp (h.trans hb)
    exact ⟨b, (min?_eq_some_iff.mp hb).1, hlea.2 a ha⟩

theorem min?_eq_min?_iff {as bs : List α} : as.min? = bs.min? ↔ Covered as bs ∧ Covered bs as := by
  constructor
  · intro h
    exact ⟨covered_of_min?_eq h, covered_of_min?_eq h.symm⟩
  · intro ⟨hab, hba⟩
    cases ha : as.min? with
    | none =>
      rw [min?_eq_none_iff] at ha
      subst ha
      cases bs with
      | nil => rfl
      | cons b bs =>
        obtain ⟨a, ha, -⟩ := hba b mem_cons_self
        cases ha
    | some a =>
      obtain ⟨hmem, hlea⟩ := min?_eq_some_iff.mp ha
      obtain ⟨b, hb, hle⟩ := hab a hmem
      have hbel (b' : α) (hb' : b' ∈ bs) : a ≤ b' := by
        obtain ⟨a', ha', hle'⟩ := hba b' hb'
        exact le_trans (hlea a' ha') hle'
      obtain rfl := le_antisymm hle (hbel b hb)
      exact (min?_eq_some_iff.mpr ⟨hb, hbel⟩).symm

theorem min?_append_congr (h : as.min? = as'.min?)
    (h' : bs.min? = bs'.min?) : (as ++ bs).min? = (as' ++ bs').min? := by
  rw [min?_eq_min?_iff] at h h' ⊢
  exact ⟨h.1.append h'.1, h.2.append h'.2⟩

end Minimum
