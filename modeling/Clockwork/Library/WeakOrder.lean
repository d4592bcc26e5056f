import Clockwork.Library.Insertion

namespace WeakOrder

variable {α κ : Type*} {l : List α} {less le : α → α → Prop}

/-- The comparison is one to sort by, and whatever sorts the list by it puts it in order. -/
def Sorts (l : List α) (less le : α → α → Prop) : Prop :=
  IsStrictWeakOrder α less ∧
    ∀ m : List α, m.Perm l → m.Pairwise (fun a b => ¬less b a) → m.Pairwise le

theorem Sorts.swap (h : Sorts l less le) : Sorts l (Function.swap less) (Function.swap le) := by
  have := h.1
  refine ⟨inferInstance, fun m hm hsor => ?_⟩
  have hrev : m.reverse.Pairwise fun a b => ¬less b a := List.pairwise_reverse.mpr hsor
  exact List.pairwise_reverse.mp (h.2 _ ((List.reverse_perm m).trans hm) hrev)

theorem not_less_trans [h : IsStrictWeakOrder α less] {a b c : α} (hab : ¬less a b)
    (hbc : ¬less b c) : ¬less a c := by
  intro hac
  have hba : ¬less b a := fun hba => hbc (h.trans b a c hba hac)
  have hcb : ¬less c b := fun hcb => hab (h.trans a c b hac hcb)
  exact (h.incomp_trans a b c ⟨hab, hba⟩ ⟨hbc, hcb⟩).1 hac

theorem exists_perm_pairwise (htot : ∀ a b, le a b ∨ le b a)
    (htra : ∀ a b c, le a b → le b c → le a c) (l : List α) :
    ∃ m : List α, m.Perm l ∧ m.Pairwise le := by
  classical
  have hsor : (l.mergeSort fun a b => decide (le a b)).Pairwise fun a b => decide (le a b) :=
    List.pairwise_mergeSort (by simpa using htra) (by simpa using htot) l
  exact ⟨_, l.mergeSort_perm _, by simpa using hsor⟩

variable [LinearOrder κ] {key : α → κ}

/-- Elements with different keys are compared like these, those with the same key by a strict
weak order. -/
structure Refines (less : α → α → Prop) (key : α → κ) : Prop where
  lt : ∀ a b, key a < key b → less a b ∧ ¬less b a
  same : ∀ k, IsStrictWeakOrder {a // key a = k} fun a b => less a b

theorem sorts_key (l : List α) : Sorts l (fun a b => key a < key b) fun a b => key a ≤ key b :=
  have : IsStrictWeakOrder κ (· < ·) := isStrictWeakOrder_of_isOrderConnected
  ⟨inferInstanceAs (IsStrictWeakOrder α (Function.onFun (· < ·) key)),
    fun _ _ hsor => hsor.imp not_lt.mp⟩

/-- Of two elements that the comparison does not put in the order of their keys, some result
has the wrong one first. -/
theorem Sorts.less_of_key_lt (h : Sorts l less fun a b => key a ≤ key b) {a b : α} (ha : a ∈ l)
    (hb : b ∈ l) (hlt : key a < key b) : less a b := by
  have := h.1
  by_contra hab
  -- elements that are not told apart are put in the opposite order of their keys
  obtain ⟨m, hper, hm⟩ : ∃ m : List α, m.Perm l ∧
      m.Pairwise fun a b => ¬less b a ∧ (less a b ∨ key b ≤ key a) := by
    refine exists_perm_pairwise (fun a b => ?_) (fun a b c hab hbc => ?_) l
    · by_cases hab : less a b
      · exact .inl ⟨asymm hab, .inl hab⟩
      · by_cases hba : less b a
        · exact .inr ⟨hab, .inl hba⟩
        · exact (le_total (key b) (key a)).imp (⟨hba, .inr ·⟩) (⟨hab, .inr ·⟩)
    · refine ⟨not_less_trans hbc.1 hab.1, or_iff_not_imp_left.mpr fun hac => ?_⟩
      have hba := hab.2.resolve_left (not_less_trans hac hbc.1)
      have hcb := hbc.2.resolve_left (not_less_trans hab.1 hac)
      exact hcb.trans hba
  have hkey := h.2 m hper (hm.imp And.left)
  rcases Insertion.pair_sublist_or (hper.mem_iff.mpr ha) (hper.mem_iff.mpr hb)
    (ne_of_apply_ne key hlt.ne) with hpai | hpai
  · exact (List.pairwise_pair.mp (hm.sublist hpai)).2.elim hab (not_le.mpr hlt)
  · have hba : key b ≤ key a := by simpa using hkey.sublist hpai
    exact absurd hba (not_le.mpr hlt)

theorem Refines.isStrictWeakOrder (h : Refines less key) : IsStrictWeakOrder α less where
  irrefl a := (h.same (key a)).irrefl ⟨a, rfl⟩
  trans a b c hab hbc := by
    have hkey {a b : α} (hab : less a b) : key a ≤ key b :=
      not_lt.mp fun hlt => (h.lt b a hlt).2 hab
    rcases ((hkey hab).trans (hkey hbc)).lt_or_eq with hlt | heq
    · exact (h.lt a c hlt).1
    · have hba := le_antisymm ((hkey hbc).trans_eq heq.symm) (hkey hab)
      exact (h.same (key a)).trans ⟨a, rfl⟩ ⟨b, hba⟩ ⟨c, heq.symm⟩ hab hbc
  incomp_trans a b c hab hbc := by
    have hkey {a b : α} (hab : ¬less a b ∧ ¬less b a) : key b = key a :=
      le_antisymm (not_lt.mp fun hlt => hab.1 (h.lt a b hlt).1)
        (not_lt.mp fun hlt => hab.2 (h.lt b a hlt).1)
    exact (h.same (key a)).incomp_trans ⟨a, rfl⟩ ⟨b, hkey hab⟩ ⟨c, (hkey hbc).trans (hkey hab)⟩
      hab hbc

theorem sorts_iff (hl : ∀ a, a ∈ l) :
    Sorts l less (fun a b => key a ≤ key b) ↔ Refines less key := by
  constructor
  · intro h
    have := h.1
    refine ⟨fun a b hlt => ?_, fun k => inferInstanceAs (IsStrictWeakOrder _
      (Function.onFun less Subtype.val))⟩
    have hab := h.less_of_key_lt (hl a) (hl b) hlt
    exact ⟨hab, asymm hab⟩
  · intro h
    refine ⟨h.isStrictWeakOrder, fun m _ hsor => hsor.imp fun {a b} hba => ?_⟩
    exact not_lt.mp fun hlt => hba (h.lt b a hlt).1

/-- Sorting by a number puts the keys in order exactly if the number grows with the key. -/
theorem sorts_number_iff {ν : Type*} [LinearOrder ν] {number : α → ν} (hl : ∀ a, a ∈ l) :
    Sorts l (fun a b => number a < number b) (fun a b => key a ≤ key b) ↔
      ∀ a b, key a < key b → number a < number b := by
  refine ⟨fun h a b hlt => h.less_of_key_lt (hl a) (hl b) hlt, fun h => ⟨(sorts_key l).1, ?_⟩⟩
  intro m _ hsor
  exact hsor.imp fun {a b} hba => not_lt.mp fun hlt => hba (h b a hlt)

end WeakOrder
