import Mathlib.Data.List.Sort
import Mathlib.Data.List.TakeWhile

namespace Insertion

open List

variable {α : Type*} {a b : α} {l : List α}

theorem pair_sublist_or (ha : a ∈ l) (hb : b ∈ l) (hne : a ≠ b) :
    [a, b].Sublist l ∨ [b, a].Sublist l := by
  obtain ⟨s, t, rfl⟩ := append_of_mem ha
  rcases mem_append.mp hb with hbs | hbt
  · exact .inr ((singleton_sublist.mpr hbs).append (singleton_sublist.mpr mem_cons_self))
  · have hbt := singleton_sublist.mpr ((mem_cons.mp hbt).resolve_left hne.symm)
    exact .inl ((hbt.cons_cons a).trans (sublist_append_right ..))

theorem not_pair_sublist_of_nodup (hl : l.Nodup) (h : [a, b].Sublist l) : ¬[b, a].Sublist l := by
  induction l with
  | nil => cases h
  | cons c l ih =>
    rw [nodup_cons] at hl
    intro h'
    cases h with
    | cons _ h =>
      cases h' with
      | cons _ h' => exact ih hl.2 h h'
      | cons_cons _ h' => exact hl.1 (h.subset (by simp))
    | cons_cons _ h =>
      cases h' with
      | cons _ h' => exact hl.1 (h'.subset (by simp))
      | cons_cons _ h' => exact hl.1 (singleton_sublist.mp h)

theorem pair_sublist_of_append {l l' : List α} (h : [a, b].Sublist (l ++ l'))
    (ha : a ∉ l) : [a, b].Sublist l' := by
  obtain ⟨l₁, l₂, heq, h₁, h₂⟩ := sublist_append_iff.mp h
  cases l₁ with
  | nil => rwa [heq]
  | cons c l₁ =>
    obtain rfl := (cons.inj heq).1
    exact absurd (h₁.subset mem_cons_self) ha

theorem pair_sublist_of_middle {l l' : List α} {a b c : α} (h : [a, b].Sublist (l ++ c :: l'))
    (ha : a ≠ c) (hb : b ≠ c) : [a, b].Sublist (l ++ l') := by
  classical
  have hfil := h.filter (· ≠ c)
  simp only [filter_append, filter_cons, ha, hb, ne_eq, not_false_eq_true, not_true_eq_false,
    decide_true, decide_false, if_true, Bool.false_eq_true, if_false, filter_nil] at hfil
  exact hfil.trans (filter_sublist.append filter_sublist)

variable (r : α → α → Prop)

/-- A chain of elements, each of which is put before the next one if it is inserted later; the
last one of them is put before `b`, or `b` is put after it. -/
def Chain (b : α) : List α → Prop
  | [] => False
  | [x] => r x b ∨ ¬r b x
  | x :: y :: p => r x y ∧ Chain b (y :: p)

instance decidableChain [DecidableRel r] (b : α) : DecidablePred (Chain r b)
  | [] => inferInstanceAs (Decidable False)
  | [_] => inferInstanceAs (Decidable (_ ∨ _))
  | _ :: y :: p =>
    letI := decidableChain b (y :: p)
    inferInstanceAs (Decidable (_ ∧ _))

variable {r} [DecidableRel r]

/-- What is inserted comes after the elements that it is not related to, up to the first to which
it is. -/
theorem exists_orderedInsert_eq (a : α) (l : List α) : ∃ before after,
    l = before ++ after ∧ l.orderedInsert r a = before ++ a :: after ∧ (∀ x ∈ before, ¬r a x) ∧
      ∀ x, after.head? = some x → r a x := by
  refine ⟨_, _, takeWhile_append_dropWhile.symm, orderedInsert_eq_take_drop r a l, fun x hx => ?_,
    fun x hx => ?_⟩
  · have hnot := mem_takeWhile_imp hx
    exact of_decide_eq_true hnot
  · have hhea := head?_dropWhile_not (fun b => decide ¬r a b) l
    rw [hx] at hhea
    exact not_not.mp (of_decide_eq_false hhea)

theorem sublist_insertionSort_append (l l' : List α) :
    (l'.insertionSort r).Sublist ((l ++ l').insertionSort r) := by
  induction l with
  | nil => exact .refl _
  | cons a l ih => exact ih.trans (sublist_orderedInsert ..)

/-- If insertion sort puts an element before another one, there is a chain between them. -/
theorem exists_chain_of_pair_sublist (hl : l.Nodup) (h : [a, b].Sublist (l.insertionSort r)) :
    ∃ p, Chain r b (a :: p) ∧ (b :: a :: p).Nodup ∧ ∀ x ∈ b :: a :: p, x ∈ l := by
  induction l generalizing a b with
  | nil => cases h
  | cons z l ih =>
    rw [nodup_cons] at hl
    obtain ⟨before, after, hspl, hins, hbef, haft⟩ :=
      exists_orderedInsert_eq (r := r) z (l.insertionSort r)
    have hmem {x : α} (hx : x ∈ before ++ after) : x ∈ l := by
      rwa [← hspl, mem_insertionSort] at hx
    have hz : z ∉ before ++ after := fun hz => hl.1 (hmem hz)
    rw [insertionSort_cons, hins] at h
    by_cases ha : a = z
    · -- the new element comes before the first one to which it is related, and what follows it
      subst ha
      have hb : [b].Sublist after := by
        cases pair_sublist_of_append h fun ha => hz (mem_append_left _ ha) with
        | cons _ h => exact absurd (mem_append_right _ (h.subset (by simp))) hz
        | cons_cons _ h => exact h
      cases after with
      | nil => cases hb
      | cons w after =>
        have haw : r a w := haft w rfl
        have hne {x : α} (hx : x ∈ l) : a ≠ x := fun heq => hl.1 (heq ▸ hx)
        rcases mem_cons.mp (singleton_sublist.mp hb) with rfl | hb
        · have hbl : b ∈ l := hmem (by simp)
          refine ⟨[], .inl haw, ?_, ?_⟩
          · simpa using (hne hbl).symm
          · simp [hbl]
        · obtain ⟨p, hp, hnod, hsub⟩ := ih hl.2 (a := w) (b := b) (by
            rw [hspl]
            exact ((singleton_sublist.mpr hb).cons_cons w).trans
              (sublist_append_right ..))
          have ha : a ∉ b :: w :: p := fun ha => hl.1 (hsub a ha)
          refine ⟨w :: p, ⟨haw, hp⟩, ?_, fun x hx => ?_⟩
          · exact (List.Perm.swap b a (w :: p)).nodup_iff.mp (nodup_cons.mpr ⟨ha, hnod⟩)
          · rcases mem_cons.mp ((List.Perm.swap b a (w :: p)).mem_iff.mpr hx) with rfl | hx
            · exact mem_cons_self
            · exact mem_cons_of_mem a (hsub x hx)
    · by_cases hb : b = z
      · -- the new element comes after the ones to which it is not related
        subst hb
        have hbefore_a : a ∈ before := by
          by_contra hnot
          cases pair_sublist_of_append h hnot with
          | cons _ h => exact hz (mem_append_right _ (h.subset (by simp)))
          | cons_cons _ h => exact ha rfl
        refine ⟨[], .inr (hbef a hbefore_a), ?_, ?_⟩
        · simpa using Ne.symm ha
        · simp [hmem (mem_append_left after hbefore_a)]
      · have hold : [a, b].Sublist (l.insertionSort r) := by
          rw [hspl]
          exact pair_sublist_of_middle h ha hb
        obtain ⟨p, hp, hnod, hsub⟩ := ih hl.2 hold
        exact ⟨p, hp, hnod, fun x hx => mem_cons_of_mem z (hsub x hx)⟩

/-- The elements of a chain can be given in an order for which the first one is put before `b`. -/
theorem exists_perm_of_chain {p : List α} (h : Chain r b (a :: p)) :
    ∃ l : List α, l.Perm (b :: a :: p) ∧ [a, b].Sublist (l.insertionSort r) := by
  induction p generalizing a with
  | nil =>
    rcases h with h | h
    · exact ⟨[a, b], .swap .., by simp [h]⟩
    · exact ⟨[b, a], .refl _, by simp [h]⟩
  | cons y p ih =>
    obtain ⟨l, hl, hy⟩ := ih h.2
    refine ⟨a :: l, ?_, ?_⟩
    · exact (hl.cons a).trans (.swap ..)
    · obtain ⟨before, after, hspl, hins, hbef, -⟩ :=
        exists_orderedInsert_eq (r := r) a (l.insertionSort r)
      rw [hspl] at hy
      have hb : b ∈ after :=
        (pair_sublist_of_append hy fun hmem => hbef y hmem h.1).subset (by simp)
      rw [insertionSort_cons, hins]
      exact ((singleton_sublist.mpr hb).cons_cons a).trans (sublist_append_right ..)

/-- Insertion sort puts `a` before `b`, for some order in which the elements are given, exactly if
there is a chain between them. -/
theorem exists_perm_pair_sublist_iff (hl : l.Nodup) (a b : α) :
    (∃ l' : List α, l'.Perm l ∧ [a, b].Sublist (l'.insertionSort r)) ↔
      ∃ p, Chain r b (a :: p) ∧ (b :: a :: p).Nodup ∧ ∀ x ∈ b :: a :: p, x ∈ l := by
  constructor
  · rintro ⟨l', hper, h⟩
    obtain ⟨p, hp, hnod, hmem⟩ := exists_chain_of_pair_sublist (hper.nodup_iff.mpr hl) h
    exact ⟨p, hp, hnod, fun x hx => hper.subset (hmem x hx)⟩
  · rintro ⟨p, hp, hnod, hmem⟩
    obtain ⟨l', hl', hsub⟩ := exists_perm_of_chain hp
    obtain ⟨m, hm, hml⟩ := subperm_of_subset hnod hmem
    obtain ⟨q, hq⟩ := hml.exists_perm_append
    refine ⟨q ++ l', ?_, hsub.trans (sublist_insertionSort_append q l')⟩
    exact perm_append_comm.trans (((hl'.trans hm.symm).append_right q).trans hq.symm)

end Insertion
