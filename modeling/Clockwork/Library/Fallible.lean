import Mathlib.Data.List.Forall2

namespace Fallible

open List

variable {ε α β γ : Type} {f : α → Except ε β} {xs : List α} {R : α → β → Prop}

theorem bind_eq_ok_iff {x : Except ε α} {y : β} :
    x.bind f = .ok y ↔ ∃ a, x = .ok a ∧ f a = .ok y := by
  cases x with
  | error e => simp [Except.bind]
  | ok a => simp [Except.bind]

theorem map_eq_ok_iff {x : Except ε α} {f : α → β} {y : β} :
    x.map f = .ok y ↔ ∃ a, x = .ok a ∧ f a = y := by
  cases x with
  | error e => simp [Except.map]
  | ok a => simp [Except.map]

theorem mapM_eq_ok_iff {ys : List β} :
    xs.mapM f = .ok ys ↔ Forall₂ (fun x y => f x = .ok y) xs ys := by
  induction xs generalizing ys with
  | nil =>
    rw [forall₂_nil_left_iff, eq_comm]
    exact Except.ok.injEq ys [] ▸ Iff.rfl
  | cons x xs ih =>
    rw [mapM_cons, forall₂_cons_left_iff]
    change (f x).bind (fun y => (xs.mapM f).bind fun ys => .ok (y :: ys)) = .ok ys ↔ _
    rw [bind_eq_ok_iff]
    constructor
    · rintro ⟨y, hy, h⟩
      obtain ⟨ys', hys, h⟩ := bind_eq_ok_iff.mp h
      exact ⟨y, ys', hy, ih.mp hys, (Except.ok.inj h).symm⟩
    · rintro ⟨y, ys', hy, hys, rfl⟩
      exact ⟨y, hy, bind_eq_ok_iff.mpr ⟨ys', ih.mpr hys, rfl⟩⟩

theorem exists_forall₂_iff : (∃ ys, Forall₂ R xs ys) ↔ ∀ x ∈ xs, ∃ y, R x y := by
  induction xs with
  | nil => simp
  | cons x xs ih =>
    simp only [forall₂_cons_left_iff, forall_mem_cons, ← ih]
    constructor
    · rintro ⟨_, y, ys, hy, hys, rfl⟩
      exact ⟨⟨y, hy⟩, ys, hys⟩
    · rintro ⟨⟨y, hy⟩, ys, hys⟩
      exact ⟨_, y, ys, hy, hys, rfl⟩

theorem forall₂_congr {R S : α → β → Prop} {ys : List β} (h : ∀ x ∈ xs, ∀ y, R x y ↔ S x y) :
    Forall₂ R xs ys ↔ Forall₂ S xs ys := by
  induction xs generalizing ys with
  | nil => simp
  | cons x xs ih =>
    have ih' (ys : List β) := @ih ys fun x' hx' => h x' (mem_cons_of_mem x hx')
    simp only [forall₂_cons_left_iff, h x mem_cons_self, ih']

theorem forall₂_comp_iff {S : β → γ → Prop} {zs : List γ} :
    (∃ ys, Forall₂ R xs ys ∧ Forall₂ S ys zs) ↔ Forall₂ (fun x z => ∃ y, R x y ∧ S y z) xs zs := by
  constructor
  · rintro ⟨ys, hxy, hyz⟩
    induction hxy generalizing zs with
    | nil =>
      obtain rfl := forall₂_nil_left_iff.mp hyz
      exact .nil
    | cons hR _ ih =>
      obtain ⟨z, zs', hS, hzs, rfl⟩ := forall₂_cons_left_iff.mp hyz
      exact .cons ⟨_, hR, hS⟩ (ih hzs)
  · intro h
    induction h with
    | nil => exact ⟨[], .nil, .nil⟩
    | cons h _ ih =>
      obtain ⟨y, hR, hS⟩ := h
      obtain ⟨ys, hxy, hyz⟩ := ih
      exact ⟨y :: ys, .cons hR hxy, .cons hS hyz⟩

theorem exists_forall₂_filter_iff {p : α → Bool} {q : β → Bool} {zs : List β}
    (h : ∀ x, p x = false → ∃ y, (∀ z, R x z ↔ z = y) ∧ q y = false) :
    (∃ ys, Forall₂ R (xs.filter p) ys ∧ zs = ys.filter q) ↔
      ∃ ys, Forall₂ R xs ys ∧ zs = ys.filter q := by
  have hcon (x : α) (xs : List α) (zs : List β) :
      (∃ ys, Forall₂ R (x :: xs) ys ∧ zs = ys.filter q) ↔ ∃ y zs', R x y ∧
        (∃ ys, Forall₂ R xs ys ∧ zs' = ys.filter q) ∧ zs = [y].filter q ++ zs' := by
    simp only [forall₂_cons_left_iff]
    constructor
    · rintro ⟨_, ⟨y, ys, hy, hys, rfl⟩, rfl⟩
      exact ⟨y, _, hy, ⟨ys, hys, rfl⟩, filter_append [y] ys⟩
    · rintro ⟨y, _, hy, ⟨ys, hys, rfl⟩, rfl⟩
      exact ⟨_, ⟨y, ys, hy, hys, rfl⟩, (filter_append [y] ys).symm⟩
  induction xs generalizing zs with
  | nil => rfl
  | cons x xs ih =>
    cases hp : p x with
    | true => simp only [filter_cons_of_pos hp, hcon, ih]
    | false =>
      obtain ⟨y, hR, hq⟩ := h x hp
      simp [hp, hcon, ih, hR, hq]

theorem mapM_mapM_eq_ok_iff {g : β → Except ε γ} {zs : List γ} :
    (∃ ys, xs.mapM f = .ok ys ∧ ys.mapM g = .ok zs) ↔
      Forall₂ (fun x z => (f x).bind g = .ok z) xs zs := by
  simp only [mapM_eq_ok_iff, bind_eq_ok_iff, forall₂_comp_iff]

end Fallible
