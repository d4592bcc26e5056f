import Mathlib.Algebra.Order.Group.Int
import Mathlib.Data.Finset.Basic

namespace Registers

open List

variable {M : Type*} [DecidableEq M]

@[ext] structure Register (M : Type*) where
  count : M → ℤ
  members : Finset M

variable (r : Register M)

/-- The member is counted and put in the set unless it is there. -/
def Register.enter (m : M) : Register M :=
  if m ∈ r.members then r
  else ⟨Function.update r.count m (r.count m + 1), insert m r.members⟩

/-- The member is counted and put in the set in any case. -/
def Register.force (m : M) : Register M :=
  ⟨Function.update r.count m (r.count m + 1), insert m r.members⟩

/-- The member is put in the set and not counted. -/
def Register.link (m : M) : Register M := ⟨r.count, insert m r.members⟩

def Register.leave (m : M) : Register M :=
  if m ∈ r.members then ⟨Function.update r.count m (r.count m - 1), r.members.erase m⟩ else r

def Register.surplus (m : M) : ℤ := r.count m - if m ∈ r.members then 1 else 0

variable (always : M → Bool) (ms : List M) (r : Register M) (m x : M)

open Register

theorem surplus_enter : (r.enter m).surplus = r.surplus := by
  funext x
  unfold enter
  split_ifs with hm
  · rfl
  · unfold surplus
    by_cases hx : x = m
    · subst hx
      simp [hm]
    · simp [hx]

theorem surplus_leave : (r.leave m).surplus = r.surplus := by
  funext x
  unfold leave
  split_ifs with hm
  · unfold surplus
    by_cases hx : x = m
    · subst hx
      simp [hm]
    · simp [hx]
  · rfl

theorem surplus_force :
    (r.force m).surplus x = r.surplus x + if x = m ∧ m ∈ r.members then 1 else 0 := by
  unfold force surplus
  by_cases hx : x = m
  · subst hx
    by_cases hm : x ∈ r.members <;> simp [hm]
  · simp [hx]

@[simp] theorem members_enter : (r.enter m).members = insert m r.members := by
  unfold enter
  split_ifs with hm
  · exact (Finset.insert_eq_of_mem hm).symm
  · rfl

@[simp] theorem members_link : (r.link m).members = insert m r.members := rfl

theorem surplus_foldl {α : Type*} {f : Register M → α → Register M}
    (h : ∀ r a, (f r a).surplus = r.surplus) (as : List α) (r : Register M) :
    (as.foldl f r).surplus = r.surplus := by
  induction as generalizing r with
  | nil => rfl
  | cons a as ih => rw [foldl_cons, ih, h]

/-- Some members are counted in any case, the others once. -/
def Register.join (always : M → Bool) (r : Register M) (m : M) : Register M :=
  if always m then r.force m else r.enter m

theorem members_join : (r.join always m).members = insert m r.members := by
  unfold join
  split_ifs
  · rfl
  · exact members_enter r m

variable {ms r x} in
theorem mem_members_foldl {f : Register M → M → Register M}
    (h : ∀ r m, (f r m).members = insert m r.members) :
    x ∈ (ms.foldl f r).members ↔ x ∈ ms ∨ x ∈ r.members := by
  induction ms generalizing r with
  | nil => simp
  | cons m ms ih =>
    rw [foldl_cons, ih, h, Finset.mem_insert, mem_cons]
    tauto

theorem members_foldl_join : x ∈ (ms.foldl (join always) r).members ↔ x ∈ ms ∨ x ∈ r.members :=
  mem_members_foldl (members_join always)

theorem members_foldl_enter : x ∈ (ms.foldl enter r).members ↔ x ∈ ms ∨ x ∈ r.members :=
  mem_members_foldl members_enter

theorem mem_members_leave : x ∈ (r.leave m).members ↔ x ∈ r.members ∧ x ≠ m := by
  unfold leave
  split_ifs with hm
  · rw [Finset.mem_erase, and_comm]
  · exact ⟨fun hx => ⟨hx, fun heq => hm (heq ▸ hx)⟩, fun hx => hx.1⟩

theorem members_foldl_leave : x ∈ (ms.foldl leave r).members ↔ x ∈ r.members ∧ x ∉ ms := by
  induction ms generalizing r with
  | nil => simp
  | cons m ms ih =>
    rw [foldl_cons, ih, mem_members_leave, mem_cons]
    tauto

theorem surplus_join_le : r.surplus x ≤ (r.join always m).surplus x := by
  unfold join
  split_ifs
  · rw [surplus_force]
    split_ifs <;> omega
  · rw [surplus_enter]

theorem surplus_foldl_join_le : r.surplus x ≤ (ms.foldl (join always) r).surplus x := by
  induction ms generalizing r with
  | nil => exact le_refl _
  | cons m ms ih => exact (surplus_join_le always r m x).trans (ih _)

theorem surplus_join_eq_iff :
    (r.join always m).surplus = r.surplus ↔ (always m = true → m ∉ r.members) := by
  unfold join
  split_ifs with hm
  · simp [funext_iff, surplus_force, hm]
  · simp [surplus_enter, hm]

/-- The loop keeps the counters right exactly if the members that it always counts are named
once and are not in the set. -/
theorem surplus_foldl_join_iff : (ms.foldl (join always) r).surplus = r.surplus ↔
      (ms.filter always).Nodup ∧ ∀ m ∈ ms, always m = true → m ∉ r.members := by
  induction ms generalizing r with
  | nil => simp
  | cons m ms ih =>
    -- no step lowers a surplus, so the first one must not raise it
    have hspl : (ms.foldl (join always) (r.join always m)).surplus = r.surplus ↔
        (r.join always m).surplus = r.surplus ∧
          (ms.foldl (join always) (r.join always m)).surplus = (r.join always m).surplus := by
      refine ⟨fun h => ?_, fun h => h.2.trans h.1⟩
      have hfir : (r.join always m).surplus = r.surplus := by
        funext x
        have hle := surplus_foldl_join_le always ms (r.join always m) x
        rw [h] at hle
        exact hle.antisymm (surplus_join_le always r m x)
      exact ⟨hfir, h.trans hfir.symm⟩
    rw [foldl_cons, hspl, ih, surplus_join_eq_iff, members_join]
    by_cases hm : always m = true
    · simp [hm, nodup_cons]
      grind
    · simp [hm]
      grind

theorem members_foldl_link : x ∈ (ms.foldl link r).members ↔ x ∈ ms ∨ x ∈ r.members :=
  mem_members_foldl members_link

theorem count_foldl_link : (ms.foldl link r).count = r.count := by
  induction ms generalizing r with
  | nil => rfl
  | cons m ms ih => exact ih (r.link m)

theorem surplus_foldl_link_iff :
    (ms.foldl link r).surplus = r.surplus ↔ ∀ m ∈ ms, m ∈ r.members := by
  rw [funext_iff]
  refine forall_congr' fun x => ?_
  simp only [surplus, count_foldl_link, members_foldl_link]
  by_cases hx : x ∈ ms <;> by_cases hmem : x ∈ r.members <;> simp [hx, hmem]

def Tallied (count : M → ℤ) (sets : List (Finset M)) : Prop :=
  ∀ m, count m = (sets.countP (m ∈ ·) : ℕ)

variable {count count' : M → ℤ} {sets : List (Finset M)}

theorem tallied_set_iff {i : ℕ}
    {members members' : Finset M} (h : Tallied count sets) (hi : sets[i]? = some members) :
    Tallied count' (sets.set i members') ↔
      (⟨count', members'⟩ : Register M).surplus = (⟨count, members⟩ : Register M).surplus := by
  have hcou (m : M) : ((sets.set i members').countP (m ∈ ·) : ℤ) =
      (sets.countP (m ∈ ·) : ℤ) - (if m ∈ members then 1 else 0) +
        if m ∈ members' then 1 else 0 := by
    obtain ⟨hlt, rfl⟩ := List.getElem?_eq_some_iff.mp hi
    rw [List.countP_set hlt]
    have hle : (if m ∈ sets[i] then 1 else 0) ≤ sets.countP (m ∈ ·) := by
      split_ifs with hm
      · exact List.countP_pos_iff.mpr ⟨sets[i], List.getElem_mem hlt, by simpa using hm⟩
      · exact Nat.zero_le _
    simp only [decide_eq_true_eq]
    split_ifs at hle ⊢ <;> omega
  rw [Tallied, funext_iff]
  refine forall_congr' fun m => ?_
  have hm := h m
  unfold surplus
  rw [hcou]
  dsimp only
  omega

theorem tallied_append_iff {members : Finset M}
    (h : Tallied count sets) : Tallied count' (sets ++ [members]) ↔
      (⟨count', members⟩ : Register M).surplus = (⟨count, ∅⟩ : Register M).surplus := by
  have hemp : Tallied count (sets ++ [∅]) := by
    intro m
    simp [h m]
  have hset : (sets ++ [∅]).set sets.length members = sets ++ [members] := by simp
  rw [← hset]
  exact tallied_set_iff hemp (by simp)

end Registers
