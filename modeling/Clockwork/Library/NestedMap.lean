import Mathlib.Tactic.Common

open Std TreeMap

abbrev NestedMap (κ μ ν : Type*) [Ord κ] [Ord μ] := TreeMap κ (TreeMap μ ν)

namespace NestedMap

variable {κ μ ν : Type*} [Ord κ] [Ord μ] (t : NestedMap κ μ ν)

def insert (e : κ × μ × ν) : NestedMap κ μ ν :=
  match t[e.1]? with
  | none => TreeMap.insert t e.1 ((∅ : TreeMap μ ν).insert e.2.1 e.2.2)
  | some entry => TreeMap.insert t e.1 (entry.insert e.2.1 e.2.2)

def value? (k : κ) (l : μ) : Option ν := t[k]?.bind fun entry => entry[l]?

def entries : List (κ × μ × ν) :=
  t.toList.flatMap fun e => e.2.toList.map fun f => (e.1, f.1, f.2)

variable [TransOrd κ] [LawfulEqOrd κ] [TransOrd μ] [LawfulEqOrd μ]

variable {k : κ} {l : μ} {t : NestedMap κ μ ν} {v : ν} {es : List (κ × μ × ν)}

theorem mem_entries_iff : (k, l, v) ∈ t.entries ↔ t.value? k l = some v := by
  simp only [entries, List.mem_flatMap, List.mem_map, Prod.mk.injEq, value?,
    Option.bind_eq_some_iff]
  constructor
  · rintro ⟨⟨k', entry⟩, hent, ⟨l', v'⟩, hv, rfl, rfl, rfl⟩
    exact ⟨entry, mem_toList_iff_getElem?_eq_some.mp hent,
      mem_toList_iff_getElem?_eq_some.mp hv⟩
  · rintro ⟨entry, hent, hv⟩
    exact ⟨(k, entry), mem_toList_iff_getElem?_eq_some.mpr hent, (l, v),
      mem_toList_iff_getElem?_eq_some.mpr hv, rfl, rfl, rfl⟩

omit [LawfulEqOrd κ] [TransOrd μ] [LawfulEqOrd μ] in
theorem value?_empty (k : κ) (l : μ) : value? (∅ : NestedMap κ μ ν) k l = none := by
  simp [value?]

theorem value?_insert [DecidableEq κ] [DecidableEq μ] (t : NestedMap κ μ ν) (e : κ × μ × ν) (k : κ)
    (l : μ) :
    (insert t e).value? k l = if e.1 = k ∧ e.2.1 = l then some e.2.2 else t.value? k l := by
  obtain ⟨k', l', v⟩ := e
  unfold insert value?
  cases hk : t[k']? with
  | none =>
    by_cases hkk : k' = k
    · subst hkk
      by_cases hll : l' = l <;> simp [hk, hll]
    · simp [getElem?_insert, hkk]
  | some entry =>
    by_cases hkk : k' = k
    · subst hkk
      by_cases hll : l' = l <;> simp [getElem?_insert, hk, hll]
    · simp [getElem?_insert, hkk]

variable [DecidableEq κ] [DecidableEq μ]

omit [LawfulEqOrd μ] [TransOrd μ] [DecidableEq μ] in
theorem value?_erase (k' k : κ) (l : μ) :
    value? (erase t k') k l = if k' = k then none else t.value? k l := by
  unfold value?
  by_cases h : k' = k
  · simp [h]
  · simp [getElem?_erase, h]

theorem mem_of_value?_foldl (h : (es.foldl insert t).value? k l = some v) :
    (k, l, v) ∈ es ∨ t.value? k l = some v := by
  induction es generalizing t with
  | nil => exact .inr h
  | cons e es ih =>
    rcases ih h with hmem | ht
    · exact .inl (List.mem_cons_of_mem e hmem)
    · rw [value?_insert] at ht
      split at ht
      · next hkey =>
        obtain ⟨rfl, rfl⟩ := hkey
        cases ht
        exact .inl List.mem_cons_self
      · exact .inr ht

theorem value?_foldl_isSome (h : (∃ v, (k, l, v) ∈ es) ∨ (t.value? k l).isSome) :
    ((es.foldl insert t).value? k l).isSome := by
  induction es generalizing t with
  | nil => simpa using h
  | cons e es ih =>
    refine ih ?_
    rw [value?_insert]
    rcases h with ⟨v, hv⟩ | ht
    · rcases List.mem_cons.mp hv with rfl | hv
      · exact .inr (by simp)
      · exact .inl ⟨v, hv⟩
    · refine .inr ?_
      split
      · rfl
      · exact ht

theorem value?_foldl_iff (huni : ∀ k l v v', (k, l, v) ∈ es → (k, l, v') ∈ es → v = v') :
    (es.foldl insert ∅).value? k l = some v ↔ (k, l, v) ∈ es := by
  have hmem {v : ν} (h : (es.foldl insert ∅).value? k l = some v) : (k, l, v) ∈ es := by
    refine (mem_of_value?_foldl h).resolve_right fun hnon => ?_
    cases hnon
  refine ⟨hmem, fun hv => ?_⟩
  obtain ⟨v', hv'⟩ := Option.isSome_iff_exists.mp
    (value?_foldl_isSome (t := ∅) (.inl ⟨v, hv⟩))
  rw [hv', huni k l v' v (hmem hv') hv]

end NestedMap
