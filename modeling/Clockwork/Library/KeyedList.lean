import Mathlib.Data.List.Sort

namespace KeyedList

open List

variable {α β γ : Type*}

section Increasing

variable {κ : Type*} [Preorder κ]

def Increasing (key : α → κ) (l : List α) : Prop := l.Pairwise fun a b => key a < key b

variable {key : α → κ} {l l' : List α}

theorem Increasing.nodup (h : Increasing key l) : l.Nodup :=
  List.Pairwise.imp (fun {_ _} hlt heq => hlt.ne (congrArg key heq)) h

theorem Increasing.eq_iff (h : Increasing key l) (h' : Increasing key l') :
    l = l' ↔ ∀ a, a ∈ l ↔ a ∈ l' := by
  refine ⟨fun heq a => heq ▸ Iff.rfl, fun hmem => ?_⟩
  exact List.Pairwise.eq_of_mem_iff h h' hmem

theorem Increasing.append_self_eq_iff (h : Increasing key l') : l ++ l = l' ↔ l = [] ∧ l' = [] := by
  constructor
  · rintro rfl
    have hdis := (nodup_append'.mp h.nodup).2.2
    have hnil : l = [] := eq_nil_iff_forall_not_mem.mpr fun a ha => hdis ha ha
    exact ⟨hnil, by rw [hnil, append_nil]⟩
  · rintro ⟨rfl, rfl⟩
    rfl

theorem Increasing.filterMap (h : Increasing key l) {f : α → Option γ} {key' : γ → κ}
    (hkey : ∀ {a c}, f a = some c → key' c = key a) : Increasing key' (l.filterMap f) :=
  List.Pairwise.filterMap f (fun a b hab c hc d hd => by rwa [hkey hc, hkey hd]) h

theorem increasing_zip {keys : List κ} (h : keys.Pairwise (· < ·)) (values : List β) :
    Increasing Prod.fst (keys.zip values) := by
  induction keys generalizing values with
  | nil => exact .nil
  | cons k keys ih =>
    obtain ⟨hk, hkey⟩ := pairwise_cons.mp h
    cases values with
    | nil => exact .nil
    | cons v values =>
      refine pairwise_cons.mpr ⟨?_, ih hkey values⟩
      exact fun p hp => hk p.1 (of_mem_zip hp).1

end Increasing

variable {first count : ℕ} {values : List β}

theorem mem_zip_range'_iff {k : ℕ} {v : β} : (k, v) ∈ (range' first count).zip values ↔
      k ∈ range' first count ∧ values[k - first]? = some v := by
  simp only [mem_iff_getElem?, getElem?_zip_eq_some]
  constructor
  · rintro ⟨i, hkey, hval⟩
    obtain ⟨hi, heq⟩ := List.getElem?_eq_some_iff.mp hkey
    rw [getElem_range', Nat.one_mul] at heq
    exact ⟨⟨i, hkey⟩, by rwa [← heq, Nat.add_sub_cancel_left]⟩
  · rintro ⟨⟨i, hkey⟩, hval⟩
    obtain ⟨hi, heq⟩ := List.getElem?_eq_some_iff.mp hkey
    rw [getElem_range', Nat.one_mul] at heq
    exact ⟨i, hkey, by rwa [← heq, Nat.add_sub_cancel_left] at hval⟩

/-- Some keys of a block, with the values in the order of the stream, give the same results as
every key with its own value. -/
theorem filterMap_zip_sublist_eq_iff {keys : List ℕ} (hkeys : keys.Sublist (range' first count))
    {f : ℕ × β → Option γ} {key : γ → ℕ} (hkey : ∀ {p c}, f p = some c → key c = p.1)
    (hsel : ∀ {p c}, f p = some c → p.1 ∈ range' first count → p.1 ∈ keys)
    (hval : ∀ i k : ℕ, keys[i]? = some k → ∃ v, values[i]? = some v) :
    (keys.zip values).filterMap f = ((range' first count).zip values).filterMap f ↔
      ∀ (i k : ℕ) (v : β), keys[i]? = some k → values[i]? = some v →
        f (k, v) = values[k - first]?.bind fun w => f (k, w) := by
  have hran : (range' first count).Pairwise (· < ·) := pairwise_lt_range'
  have hkes := hran.sublist hkeys
  rw [((increasing_zip hkes values).filterMap hkey).eq_iff
    ((increasing_zip hran values).filterMap hkey)]
  simp only [mem_filterMap]
  constructor
  · intro hmem i k v hk hv
    refine Option.ext fun c => ?_
    rw [Option.bind_eq_some_iff]
    constructor
    · intro hc
      have hp : (k, v) ∈ keys.zip values := mem_of_getElem? (getElem?_zip_eq_some.mpr ⟨hk, hv⟩)
      obtain ⟨⟨k', w⟩, hw, hc'⟩ := (hmem c).mp ⟨(k, v), hp, hc⟩
      obtain rfl : k' = k := (hkey hc').symm.trans (hkey hc)
      exact ⟨w, (mem_zip_range'_iff.mp hw).2, hc'⟩
    · rintro ⟨w, hw, hc⟩
      have hp : (k, w) ∈ (range' first count).zip values :=
        mem_zip_range'_iff.mpr ⟨hkeys.subset (mem_of_getElem? hk), hw⟩
      obtain ⟨⟨k', v'⟩, hv', hc'⟩ := (hmem c).mpr ⟨(k, w), hp, hc⟩
      obtain rfl : k' = k := (hkey hc').symm.trans (hkey hc)
      obtain ⟨j, hj⟩ := mem_iff_getElem?.mp hv'
      obtain ⟨hkj, hvj⟩ := getElem?_zip_eq_some.mp hj
      -- a key is selected once
      have hij : i = j := by
        obtain ⟨hi, -⟩ := List.getElem?_eq_some_iff.mp hk
        have hnod : keys.Nodup := hkes.imp fun h => h.ne
        exact (getElem?_inj hi hnod).mp (hk.trans hkj.symm)
      subst hij
      obtain rfl := Option.some.inj (hv.symm.trans hvj)
      exact hc'
  · intro heq c
    constructor
    · rintro ⟨⟨k, v⟩, hp, hc⟩
      obtain ⟨i, hi⟩ := mem_iff_getElem?.mp hp
      obtain ⟨hk, hv⟩ := getElem?_zip_eq_some.mp hi
      rw [heq i k v hk hv, Option.bind_eq_some_iff] at hc
      obtain ⟨w, hw, hc⟩ := hc
      have hmem := hkeys.subset (mem_of_getElem? hk)
      exact ⟨(k, w), mem_zip_range'_iff.mpr ⟨hmem, hw⟩, hc⟩
    · rintro ⟨⟨k, w⟩, hp, hc⟩
      obtain ⟨hmem, hw⟩ := mem_zip_range'_iff.mp hp
      obtain ⟨i, hk⟩ := mem_iff_getElem?.mp (hsel hc hmem)
      obtain ⟨v, hv⟩ := hval i k hk
      refine ⟨(k, v), mem_of_getElem? (getElem?_zip_eq_some.mpr ⟨hk, hv⟩), ?_⟩
      rw [heq i k v hk hv, Option.bind_eq_some_iff]
      exact ⟨w, hw, hc⟩

end KeyedList
