import Mathlib.Data.List.Basic

namespace IndexLoop

inductive Next where
  | following
  | same
  | done
deriving DecidableEq, Repr

variable {σ α ε : Type*}

/-- The loop from an index on; `none` if it has not ended after so many turns. -/
def loop (items : σ → List α) (turn : σ → ℕ → α → Option (Except ε (Next × σ))) :
    ℕ → σ → ℕ → Option (Except ε σ)
  | 0, _, _ => none
  | fuel + 1, s, i =>
    match (items s)[i]? with
    | none => some (.ok s)
    | some a =>
      match turn s i a with
      | none => none
      | some (.error e) => some (.error e)
      | some (.ok (.following, s)) => loop items turn fuel s (i + 1)
      | some (.ok (.same, s)) => loop items turn fuel s i
      | some (.ok (.done, s)) => some (.ok s)

variable {items : σ → List α} {turn : σ → ℕ → α → Option (Except ε (Next × σ))}

theorem loop_of_length_le {s : σ} {i : ℕ} (h : (items s).length ≤ i) (fuel : ℕ) :
    loop items turn (fuel + 1) s i = some (.ok s) := by
  rw [loop, List.getElem?_eq_none h]

section Turns

variable {s s' : σ} {i : ℕ} {a : α}

theorem loop_of_following (hite : (items s)[i]? = some a)
    (htur : turn s i a = some (.ok (.following, s'))) (fuel : ℕ) :
    loop items turn (fuel + 1) s i = loop items turn fuel s' (i + 1) := by
  rw [loop, hite]
  dsimp only
  rw [htur]

end Turns

/-- A loop whose turns leave its list alone is a fold. -/
theorem loop_eq_foldl {P : σ → Prop} {as : List α} {f : σ → α → σ} (hite : ∀ s, P s → items s = as)
    (htur : ∀ s, P s → ∀ i, ∀ a ∈ as, turn s i a = some (.ok (.following, f s a)) ∧ P (f s a))
    {s : σ} (hs : P s) (fuel i : ℕ) : loop items turn fuel s i =
      if as.length - i < fuel then some (.ok ((as.drop i).foldl f s)) else none := by
  induction fuel generalizing s i with
  | zero => rfl
  | succ fuel ih =>
    by_cases hi : i < as.length
    · obtain ⟨hnow, hnex⟩ := htur s hs i as[i] (List.getElem_mem hi)
      have hfue : as.length - i < fuel + 1 ↔ as.length - (i + 1) < fuel := by omega
      have hitm : (items s)[i]? = some as[i] := by
        rw [hite s hs, List.getElem?_eq_getElem hi]
      rw [loop_of_following hitm hnow, ih hnex, List.drop_eq_getElem_cons hi, List.foldl_cons]
      simp only [hfue]
    · have hle : as.length ≤ i := by omega
      rw [loop_of_length_le (by rwa [hite s hs]), List.drop_eq_nil_of_le hle,
        if_pos (by omega), List.foldl_nil]

end IndexLoop
