import Mathlib.Data.Fintype.EquivFin

namespace Traversal

open Function Finset

structure Graph (M : Type*) where
  children : M → List M
  always : M → Bool

variable {M : Type*} [DecidableEq M]

/-- Visits a node, and gives the marks at the end; `fuel` limits the depth. -/
def visit (g : Graph M) : ℕ → (M → Bool) → M → Option (M → Bool)
  | 0, _, _ => none
  | fuel + 1, marked, m =>
    if marked m && !g.always m then some marked
    else (g.children m).foldlM (visit g fuel) (Function.update marked m true)

def Entered (g : Graph M) (marked : M → Bool) (m : M) : Prop :=
  marked m = false ∨ g.always m = true

/-- The nodes that are visited from a node if it is visited with these marks. -/
def Visits (g : Graph M) (marked : M → Bool) : M → M → Prop :=
  Relation.ReflTransGen fun a b => Entered g marked a ∧ b ∈ g.children a

def OnCycle (g : Graph M) (m : M) : Prop :=
  Relation.TransGen (fun a b => g.always a = true ∧ g.always b = true ∧ b ∈ g.children a) m m

section Steps

variable {g : Graph M} {fuel : ℕ} {marked final : M → Bool} {m : M}

theorem visit_of_not_entered (h : ¬Entered g marked m) :
    visit g (fuel + 1) marked m = some marked := by
  rw [visit, if_pos]
  simpa [Entered] using h

theorem visit_of_entered (h : Entered g marked m) : visit g (fuel + 1) marked m =
    (g.children m).foldlM (visit g fuel) (update marked m true) := by
  rw [visit]
  rcases h with h | h
  · simp [h]
  · simp [h]

theorem foldlM_cons_eq_some_iff {σ α : Type*} {f : σ → α → Option σ} {s t : σ} {a : α}
    {l : List α} : (a :: l).foldlM f s = some t ↔ ∃ u, f s a = some u ∧ l.foldlM f u = some t := by
  exact Option.bind_eq_some_iff

theorem exists_of_foldlM_eq_some {σ α : Type*} {f : σ → α → Option σ} {s t : σ} {l : List α}
    (h : l.foldlM f s = some t) {a : α} (ha : a ∈ l) : ∃ u v, f u a = some v := by
  induction l generalizing s with
  | nil => cases ha
  | cons b l ih =>
    obtain ⟨u, hu, hl⟩ := foldlM_cons_eq_some_iff.mp h
    rcases List.mem_cons.mp ha with rfl | ha
    · exact ⟨s, u, hu⟩
    · exact ih hl ha

end Steps

section Fuel

variable {g : Graph M}

theorem foldlM_mono {σ α : Type*} {f f' : σ → α → Option σ} {l : List α} {s t : σ}
    (hf : ∀ s a t, f s a = some t → f' s a = some t) (h : l.foldlM f s = some t) :
    l.foldlM f' s = some t := by
  induction l generalizing s with
  | nil => exact h
  | cons a l ih =>
    obtain ⟨u, hu, hl⟩ := foldlM_cons_eq_some_iff.mp h
    exact foldlM_cons_eq_some_iff.mpr ⟨u, hf s a u hu, ih hl⟩

theorem visit_mono {fuel fuel' : ℕ} (hle : fuel ≤ fuel') {marked final : M → Bool} {m : M}
    (h : visit g fuel marked m = some final) : visit g fuel' marked m = some final := by
  induction fuel generalizing fuel' marked final m with
  | zero => cases h
  | succ fuel ih =>
    obtain ⟨fuel', rfl⟩ : ∃ n, fuel' = n + 1 := ⟨fuel' - 1, by omega⟩
    by_cases hm : Entered g marked m
    · rw [visit_of_entered hm] at h ⊢
      exact foldlM_mono (fun _ _ _ hs => ih (by omega) hs) h
    · rwa [visit_of_not_entered hm] at h ⊢

end Fuel

section Ends

variable {g : Graph M}

/-- What a visit with these marks, that ends with those, has gone through. -/
structure Trace (g : Graph M) (marked final : M → Bool) (entered : Set M) : Prop where
  grows : ∀ x, marked x = true → final x = true
  new : ∀ x, final x = true → marked x = true ∨ x ∈ entered
  closed : ∀ a ∈ entered, ∀ b ∈ g.children a, Entered g marked b → b ∈ entered
  ends : ∀ a ∈ entered, ∃ fuel marked final, visit g fuel marked a = some final

theorem Trace.refl (marked : M → Bool) : Trace g marked marked ∅ :=
  ⟨fun _ h => h, fun _ h => .inl h, by simp, by simp⟩

theorem Trace.mem_or_entered {marked middle : M → Bool} {S : Set M} (hS : Trace g marked middle S)
    {b : M} (hb : Entered g marked b) : b ∈ S ∨ Entered g middle b := by
  cases hmid : middle b with
  | false => exact .inr (.inl hmid)
  | true =>
    rcases hb with hb | hb
    · exact .inl ((hS.new b hmid).resolve_left (by simp [hb]))
    · exact .inr (.inr hb)

theorem Trace.trans {marked middle final : M → Bool} {S T : Set M}
    (hS : Trace g marked middle S) (hT : Trace g middle final T) :
    Trace g marked final (S ∪ T) where
  grows x h := hT.grows x (hS.grows x h)
  new x h := by
    rcases hT.new x h with h | h
    · exact (hS.new x h).imp_right .inl
    · exact .inr (.inr h)
  closed a ha b hb hent := by
    rcases ha with ha | ha
    · exact .inl (hS.closed a ha b hb hent)
    · exact (hS.mem_or_entered hent).imp_right (hT.closed a ha b hb)
  ends a ha := ha.elim (hS.ends a) (hT.ends a)

variable {marked final : M → Bool}

theorem exists_trace_foldlM {f : (M → Bool) → M → Option (M → Bool)}
    (hf : ∀ marked m final, f marked m = some final →
      ∃ S, Trace g marked final S ∧ (Entered g marked m → m ∈ S))
    {l : List M} (h : l.foldlM f marked = some final) :
    ∃ S, Trace g marked final S ∧ ∀ b ∈ l, Entered g marked b → b ∈ S := by
  induction l generalizing marked with
  | nil =>
    obtain rfl : marked = final := Option.some.inj h
    exact ⟨∅, .refl marked, by simp⟩
  | cons a l ih =>
    obtain ⟨middle, ha, hl⟩ := foldlM_cons_eq_some_iff.mp h
    obtain ⟨S, hS, hmem⟩ := hf marked a middle ha
    obtain ⟨T, hT, hres⟩ := ih hl
    refine ⟨S ∪ T, hS.trans hT, fun b hb hent => ?_⟩
    rcases List.mem_cons.mp hb with rfl | hb
    · exact .inl (hmem hent)
    · exact (hS.mem_or_entered hent).imp_right (hres b hb)

theorem exists_trace_visit {fuel : ℕ} {m : M} (h : visit g fuel marked m = some final) :
    ∃ S, Trace g marked final S ∧ (Entered g marked m → m ∈ S) := by
  induction fuel generalizing marked final m with
  | zero => cases h
  | succ fuel ih =>
    by_cases hm : Entered g marked m
    · have hend := h
      rw [visit_of_entered hm] at h
      obtain ⟨S, hS, hmem⟩ := exists_trace_foldlM (fun _ _ _ => ih) h
      -- nothing but the node itself is marked before its children are visited
      have hupd {b : M} (hb : Entered g marked b) :
          b = m ∨ Entered g (update marked m true) b := by
        refine or_iff_not_imp_left.mpr fun hne => hb.imp_left fun hfal => ?_
        rwa [update_of_ne hne]
      refine ⟨insert m S, ⟨fun x hx => hS.grows x ?_, fun x hx => ?_, ?_, ?_⟩, fun _ => .inl rfl⟩
      · by_cases hxm : x = m
        · rw [hxm, update_self]
        · rwa [update_of_ne hxm]
      · by_cases hxm : x = m
        · exact .inr (.inl hxm)
        · have hnew := hS.new x hx
          rw [update_of_ne hxm] at hnew
          exact hnew.imp_right .inr
      · rintro a (rfl | ha) b hb hent
        · exact (hupd hent).imp_right (hmem b hb)
        · exact (hupd hent).imp_right (hS.closed a ha b hb)
      · rintro a (rfl | ha)
        · exact ⟨fuel + 1, marked, final, hend⟩
        · exact hS.ends a ha
    · rw [visit_of_not_entered hm] at h
      obtain rfl : marked = final := Option.some.inj h
      exact ⟨∅, .refl marked, fun hent => absurd hent hm⟩

/-- A node on a cycle of nodes that are always entered is visited again and again. -/
theorem visit_eq_none_of_onCycle {m : M} (h : OnCycle g m) (fuel : ℕ) (marked : M → Bool) :
    visit g fuel marked m = none := by
  induction fuel generalizing marked m with
  | zero => rfl
  | succ fuel ih =>
    obtain ⟨b, ⟨halw, hb, hchi⟩, hres⟩ := Relation.TransGen.head'_iff.mp h
    have hcyc : OnCycle g b := Relation.TransGen.tail' hres ⟨halw, hb, hchi⟩
    rw [visit_of_entered (.inr halw)]
    refine Option.eq_none_iff_forall_ne_some.mpr fun final hfin => ?_
    obtain ⟨u, v, huv⟩ := exists_of_foldlM_eq_some hfin hchi
    rw [ih hcyc] at huv
    cases huv

theorem Trace.mem_of_visits {m x : M} {S : Set M}
    (hS : Trace g marked final S) (hm : Entered g marked m → m ∈ S) (hx : Visits g marked m x)
    (hent : Entered g marked x) : x ∈ S := by
  induction hx with
  | refl => exact hm hent
  | tail _ hste ih => exact hS.closed _ (ih hste.1) _ hste.2 hent

omit [DecidableEq M] in
theorem OnCycle.always {m : M} (h : OnCycle g m) : g.always m = true := by
  obtain ⟨b, hb, -⟩ := Relation.TransGen.head'_iff.mp h
  exact hb.1

theorem not_onCycle_of_visit {fuel : ℕ} {m x : M}
    (h : visit g fuel marked m = some final) (hx : Visits g marked m x) : ¬OnCycle g x := by
  intro hcyc
  obtain ⟨S, hS, hmem⟩ := exists_trace_visit h
  obtain ⟨n, marked', final', hend⟩ := hS.ends x (hS.mem_of_visits hmem hx (.inr hcyc.always))
  rw [visit_eq_none_of_onCycle hcyc] at hend
  cases hend

end Ends

variable (g : Graph M)

def remaining [Fintype M] (marked : M → Bool) : ℕ :=
  (Finset.univ.filter fun x => marked x = false ∧ g.always x = false).card

variable {g}

omit [DecidableEq M] in
theorem remaining_le [Fintype M] {marked marked' : M → Bool}
    (h : ∀ x, marked x = true → marked' x = true) : remaining g marked' ≤ remaining g marked := by
  refine card_le_card fun x hx => ?_
  simp only [mem_filter, mem_univ, true_and] at hx ⊢
  refine ⟨?_, hx.2⟩
  by_contra hmar
  rw [h x (by simpa using hmar)] at hx
  cases hx.1

variable {marked : M → Bool}

theorem remaining_update_lt [Fintype M] {m : M} (hm : marked m = false)
    (halw : g.always m = false) : remaining g (update marked m true) < remaining g marked := by
  refine card_lt_card (ssubset_iff_of_subset ?_ |>.mpr ⟨m, ?_, ?_⟩)
  · intro x hx
    simp only [mem_filter, mem_univ, true_and] at hx ⊢
    by_cases hxm : x = m
    · rw [hxm]
      exact ⟨hm, halw⟩
    · rwa [update_of_ne hxm] at hx
  · simp [hm, halw]
  · simp

theorem exists_fuel_foldlM (l : List M) (marked : M → Bool)
    (h : ∀ b ∈ l, ∀ marked', (∀ x, marked x = true → marked' x = true) →
      ∃ fuel final, visit g fuel marked' b = some final) :
    ∃ fuel final, l.foldlM (visit g fuel) marked = some final := by
  induction l generalizing marked with
  | nil => exact ⟨0, marked, rfl⟩
  | cons a l ih =>
    obtain ⟨n, middle, ha⟩ := h a List.mem_cons_self marked fun _ hx => hx
    obtain ⟨S, hS, -⟩ := exists_trace_visit ha
    obtain ⟨k, final, hl⟩ := ih middle fun b hb marked' hle =>
      h b (List.mem_cons_of_mem _ hb) marked' fun x hx => hle x (hS.grows x hx)
    refine ⟨max n k, final, foldlM_cons_eq_some_iff.mpr ⟨middle, ?_, ?_⟩⟩
    · exact visit_mono (le_max_left n k) ha
    · exact foldlM_mono (fun _ _ _ => visit_mono (le_max_right n k)) hl

/-- A node that is always entered is above its children. -/
def Below (g : Graph M) (marked : M → Bool) (m : M) (b a : M) : Prop :=
  Visits g marked m a ∧ g.always a = true ∧ b ∈ g.children a

omit [DecidableEq M] in
theorem onCycle_of_below {m x : M}
    (h : Relation.TransGen (Below g marked m) x x) : OnCycle g x := by
  have hup {b : M} (hb : Relation.TransGen (Below g marked m) b x) (halw : g.always b = true) :
      Relation.TransGen
        (fun a b => g.always a = true ∧ g.always b = true ∧ b ∈ g.children a) x b := by
    induction hb using Relation.TransGen.head_induction_on with
    | single hb => exact .single ⟨hb.2.1, halw, hb.2.2⟩
    | head hbc _ ih => exact (ih hbc.2.1).tail ⟨hbc.2.1, halw, hbc.2.2⟩
  obtain ⟨c, -, hc⟩ := Relation.TransGen.tail'_iff.mp h
  exact hup h hc.2.1

omit [DecidableEq M] in
theorem wellFounded_below [Finite M] {m : M}
    (hcyc : ∀ x, Visits g marked m x → ¬OnCycle g x) : WellFounded (Below g marked m) := by
  have hirr : Std.Irrefl (Relation.TransGen (Below g marked m)) := by
    refine ⟨fun x hx => ?_⟩
    obtain ⟨c, -, hc⟩ := Relation.TransGen.tail'_iff.mp hx
    exact hcyc x hc.1 (onCycle_of_below hx)
  exact Subrelation.wf Relation.TransGen.single (Finite.wellFounded_of_trans_of_irrefl _)

/-- A visit ends exactly if it does not come to a cycle of nodes that are always entered. -/
theorem exists_fuel_visit_iff [Fintype M] (marked : M → Bool) (m : M) :
    (∃ fuel final, visit g fuel marked m = some final) ↔
      ∀ x, Visits g marked m x → ¬OnCycle g x := by
  refine ⟨fun ⟨fuel, final, h⟩ x hx => not_onCycle_of_visit h hx, fun hcyc => ?_⟩
  have hwf := wellFounded_below hcyc
  suffices h : ∀ n x marked', Visits g marked m x → (∀ y, marked y = true → marked' y = true) →
      remaining g marked' ≤ n → ∃ fuel final, visit g fuel marked' x = some final from
    h _ m marked .refl (fun _ hy => hy) le_rfl
  intro n
  induction n using Nat.strong_induction_on with
  | h n ihn =>
    intro x
    induction x using hwf.induction with
    | h x ihx =>
      intro marked' hx hle hn
      by_cases hent : Entered g marked' x
      · have hgro (y : M) (hy : marked' y = true) : update marked' x true y = true := by
          by_cases hyx : y = x
          · rw [hyx, update_self]
          · rwa [update_of_ne hyx]
        have hvis {b : M} (hb : b ∈ g.children x) : Visits g marked m b := by
          refine hx.tail ⟨hent.imp_left fun hfal => ?_, hb⟩
          by_contra hmar
          rw [hle x (by simpa using hmar)] at hfal
          cases hfal
        obtain ⟨fuel, final, h⟩ := exists_fuel_foldlM (g := g) (g.children x)
          (update marked' x true) fun b hb marked'' hle' => by
            have hall (y : M) (hy : marked y = true) : marked'' y = true :=
              hle' y (hgro y (hle y hy))
            have hrem := remaining_le (g := g) hle'
            cases halw : g.always x with
            | true =>
              exact ihx b ⟨hx, halw, hb⟩ marked'' (hvis hb) hall
                (hrem.trans ((remaining_le hgro).trans hn))
            | false =>
              have hlt := remaining_update_lt (g := g)
                (hent.resolve_right (by simp [halw])) halw
              exact ihn _ (hlt.trans_le hn) b marked'' (hvis hb) hall hrem
        exact ⟨fuel + 1, final, by rw [visit_of_entered hent, h]⟩
      · exact ⟨1, marked', visit_of_not_entered hent⟩

end Traversal
