import Clockwork.LongText
import Mathlib.Data.String.Basic

namespace Clockwork.Value

open Option

variable {F : Type}

/-- A value of another kind than `t_float`, a symbol with the token of its name. -/
def Comparand : Value F → Prop
  | .float _ => False
  | .symbol s t => t = some s
  | _ => True

def text? : Value F → Option String
  | .string s => some s
  | .symbol s _ => some s
  | _ => none

/-- The operators obey the laws of an equivalence and an order on a set of values. -/
structure Coherent [Double F] (S : Set (Value F)) : Prop where
  eq_or_ne : ∀ a ∈ S, ∀ b ∈ S, (a.eq b = true ↔ ¬a.ne b = true)
  eq_refl : ∀ a ∈ S, a.eq a = true
  eq_symm : ∀ a ∈ S, ∀ b ∈ S, a.eq b = true → b.eq a = true
  eq_trans : ∀ a ∈ S, ∀ b ∈ S, ∀ c ∈ S, a.eq b = true → b.eq c = true → a.eq c = true
  one_at_most : ∀ a ∈ S, ∀ b ∈ S, ¬(a.lt b = true ∧ a.eq b = true) ∧
    ¬(a.lt b = true ∧ a.gt b = true) ∧ ¬(a.eq b = true ∧ a.gt b = true)
  le_iff : ∀ a ∈ S, ∀ b ∈ S, (a.le b = true ↔ a.lt b = true ∨ a.eq b = true)
  lt_trans : ∀ a ∈ S, ∀ b ∈ S, ∀ c ∈ S, a.lt b = true → b.lt c = true → a.lt c = true

/-- There are only integers and texts. Beside an integer every text is read as a number to its
end, and of two texts the lesser one is a number before the integer or the greater one is a number
after it. -/
structure Ordered (S : Set (Value F)) : Prop where
  kinds : ∀ v ∈ S, (∃ i, v = .integer i) ∨ ∃ s, v.text? = some s
  numeric : ∀ i, .integer i ∈ S → ∀ v ∈ S, ∀ s, v.text? = some s → (strtol s).2 = true
  separated : ∀ i, .integer i ∈ S → ∀ u ∈ S, ∀ v ∈ S, ∀ s t, u.text? = some s →
    v.text? = some t → s < t → (strtol s).1 < i ∨ i < (strtol t).1

section Pairs

variable [Double F] {a b : Value F}

/-- The operators on two values that are read as elements of an ordered type. -/
structure ComparedBy {α : Type} [LinearOrder α] (a b : Value F) (x y : α) : Prop where
  eq_iff : a.eq b = true ↔ x = y
  ne_iff : a.ne b = true ↔ x ≠ y
  lt_iff : a.lt b = true ↔ x < y
  gt_iff : a.gt b = true ↔ y < x
  le_iff : a.le b = true ↔ x ≤ y

theorem lt_iff_not_ge : a.lt b = true ↔ ¬a.ge b = true := by
  rw [lt, Bool.not_eq_true', Bool.not_eq_true]

theorem gt_iff_not_le : a.gt b = true ↔ ¬a.le b = true := by
  rw [gt, Bool.not_eq_true', Bool.not_eq_true]

variable {α : Type} {s t : String} {v : Value F} {x y : α}

theorem comparedBy_of [LinearOrder α] (heq : a.eq b = true ↔ x = y)
    (hne : a.ne b = true ↔ x ≠ y) (hge : a.ge b = true ↔ y ≤ x) (hle : a.le b = true ↔ x ≤ y) :
    ComparedBy a b x y where
  eq_iff := heq
  ne_iff := hne
  lt_iff := by rw [lt_iff_not_ge, hge, not_le]
  gt_iff := by rw [gt_iff_not_le, hle, not_le]
  le_iff := hle

theorem ComparedBy.eq_or_ne [LinearOrder α] (h : ComparedBy a b x y) :
    a.eq b = true ↔ ¬a.ne b = true := by
  rw [h.eq_iff, h.ne_iff, not_not]

theorem ComparedBy.one_at_most [LinearOrder α] (h : ComparedBy a b x y) :
    ¬(a.lt b = true ∧ a.eq b = true) ∧ ¬(a.lt b = true ∧ a.gt b = true) ∧
      ¬(a.eq b = true ∧ a.gt b = true) := by
  rw [h.lt_iff, h.eq_iff, h.gt_iff]
  exact ⟨fun h => h.1.ne h.2, fun h => lt_asymm h.1 h.2, fun h => h.2.ne h.1.symm⟩

theorem ComparedBy.le_iff_or [LinearOrder α] (h : ComparedBy a b x y) :
    a.le b = true ↔ a.lt b = true ∨ a.eq b = true := by
  rw [h.le_iff, h.lt_iff, h.eq_iff, le_iff_lt_or_eq]

def number? : Value F → Option Int64
  | .integer i => some i
  | .string s => if (strtol s).2 then some (strtol s).1 else none
  | .symbol s _ => if (strtol s).2 then some (strtol s).1 else none
  | _ => none

omit [Double F] in
theorem number?_of_text? (h : v.text? = some s) :
    v.number? = if (strtol s).2 then some (strtol s).1 else none := by
  cases v with
  | string s' =>
    obtain rfl : s' = s := some.inj h
    rfl
  | symbol s' t =>
    obtain rfl : s' = s := some.inj h
    rfl
  | _ => cases h

theorem asInteger_of_number? {x : Int64} (h : v.number? = some x) : v.asInteger = some x := by
  cases v with
  | integer i => exact h
  | string s => exact h
  | symbol s t => exact h
  | _ => cases h

theorem comparedBy_number {y : Int64} (hv : v.number? = some y) (i : Int64) :
    ComparedBy (.integer i) v i.toInt y.toInt ∧ ComparedBy v (.integer i) y.toInt i.toInt := by
  have hi : (integer i : Value F).asInteger = some i := rfl
  have hy := asInteger_of_number? hv
  cases v with
  | integer j | string s | symbol s t =>
    constructor <;> apply comparedBy_of <;>
      simp [eq, ne, ge, le, compareWith, kind, comparedAs, mixedTypes, numericTypes, hi, hy,
        Int64.toInt_inj, Int64.le_iff_toInt_le]
  | _ => cases hv

omit [Double F] in
theorem text?_cases (h : v.text? = some s) : v = .string s ∨ ∃ t, v = .symbol s t := by
  cases v with
  | string s' => exact .inl (congrArg _ (some.inj h))
  | symbol s' t => exact .inr ⟨t, by rw [some.inj h]⟩
  | _ => cases h

theorem compareWith_texts {onFloat : F → F → Bool} {onInt : Int64 → Int64 → Bool}
    {onString : String → String → Bool} (hs : a.text? = some s) (ht : b.text? = some t) :
    compareWith onFloat onInt onString a b = onString s t := by
  rcases text?_cases hs with rfl | ⟨u, rfl⟩ <;> rcases text?_cases ht with rfl | ⟨u', rfl⟩ <;> rfl

theorem eq_texts (hs : a.text? = some s) (ht : b.text? = some t) (ha : a.Comparand)
    (hb : b.Comparand) : a.eq b = decide (s = t) ∧ a.ne b = !decide (s = t) := by
  rcases text?_cases hs with rfl | ⟨u, rfl⟩ <;> rcases text?_cases ht with rfl | ⟨u', rfl⟩
  · exact ⟨rfl, rfl⟩
  · exact ⟨rfl, rfl⟩
  · exact ⟨rfl, rfl⟩
  · obtain rfl : u = some s := ha
    obtain rfl : u' = some t := hb
    simp [eq, ne]

theorem comparedBy_texts (hs : a.text? = some s) (ht : b.text? = some t) (ha : a.Comparand)
    (hb : b.Comparand) : ComparedBy a b s t := by
  obtain ⟨heq, hne⟩ := eq_texts hs ht ha hb
  apply comparedBy_of
  · rw [heq, decide_eq_true_iff]
  · rw [hne, Bool.not_eq_true', decide_eq_false_iff_not]
  · rw [ge, compareWith_texts hs ht, decide_eq_true_iff]
  · rw [le, compareWith_texts hs ht, decide_eq_true_iff]

def Transitive (a b c : Value F) : Prop :=
  (a.eq b = true → b.eq c = true → a.eq c = true) ∧
    (a.lt b = true → b.lt c = true → a.lt c = true)

theorem transitive_of_comparedBy [LinearOrder α] {c : Value F} {x y z : α}
    (hab : ComparedBy a b x y) (hbc : ComparedBy b c y z) (hac : ComparedBy a c x z) :
    Transitive a b c := by
  unfold Transitive
  rw [hab.eq_iff, hbc.eq_iff, hac.eq_iff, hab.lt_iff, hbc.lt_iff, hac.lt_iff]
  exact ⟨fun h h' => h.trans h', fun h h' => h.trans h'⟩

theorem lt_and_gt_of_ge_le (hge : a.ge b = false) (hle : a.le b = false) :
    a.lt b = true ∧ a.gt b = true := by
  simp [lt, gt, hge, hle]

theorem lt_and_gt_self (hv : v.Comparand) (hint : ∀ i, v ≠ .integer i)
    (htex : v.text? = none) : v.lt v = true ∧ v.gt v = true := by
  cases v with
  | empty => exact ⟨rfl, rfl⟩
  | bool b => exact ⟨rfl, rfl⟩
  | integer i => exact absurd rfl (hint i)
  | float f => exact absurd hv id
  | string s => cases htex
  | symbol s t => cases htex

theorem lt_and_gt_of_not_number (hs : v.text? = some s) (hnum : (strtol s).2 = false)
    (i : Int64) : (integer i : Value F).lt v = true ∧ (integer i : Value F).gt v = true := by
  have hnon : v.asInteger = none := by
    rcases text?_cases hs with rfl | ⟨u, rfl⟩ <;> simp [asInteger, asIntegerInto, hnum]
  apply lt_and_gt_of_ge_le
  · rcases text?_cases hs with rfl | ⟨u, rfl⟩ <;>
      simp [ge, compareWith, kind, comparedAs, mixedTypes, numericTypes, hnon]
  · rcases text?_cases hs with rfl | ⟨u, rfl⟩ <;>
      simp [le, compareWith, kind, comparedAs, mixedTypes, numericTypes, hnon]

end Pairs

section Sets

variable {S : Set (Value F)}

theorem Ordered.number?_eq (h : Ordered S) {i : Int64} (hi : .integer i ∈ S) {v : Value F}
    (hv : v ∈ S) {s : String} (hs : v.text? = some s) : v.number? = some (strtol s).1 := by
  rw [number?_of_text? hs, if_pos (h.numeric i hi v hv s hs)]

variable [Double F]

theorem Coherent.ordered (hS : ∀ v ∈ S, v.Comparand) (h : Coherent S) : Ordered S := by
  have hnum : ∀ i, .integer i ∈ S → ∀ v ∈ S, ∀ s, v.text? = some s →
      (strtol s).2 = true := by
    intro i hi v hv s hs
    by_contra hnub
    rw [Bool.not_eq_true] at hnub
    exact (h.one_at_most _ hi v hv).2.1 (lt_and_gt_of_not_number hs hnub i)
  refine ⟨fun v hv => ?_, hnum, fun i hi u hu v hv s t hs ht hlt => ?_⟩
  · by_contra hnot
    rw [not_or, not_exists, not_exists] at hnot
    have htex : v.text? = none := eq_none_iff_forall_ne_some.mpr hnot.2
    exact (h.one_at_most v hv v hv).2.1 (lt_and_gt_self (hS v hv) hnot.1 htex)
  · by_contra hnot
    rw [not_or, Int64.lt_iff_toInt_lt, Int64.lt_iff_toInt_lt] at hnot
    have hu' : u.number? = some (strtol s).1 := by
      rw [number?_of_text? hs, if_pos (hnum i hi u hu s hs)]
    have hv' : v.number? = some (strtol t).1 := by
      rw [number?_of_text? ht, if_pos (hnum i hi v hv t ht)]
    have huv := comparedBy_texts hs ht (hS u hu) (hS v hv)
    obtain ⟨hiu, hui⟩ := comparedBy_number hu' i
    obtain ⟨hiv, hvi⟩ := comparedBy_number hv' i
    -- the texts are in one order, and the numbers with the integer between them in the other
    rcases lt_trichotomy (strtol s).1.toInt i.toInt with hsi | hsi | hsi
    · exact hnot.1 hsi
    · rcases lt_or_eq_of_le (not_lt.mp hnot.2) with hti | hti
      · have := h.lt_trans u hu v hv _ hi (huv.lt_iff.mpr hlt) (hvi.lt_iff.mpr hti)
        exact (hui.lt_iff.mp this).ne hsi
      · have := h.eq_trans u hu _ hi v hv (hui.eq_iff.mpr hsi) (hiv.eq_iff.mpr hti.symm)
        exact hlt.ne (huv.eq_iff.mp this)
    · have := h.lt_trans _ hi u hu v hv (hiu.lt_iff.mpr hsi) (huv.lt_iff.mpr hlt)
      exact hnot.2 (hiv.lt_iff.mp this)

theorem Ordered.compared (hS : ∀ v ∈ S, v.Comparand) (h : Ordered S) {a b : Value F} (ha : a ∈ S)
    (hb : b ∈ S) : (∃ x y : ℤ, ComparedBy a b x y ∧ ComparedBy b a y x) ∨
      ∃ s t : String, ComparedBy a b s t ∧ ComparedBy b a t s := by
  rcases h.kinds a ha with ⟨i, rfl⟩ | ⟨s, hs⟩
  · rcases h.kinds b hb with ⟨j, rfl⟩ | ⟨t, ht⟩
    · exact .inl ⟨_, _, comparedBy_number rfl i⟩
    · exact .inl ⟨_, _, comparedBy_number (h.number?_eq ha hb ht) i⟩
  · rcases h.kinds b hb with ⟨j, rfl⟩ | ⟨t, ht⟩
    · exact .inl ⟨_, _, (comparedBy_number (h.number?_eq hb ha hs) j).symm⟩
    · exact .inr ⟨s, t, comparedBy_texts hs ht (hS a ha) (hS b hb),
        comparedBy_texts ht hs (hS b hb) (hS a ha)⟩

section Mixed

variable (hS : ∀ v ∈ S, v.Comparand) (h : Ordered S) {i : Int64} (hi : .integer i ∈ S)
  {u v : Value F} (hu : u ∈ S) (hv : v ∈ S) {s t : String} (hs : u.text? = some s)
  (ht : v.text? = some t)

include hS h hi hu hv hs ht

theorem Ordered.transitive_integer_first : Transitive (.integer i) u v := by
  have hiu := (comparedBy_number (h.number?_eq hi hu hs) i).1
  have hiv := (comparedBy_number (h.number?_eq hi hv ht) i).1
  have huv := comparedBy_texts hs ht (hS u hu) (hS v hv)
  unfold Transitive
  rw [hiu.eq_iff, hiv.eq_iff, huv.eq_iff, hiu.lt_iff, hiv.lt_iff, huv.lt_iff]
  refine ⟨fun heq hst => hst ▸ heq, fun hlt hst => ?_⟩
  have hsep := h.separated i hi u hu v hv s t hs ht hst
  simp only [Int64.lt_iff_toInt_lt] at hsep
  omega

theorem Ordered.transitive_integer_last : Transitive u v (.integer i) := by
  have hui := (comparedBy_number (h.number?_eq hi hu hs) i).2
  have hvi := (comparedBy_number (h.number?_eq hi hv ht) i).2
  have huv := comparedBy_texts hs ht (hS u hu) (hS v hv)
  unfold Transitive
  rw [hui.eq_iff, hvi.eq_iff, huv.eq_iff, hui.lt_iff, hvi.lt_iff, huv.lt_iff]
  refine ⟨fun hst heq => hst ▸ heq, fun hst hlt => ?_⟩
  have hsep := h.separated i hi u hu v hv s t hs ht hst
  simp only [Int64.lt_iff_toInt_lt] at hsep
  omega

theorem Ordered.transitive_integer_between : Transitive u (.integer i) v := by
  have hui := (comparedBy_number (h.number?_eq hi hu hs) i).2
  have hiv := (comparedBy_number (h.number?_eq hi hv ht) i).1
  have huv := comparedBy_texts hs ht (hS u hu) (hS v hv)
  have hles (hlt : s < t) := h.separated i hi u hu v hv s t hs ht hlt
  have hmor (hlt : t < s) := h.separated i hi v hv u hu t s ht hs hlt
  simp only [Int64.lt_iff_toInt_lt] at hles hmor
  unfold Transitive
  rw [hui.eq_iff, hiv.eq_iff, huv.eq_iff, hui.lt_iff, hiv.lt_iff, huv.lt_iff]
  constructor
  · intro hsi hit
    apply le_antisymm
    · intro hlt
      have := hmor hlt
      omega
    · intro hlt
      have := hles hlt
      omega
  · intro hsi hit
    apply lt_of_le_of_ne
    · intro hlt
      have := hmor hlt
      omega
    · rintro rfl
      omega

end Mixed

theorem Ordered.transitive (hS : ∀ v ∈ S, v.Comparand) (h : Ordered S) {a b c : Value F}
    (ha : a ∈ S) (hb : b ∈ S) (hc : c ∈ S) : Transitive a b c := by
  rcases h.kinds a ha with ⟨i, rfl⟩ | ⟨s, hs⟩ <;> rcases h.kinds b hb with ⟨j, rfl⟩ | ⟨t, ht⟩ <;>
    rcases h.kinds c hc with ⟨k, rfl⟩ | ⟨u, hu⟩
  · exact transitive_of_comparedBy (comparedBy_number rfl i).1 (comparedBy_number rfl j).1
      (comparedBy_number rfl i).1
  · have hu' := h.number?_eq hb hc hu
    exact transitive_of_comparedBy (comparedBy_number rfl i).1 (comparedBy_number hu' j).1
      (comparedBy_number hu' i).1
  · have ht' := h.number?_eq ha hb ht
    exact transitive_of_comparedBy (comparedBy_number ht' i).1 (comparedBy_number ht' k).2
      (comparedBy_number rfl i).1
  · exact h.transitive_integer_first hS ha hb hc ht hu
  · have hs' := h.number?_eq hb ha hs
    exact transitive_of_comparedBy (comparedBy_number hs' j).2 (comparedBy_number rfl j).1
      (comparedBy_number hs' k).2
  · exact h.transitive_integer_between hS hb ha hc hs hu
  · exact h.transitive_integer_last hS hc ha hb hs ht
  · exact transitive_of_comparedBy (comparedBy_texts hs ht (hS a ha) (hS b hb))
      (comparedBy_texts ht hu (hS b hb) (hS c hc)) (comparedBy_texts hs hu (hS a ha) (hS c hc))

theorem Ordered.coherent (hS : ∀ v ∈ S, v.Comparand) (h : Ordered S) : Coherent S where
  eq_or_ne a ha b hb := by
    rcases h.compared hS ha hb with ⟨x, y, hab, -⟩ | ⟨s, t, hab, -⟩
    · exact hab.eq_or_ne
    · exact hab.eq_or_ne
  eq_refl a ha := by
    rcases h.kinds a ha with ⟨i, rfl⟩ | ⟨s, hs⟩
    · exact (comparedBy_number rfl i).1.eq_iff.mpr rfl
    · exact (comparedBy_texts hs hs (hS a ha) (hS a ha)).eq_iff.mpr rfl
  eq_symm a ha b hb := by
    rcases h.compared hS ha hb with ⟨x, y, hab, hba⟩ | ⟨s, t, hab, hba⟩
    · rw [hab.eq_iff, hba.eq_iff]
      exact Eq.symm
    · rw [hab.eq_iff, hba.eq_iff]
      exact Eq.symm
  eq_trans a ha b hb c hc := (h.transitive hS ha hb hc).1
  one_at_most a ha b hb := by
    rcases h.compared hS ha hb with ⟨x, y, hab, -⟩ | ⟨s, t, hab, -⟩
    · exact hab.one_at_most
    · exact hab.one_at_most
  le_iff a ha b hb := by
    rcases h.compared hS ha hb with ⟨x, y, hab, -⟩ | ⟨s, t, hab, -⟩
    · exact hab.le_iff_or
    · exact hab.le_iff_or
  lt_trans a ha b hb c hc := (h.transitive hS ha hb hc).2

/-- The sets of values on which the comparison operators are coherent. -/
theorem coherent_iff (S : Set (Value F)) (hS : ∀ v ∈ S, v.Comparand) : Coherent S ↔ Ordered S :=
  ⟨fun h => h.ordered hS, fun h => h.coherent hS⟩

end Sets

/-- A number between two texts of numbers. -/
theorem coherent_one_two_three :
    Coherent ({.string "1", .integer 2, .string "3"} : Set (Value ℚ)) := by
  have htex {v : Value ℚ} (hv : v ∈ ({.string "1", .integer 2, .string "3"} : Set (Value ℚ)))
      {s : String} (hs : v.text? = some s) : s = "1" ∨ s = "3" := by
    rcases hv with rfl | rfl | rfl
    · exact .inl (some.inj hs).symm
    · cases hs
    · exact .inr (some.inj hs).symm
  have hint {i : Int64}
      (hi : .integer i ∈ ({.string "1", .integer 2, .string "3"} : Set (Value ℚ))) : i = 2 := by
    rcases hi with hi | hi | hi <;> cases hi
    rfl
  refine (coherent_iff _ ?_).mpr ⟨?_, ?_, ?_⟩
  · rintro v (rfl | rfl | rfl) <;> exact trivial
  · rintro v (rfl | rfl | rfl)
    exacts [.inr ⟨_, rfl⟩, .inl ⟨2, rfl⟩, .inr ⟨_, rfl⟩]
  · intro i _ v hv s hs
    rcases htex hv hs with rfl | rfl <;> decide
  · intro i hi u hu v hv s t hs ht hlt
    obtain rfl := hint hi
    rcases htex hu hs with rfl | rfl
    · exact .inl (by decide)
    · rcases htex hv ht with rfl | rfl
      · exact absurd hlt (by decide)
      · exact absurd hlt (by decide)

/-- Both texts are equal to 5, but not to each other. -/
theorem not_coherent_five : ¬Coherent ({v | v.Comparand} : Set (Value ℚ)) := by
  intro h
  have := h.eq_trans (.string "5") trivial (.integer 5) trivial (.string "05") trivial
    (by decide) (by decide)
  cases this

section Division

variable [Double F]

def Representable (z : ℤ) : Prop := Int64.minValue.toInt ≤ z ∧ z ≤ Int64.maxValue.toInt

/-- An operator of division on `long` has a result, which is the exact one where there is one
that fits, and does not change if the divisor is a text. -/
structure DividesLong (F : Type) [Double F] (op : Value F → Value F → Option (Value F))
    (exact : ℤ → ℤ → ℤ) (x y : Int64) : Prop where
  defined : ∃ v, op (.integer x) (.integer y) = some v
  truncated : y ≠ 0 → Representable (exact x.toInt y.toInt) →
    ∃ z : Int64, z.toInt = exact x.toInt y.toInt ∧ op (.integer x) (.integer y) = some (.integer z)
  text : op (.integer x) (.string (toString y.toInt)) = op (.integer x) (.integer y)

theorem typeFix_integer_text (op : Value F → Value F → Option (Value F)) (x y : Int64) :
    typeFix op (.integer x) (.string (toString y.toInt)) = op (.integer x) (.integer y) := by
  unfold typeFix
  dsimp only
  rw [strtol_toString]
  exact if_pos rfl

theorem div_text (x y : Int64) : (integer x : Value F).div (.string (toString y.toInt)) =
    (integer x : Value F).div (.integer y) := by
  have hfix : (integer x : Value F).div (.string (toString y.toInt)) =
      typeFix divide (.integer x) (.string (toString y.toInt)) := rfl
  rw [hfix, typeFix_integer_text]
  rfl

theorem mod_text (x y : Int64) : (integer x : Value F).mod (.string (toString y.toInt)) =
    (integer x : Value F).mod (.integer y) := by
  have hfix : (integer x : Value F).mod (.string (toString y.toInt)) =
      typeFix modulus (.integer x) (.string (toString y.toInt)) := rfl
  rw [hfix, typeFix_integer_text]
  rfl

variable {x y : Int64}

theorem toInt_div_of_representable (h : Representable (x.toInt.tdiv y.toInt)) :
    (x / y).toInt = x.toInt.tdiv y.toInt := by
  unfold Representable at h
  rw [Int64.toInt_minValue, Int64.toInt_maxValue] at h
  rw [Int64.toInt_div, Int.bmod_eq_of_le (by omega) (by omega)]

theorem dividesLong_div (h : ¬(x = Int64.minValue ∧ y = -1)) : DividesLong F div Int.tdiv x y := by
  refine ⟨?_, fun hy hfit => ?_, div_text x y⟩
  · unfold div
    dsimp only
    split_ifs
    · exact ⟨_, rfl⟩
    · exact ⟨_, rfl⟩
    · rw [divLong, if_neg h]
      exact ⟨_, rfl⟩
  · unfold div
    dsimp only
    split_ifs with hx
    · refine ⟨x, ?_, rfl⟩
      rw [hx]
      exact (Int.zero_tdiv _).symm
    · refine ⟨x / y, toInt_div_of_representable hfit, ?_⟩
      rw [divLong, if_neg h]
      rfl

theorem dividesLong_mod (h : ¬(x = Int64.minValue ∧ y = -1)) : DividesLong F mod Int.tmod x y := by
  refine ⟨?_, fun hy _ => ⟨x % y, Int64.toInt_mod x y, ?_⟩, mod_text x y⟩
  · unfold mod
    dsimp only
    split_ifs
    · exact ⟨_, rfl⟩
    · rw [modLong, if_neg h]
      exact ⟨_, rfl⟩
  · unfold mod
    dsimp only
    rw [if_neg hy, modLong, if_neg h]
    rfl

/-- Division of integers is total and the same for both forms of the divisor, except for the least
integer by -1. -/
theorem dividesLong_iff (x y : Int64) :
    DividesLong F div Int.tdiv x y ∧ DividesLong F mod Int.tmod x y ↔
      ¬(x = Int64.minValue ∧ y = -1) := by
  constructor
  · rintro ⟨⟨⟨v, hv⟩, -, -⟩, -⟩ ⟨rfl, rfl⟩
    exact absurd hv (by simp [div, divLong])
  · intro h
    exact ⟨dividesLong_div h, dividesLong_mod h⟩

end Division

/-- Neither operator has a result for the least integer and -1. -/
theorem minValue_by_neg_one : (integer Int64.minValue : Value ℚ).div (.integer (-1)) = none ∧
      (integer Int64.minValue : Value ℚ).mod (.integer (-1)) = none := by
  decide

end Clockwork.Value
