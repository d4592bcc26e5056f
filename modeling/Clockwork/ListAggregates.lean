import Clockwork.Parameter
import Clockwork.ValueLaws
import Mathlib.Algebra.BigOperators.Group.List.Basic

namespace Clockwork.ListValues

open List Option Value

variable {F M : Type}

structure View (F M : Type) where
  machineList : Option (Bool × List (Parameter F M))
  lookup : Parameter F M → Option M
  getValue : M → String → Value F

namespace View

variable (view : View F M) (property : String)

def machine (p : Parameter F M) : Option M := p.machine <|> view.lookup p

def values (ps : List (Parameter F M)) : List (Value F) :=
  if property ≠ "" then ps.filterMap fun p => (view.machine p).map (view.getValue · property)
  else ps.map (·.val)

/-- Without a list and for an empty one the operators return 0. -/
def evaluate {α : Type} (zero : α) (f : List (Value F) → α) : α :=
  match view.machineList with
  | some (true, p :: ps) => f (view.values property (p :: ps))
  | _ => zero

variable [Double F]

/-- A turn of the loops of `MinValue` and `MaxValue`: the first value is taken in any case. -/
def take (better : Value F → Value F → Bool) : Option (Value F) → Value F → Option (Value F)
  | none, v => some v
  | some m, v => some (if better v m then v else m)

def minValue : Value F :=
  view.evaluate property (.integer 0) fun vs =>
    (vs.foldl (take Value.lt) none).getD (.integer Int64.maxValue)

def maxValue : Value F :=
  view.evaluate property (.integer 0) fun vs =>
    (vs.foldl (take Value.gt) none).getD (.integer Int64.minValue)

def sumValue : Option (Value F) :=
  view.evaluate property (some (.integer 0)) fun vs => vs.foldlM Value.add (.integer 0)

end View

/-- The number that a text denotes. `strtol` gives the nearest `long`. -/
def wholeNumber (s : String) : ℤ :=
  let body := (cStr s).dropWhile isSpace
  let neg := body.head? = some '-'
  let unsigned := if neg ∨ body.head? = some '+' then body.tail else body
  let n := digitsValue (unsigned.takeWhile Char.isDigit)
  if neg then -(n : ℤ) else n

def denoted : Value F → ℤ
  | .integer i => i.toInt
  | .string s | .symbol s _ => wholeNumber s
  | _ => 0

def read (v : Value F) : ℤ := (v.number?.getD 0).toInt

def Best (holds : Value F → Value F → Bool) (vs : List (Value F)) (m : Value F) : Prop :=
  ∀ v ∈ vs, holds m v = true

/-- There is a best value, and every value that holds against it is as good. -/
def Decided (holds : Value F → Value F → Bool) (vs : List (Value F)) : Prop :=
  ∃ m ∈ vs, Best holds vs m ∧ ∀ c ∈ vs, holds c m = true → Best holds vs c

variable {a b : Value F} {vs : List (Value F)}

/-- Values are compared by their numbers, and two texts as texts. -/
structure Compares (holds beats : Value F → Value F → Bool) (onNumber : ℤ → ℤ → Prop)
    (onText : String → String → Prop) : Prop where
  not_beats : ∀ a b : Value F, a.number?.isSome → b.number?.isSome →
    (holds a b = true ↔ beats b a = false)
  number : ∀ a b : Value F, a.number?.isSome → b.number?.isSome → a.text? = none ∨ b.text? = none →
    (holds a b = true ↔ onNumber (read a) (read b))
  text : ∀ (a b : Value F) (s t : String), a.text? = some s → b.text? = some t →
    (holds a b = true ↔ onText s t)
  antisymm : (∀ x y, onNumber x y → onNumber y x → x = y) ∧ ∀ s t, onText s t → onText t s → s = t
  refl : (∀ x, onNumber x x) ∧ ∀ s, onText s s

section Order

variable {holds beats : Value F → Value F → Bool} {onNumber : ℤ → ℤ → Prop}
  {onText : String → String → Prop} (hcom : Compares holds beats onNumber onText)

include hcom

theorem holds_self (ha : a.number?.isSome) : holds a a = true := by
  cases hs : a.text? with
  | none => exact (hcom.number a a ha ha (.inl hs)).mpr (hcom.refl.1 _)
  | some s => exact (hcom.text a a s s hs hs).mpr (hcom.refl.2 s)

/-- Values with one text, and integers with one number, are not told apart. -/
theorem holds_congr {c : Value F} (ha : a.number?.isSome) (hb : b.number?.isSome)
    (hc : c.number?.isSome) (htex : a.text? = b.text?) (hrea : read a = read b) :
    (holds a c = true ↔ holds b c = true) ∧ (holds c a = true ↔ holds c b = true) := by
  by_cases h : a.text? = none ∨ c.text? = none
  · have h' := h
    rw [htex] at h'
    rw [hcom.number a c ha hc h, hcom.number b c hb hc h', hcom.number c a hc ha h.symm,
      hcom.number c b hc hb h'.symm, hrea]
    exact ⟨Iff.rfl, Iff.rfl⟩
  · obtain ⟨hs, ht⟩ := not_or.mp h
    obtain ⟨s, hs⟩ := ne_none_iff_exists'.mp hs
    obtain ⟨t, ht⟩ := ne_none_iff_exists'.mp ht
    have hb := htex.symm.trans hs
    rw [hcom.text a c s t hs ht, hcom.text b c s t hb ht, hcom.text c a t s ht hs,
      hcom.text c b t s ht hb]
    exact ⟨Iff.rfl, Iff.rfl⟩

theorem read_eq_of_tie (ha : a.number?.isSome) (hb : b.number?.isSome) (hab : holds a b = true)
    (hba : holds b a = true) :
    read a = read b ∧ (a.text?.isSome = b.text?.isSome → a.text? = b.text?) := by
  by_cases h : a.text? = none ∨ b.text? = none
  · refine ⟨hcom.antisymm.1 _ _ ((hcom.number a b ha hb h).mp hab)
      ((hcom.number b a hb ha h.symm).mp hba), fun heq => ?_⟩
    rcases h with h | h <;> simp_all
  · obtain ⟨hs, ht⟩ := not_or.mp h
    obtain ⟨s, hs⟩ := ne_none_iff_exists'.mp hs
    obtain ⟨t, ht⟩ := ne_none_iff_exists'.mp ht
    obtain rfl := hcom.antisymm.2 _ _ ((hcom.text a b s t hs ht).mp hab)
      ((hcom.text b a t s ht hs).mp hba)
    rw [read, read, number?_of_text? hs, number?_of_text? ht, hs, ht]
    exact ⟨rfl, fun _ => rfl⟩

/-- A best value that is met stays, and so does what holds against it. -/
theorem foldl_best (hnum : ∀ v ∈ vs, v.number?.isSome) {m : Value F}
    (hbes : Best holds vs m) (hall : ∀ c ∈ vs, holds c m = true → Best holds vs c)
    {us : List (Value F)} (hus : us ⊆ vs) {r : Value F} (hr : r ∈ vs)
    (h : m ∈ us ∨ Best holds vs r) :
    ∃ q ∈ vs, us.foldl (View.take beats) (some r) = some q ∧ Best holds vs q := by
  induction us generalizing r with
  | nil => exact ⟨r, hr, rfl, h.resolve_left not_mem_nil⟩
  | cons u us ih =>
    obtain ⟨hu, hus⟩ := cons_subset.mp hus
    have hnot := hcom.not_beats r u (hnum r hr) (hnum u hu)
    rw [foldl_cons, View.take]
    cases hbea : beats u r with
    | true =>
      refine ih hus hu ?_
      rcases h with h | h
      · rcases mem_cons.mp h with rfl | h
        · exact .inr hbes
        · exact .inl h
      · simp [hnot.mp (h u hu)] at hbea
    | false =>
      refine ih hus hr ?_
      rcases h with h | h
      · rcases mem_cons.mp h with rfl | h
        · exact .inr (hall r hr (hnot.mpr hbea))
        · exact .inl h
      · exact .inr h

omit hcom in
theorem foldl_stays {us : List (Value F)} {m : Value F} (h : ∀ u ∈ us, beats u m = false) :
    us.foldl (View.take beats) (some m) = some m := by
  induction us with
  | nil => rfl
  | cons u us ih =>
    obtain ⟨hu, hus⟩ := forall_mem_cons.mp h
    rw [foldl_cons, View.take, hu]
    exact ih hus

omit hcom in
variable (beats) in
theorem foldl_mem (us : List (Value F)) (m : Value F) :
    ∃ r ∈ m :: us, us.foldl (View.take beats) (some m) = some r := by
  induction us generalizing m with
  | nil => exact ⟨m, mem_cons_self, rfl⟩
  | cons u us ih =>
    obtain ⟨r, hr, heq⟩ := ih (if beats u m then u else m)
    refine ⟨r, ?_, heq⟩
    split_ifs at hr <;> simp only [mem_cons] at hr ⊢ <;> tauto

variable {α : Type} {val : α → Value F} {l : List α} (hnum : ∀ v ∈ l.map val, v.number?.isSome)

include hnum

/-- If the best values are not told apart from others, there is one order of the items in which
they all come before one that takes the lead then. -/
theorem exists_order {c : Value F} (hc : c ∈ l.map val) (hnot : ¬Best holds (l.map val) c)
    (hcov : ∀ m ∈ l.map val, Best holds (l.map val) m → holds c m = true) :
    ∃ l' : List α, l' ~ l ∧ ∃ r, (l'.map val).foldl (View.take beats) none = some r ∧
      ¬Best holds (l.map val) r := by
  classical
  obtain ⟨p, hp, rfl⟩ := mem_map.mp hc
  obtain ⟨v, hv, hpv⟩ : ∃ v ∈ l.map val, ¬holds (val p) v = true := by simpa [Best] using hnot
  obtain ⟨q, hq, rfl⟩ := mem_map.mp hv
  obtain ⟨l₁, hl₁⟩ : ∃ l₁, p :: l₁ ~ l := by
    obtain ⟨s, t, heq⟩ := append_of_mem hp
    exact ⟨s ++ t, by rw [heq]; exact perm_middle.symm⟩
  let good : α → Bool := fun p => decide (Best holds (l.map val) (val p))
  have hq₁ : q ∈ l₁.filter fun p => !good p := by
    refine mem_filter.mpr ⟨(mem_cons.mp (hl₁.mem_iff.mpr hq)).resolve_left ?_, ?_⟩
    · rintro rfl
      exact hpv (holds_self hcom (hnum _ hc))
    · simpa [good] using fun hbes => hpv (hcov _ hv hbes)
  obtain ⟨s, t, heq⟩ := append_of_mem hq₁
  have hper : p :: (l₁.filter good ++ q :: (s ++ t)) ~ l := by
    refine Perm.trans (Perm.cons p ?_) hl₁
    refine Perm.trans (Perm.append_left _ ?_) (filter_append_perm good l₁)
    rw [heq]
    exact perm_middle.symm
  have hsub {x : α} (hx : x ∈ l₁) : val x ∈ l.map val :=
    mem_map_of_mem (hl₁.subset (mem_cons_of_mem p hx))
  refine ⟨_, hper, ?_⟩
  have hsta : ((l₁.filter good).map val).foldl (View.take beats) (some (val p)) = some (val p) := by
    refine foldl_stays fun u hu => ?_
    obtain ⟨x, hx, rfl⟩ := mem_map.mp hu
    obtain ⟨hx, hgoo⟩ := mem_filter.mp hx
    exact (hcom.not_beats _ _ (hnum _ hc) (hnum _ (hsub hx))).mp
      (hcov _ (hsub hx) (of_decide_eq_true hgoo))
  have hbea : beats (val q) (val p) = true := by
    rw [hcom.not_beats _ _ (hnum _ hc) (hnum _ hv)] at hpv
    simpa using hpv
  obtain ⟨r, hr, hfol⟩ := foldl_mem beats ((s ++ t).map val) (val q)
  refine ⟨r, ?_, ?_⟩
  · rw [map_cons, map_append, map_cons, foldl_cons, foldl_append, View.take, hsta, foldl_cons,
      View.take, if_pos hbea, hfol]
  · rw [← map_cons] at hr
    obtain ⟨x, hx, rfl⟩ := mem_map.mp hr
    have hmem : x ∈ l₁.filter fun p => !good p := by
      rw [heq]
      exact perm_middle.symm.subset hx
    simpa [good] using (mem_filter.mp hmem).2

theorem decided_of_orders (h : ∀ l' : List α, l' ~ l → ∃ r ∈ l.map val,
      (l'.map val).foldl (View.take beats) none = some r ∧ Best holds (l.map val) r) :
    Decided holds (l.map val) := by
  obtain ⟨m, hm, -, hbes⟩ := h l (.refl l)
  by_contra hnot
  have hund {m : Value F} (hm : m ∈ l.map val) (hbes : Best holds (l.map val) m) :
      ∃ c ∈ l.map val, holds c m = true ∧ ¬Best holds (l.map val) c := by
    by_contra hall
    exact hnot ⟨m, hm, hbes, fun c hc hcm => by_contra fun hcb => hall ⟨c, hc, hcm, hcb⟩⟩
  have hali {c m : Value F} (hc : c ∈ l.map val) (hm : m ∈ l.map val)
      (hbes : Best holds (l.map val) m) (htex : c.text? = m.text?) (hrea : read c = read m) :
      Best holds (l.map val) c := fun v hv =>
    (holds_congr hcom (hnum c hc) (hnum m hm) (hnum v hv) htex hrea).1.mpr (hbes v hv)
  have hoth {c m : Value F} (hc : c ∈ l.map val) (hm : m ∈ l.map val)
      (hbes : Best holds (l.map val) m) (hcm : holds c m = true)
      (hcb : ¬Best holds (l.map val) c) :
      read c = read m ∧ c.text?.isSome ≠ m.text?.isSome := by
    obtain ⟨hrea, htex⟩ := read_eq_of_tie hcom (hnum c hc) (hnum m hm) hcm (hbes c hc)
    exact ⟨hrea, fun heq => hcb (hali hc hm hbes (htex heq) hrea)⟩
  obtain ⟨c, hc, hcm, hcb⟩ := hund hm hbes
  obtain ⟨hrea, hkin⟩ := hoth hc hm hbes hcm hcb
  obtain ⟨l', hper, r, hfol, hr⟩ := exists_order hcom hnum hc hcb fun m₁ hm₁ hbes₁ => by
    -- otherwise `m₁` and `c` are texts and `m` is an integer, and `m₁` is told apart
    by_contra hcm₁
    obtain ⟨hrea₁, htex₁⟩ :=
      read_eq_of_tie hcom (hnum m hm) (hnum m₁ hm₁) (hbes m₁ hm₁) (hbes₁ m hm)
    have hkin₁ : m.text?.isSome ≠ m₁.text?.isSome := fun heq => hcm₁
      ((holds_congr hcom (hnum m hm) (hnum m₁ hm₁) (hnum c hc) (htex₁ heq) hrea₁).2.mp hcm)
    obtain ⟨d, hd, hdm, hdb⟩ := hund hm₁ hbes₁
    obtain ⟨hread, hkind⟩ := hoth hd hm₁ hbes₁ hdm hdb
    cases hmt : m.text? with
    | none =>
      have hdt : d.text? = none := by
        have hsam := (Bool.eq_not.mpr hkind).trans (Bool.eq_not.mpr hkin₁).symm
        simpa [hmt] using hsam
      exact hdb (hali hd hm hbes (hdt.trans hmt.symm) (hread.trans hrea₁.symm))
    | some t =>
      have hct : c.text? = m₁.text? := by
        rw [hmt] at hkin hkin₁
        rw [show c.text? = none by simpa using hkin, show m₁.text? = none by simpa using hkin₁]
      have hsel := holds_congr hcom (hnum c hc) (hnum m₁ hm₁) (hnum m₁ hm₁) hct (hrea.trans hrea₁)
      exact hcm₁ (hsel.1.mpr (holds_self hcom (hnum m₁ hm₁)))
  obtain ⟨r', -, hfol', hr'⟩ := h l' hper
  rw [hfol] at hfol'
  cases hfol'
  exact hr hr'

end Order

variable [Double F]

/-- `MIN` and `MAX` are values of the list that no other value undercuts or exceeds. -/
structure Extremes (view : View F M) (property : String) (vs : List (Value F)) : Prop where
  min : view.minValue property ∈ vs ∧ ∀ v ∈ vs, (view.minValue property).le v = true
  max : view.maxValue property ∈ vs ∧ ∀ v ∈ vs, (view.maxValue property).ge v = true

/-- The sum is a `long`, and numerals that are none do not change it modulo 2^64. -/
def Fits (vs : List (Value F)) : Prop :=
  -9223372036854775808 ≤ (vs.map denoted).sum ∧ (vs.map denoted).sum < 9223372036854775808 ∧
    (18446744073709551616 : ℤ) ∣ (vs.map read).sum - (vs.map denoted).sum

theorem compared_numbers (ha : a.number?.isSome) (hb : b.number?.isSome)
    (h : a.text? = none ∨ b.text? = none) : a.ComparedBy b (read a) (read b) := by
  obtain ⟨x, hx⟩ := isSome_iff_exists.mp ha
  obtain ⟨y, hy⟩ := isSome_iff_exists.mp hb
  rw [read, read, hx, hy]
  rcases h with h | h
  · cases a with
    | integer i =>
      cases hx
      exact (comparedBy_number hy _).1
    | string s | symbol s t => cases h
    | _ => cases ha
  · cases b with
    | integer i =>
      cases hy
      exact (comparedBy_number hx _).2
    | string s | symbol s t => cases h
    | _ => cases hb

theorem not_beats (ha : a.number?.isSome) (hb : b.number?.isSome) :
    (a.le b = true ↔ b.lt a = false) ∧ (a.ge b = true ↔ b.gt a = false) := by
  by_cases h : a.text? = none ∨ b.text? = none
  · have hab := compared_numbers ha hb h
    have hba := compared_numbers hb ha h.symm
    rw [← Bool.not_eq_true, ← Bool.not_eq_true, hba.lt_iff, hba.gt_iff, hab.le_iff,
      ← not_iff_not (a := a.ge b = true), ← Value.lt_iff_not_ge, hab.lt_iff]
    simp
  · obtain ⟨hs, ht⟩ := not_or.mp h
    obtain ⟨s, hs⟩ := ne_none_iff_exists'.mp hs
    obtain ⟨t, ht⟩ := ne_none_iff_exists'.mp ht
    simp only [lt, gt, le, ge, compareWith_texts hs ht, compareWith_texts ht hs,
      Bool.not_eq_false', and_self]

theorem compares_le : Compares (F := F) le lt (· ≤ ·) (· ≤ ·) where
  not_beats a b ha hb := (not_beats ha hb).1
  number a b ha hb h := (compared_numbers ha hb h).le_iff
  text a b s t hs ht := by rw [le, compareWith_texts hs ht, decide_eq_true_iff]
  antisymm := ⟨fun _ _ => le_antisymm, fun _ _ => le_antisymm⟩
  refl := ⟨fun _ => le_rfl, fun _ => le_rfl⟩

theorem compares_ge : Compares (F := F) ge gt (· ≥ ·) (· ≥ ·) where
  not_beats a b ha hb := (not_beats ha hb).2
  number a b ha hb h := by
    rw [← not_iff_not, ← Value.lt_iff_not_ge, (compared_numbers ha hb h).lt_iff, not_le]
  text a b s t hs ht := by rw [ge, compareWith_texts hs ht, decide_eq_true_iff]
  antisymm := ⟨fun _ _ h h' => le_antisymm h' h, fun _ _ h h' => le_antisymm h' h⟩
  refl := ⟨fun _ => le_rfl, fun _ => le_rfl⟩

theorem foldlM_add (hnum : ∀ v ∈ vs, v.number?.isSome) (n : ℤ) :
    vs.foldlM add (.integer (.ofInt n) : Value F) =
      some (.integer (.ofInt (n + (vs.map read).sum))) := by
  induction vs generalizing n with
  | nil => simp
  | cons v vs ih =>
    have hv := hnum v mem_cons_self
    have hadd : add (.integer (.ofInt n) : Value F) v =
        some (.integer (.ofInt (n + read v))) := by
      rw [Int64.ofInt_add, read, Int64.ofInt_toInt]
      cases v with
      | integer i => rfl
      | string s | symbol s t =>
        by_cases hs : (strtol s).2 = true
        · simp [Value.add, Value.typeFix, Value.sum, Value.number?, hs]
        · simp [number?, hs] at hv
      | _ => cases hv
    rw [foldlM_cons, hadd, bind_eq_bind, bind_some, ih (fun u hu => hnum u (mem_cons_of_mem v hu)),
      map_cons, sum_cons, add_assoc]

theorem sum_iff (hnum : ∀ v ∈ vs, v.number?.isSome) :
    (∃ i, vs.foldlM add (.integer 0 : Value F) = some (.integer i) ∧
      i.toInt = (vs.map denoted).sum) ↔ Fits vs := by
  have hzer : (0 : Int64) = .ofInt 0 := rfl
  rw [hzer, foldlM_add hnum, zero_add]
  simp only [some.injEq, integer.injEq, exists_eq_left', Int64.toInt_ofInt, Fits]
  generalize (vs.map read).sum = x
  generalize (vs.map denoted).sum = y
  simp only [Int.bmod, Int64.size]
  omega

variable {view : View F M} {property : String} {ps : List (Parameter F M)}

/-- A list with at least one item, all members found, and numbers for values. -/
structure Holds (view : View F M) (property : String) (ps : List (Parameter F M)) : Prop where
  list : view.machineList = some (true, ps)
  ne : ps ≠ []
  found : property ≠ "" → ∀ p ∈ ps, (view.machine p).isSome
  numeric : ∀ v ∈ view.values property ps, v.number?.isSome

namespace View

def ordered (view : View F M) (ps : List (Parameter F M)) : View F M :=
  { view with machineList := some (true, ps) }

def val (view : View F M) (property : String) (p : Parameter F M) : Value F :=
  if property ≠ "" then ((view.machine p).map (view.getValue · property)).getD .empty else p.val

end View

variable {qs : List (Parameter F M)}

section

variable (h : Holds view property ps)

include h

omit [Double F] in
theorem Holds.values (hqs : qs ~ ps) : view.values property qs = qs.map (view.val property) := by
  unfold View.values View.val
  split_ifs with hpro
  · rw [← filterMap_eq_map]
    refine filterMap_congr fun p hp => ?_
    obtain ⟨m, hm⟩ := isSome_iff_exists.mp (h.found hpro p (hqs.subset hp))
    simp [hm]
  · rfl

omit [Double F] in
theorem Holds.exists_cons (hqs : qs ~ ps) : ∃ p ps', qs = p :: ps' := by
  refine exists_cons_of_ne_nil ?_
  rintro rfl
  exact h.ne hqs.nil_eq.symm

omit [Double F] in
theorem Holds.evaluate {α : Type} (hqs : qs ~ ps) (zero : α) (f : List (Value F) → α) :
    (view.ordered qs).evaluate property zero f = f (qs.map (view.val property)) := by
  rw [← h.values hqs]
  obtain ⟨p, qs, rfl⟩ := h.exists_cons hqs
  rfl

omit [Double F] in
theorem Holds.orders_iff {holds beats : Value F → Value F → Bool}
    {onNumber : ℤ → ℤ → Prop} {onText : String → String → Prop}
    (hcom : Compares holds beats onNumber onText) (best : View F M → Value F)
    (hbest : ∀ qs, qs ~ ps → ∀ r,
      (qs.map (view.val property)).foldl (View.take beats) none = some r →
        best (view.ordered qs) = r) :
    (∀ qs, qs ~ ps → best (view.ordered qs) ∈ view.values property ps ∧
      ∀ v ∈ view.values property ps, holds (best (view.ordered qs)) v = true) ↔
      Decided holds (view.values property ps) := by
  have hnum := h.numeric
  rw [h.values (.refl ps)] at hnum ⊢
  constructor
  · refine fun hall => decided_of_orders hcom hnum fun qs hqs => ?_
    obtain ⟨p, qs, rfl⟩ := h.exists_cons hqs
    obtain ⟨r, -, hr⟩ := foldl_mem beats (qs.map (view.val property)) (view.val property p)
    have hres := hall _ hqs
    rw [hbest _ hqs r hr] at hres
    exact ⟨r, hres.1, hr, hres.2⟩
  · rintro ⟨m, hm, hbes, hdec⟩ qs hqs
    have hsub : qs.map (view.val property) ⊆ ps.map (view.val property) :=
      (hqs.map _).subset
    have hmem := (hqs.map _).mem_iff.mpr hm
    obtain ⟨p, qs, rfl⟩ := h.exists_cons hqs
    obtain ⟨hp, hsub⟩ := cons_subset.mp hsub
    rw [map_cons, mem_cons] at hmem
    have hlea : m ∈ qs.map (view.val property) ∨
        Best holds (ps.map (view.val property)) (view.val property p) := by
      rcases hmem with rfl | hmem
      · exact .inr hbes
      · exact .inl hmem
    obtain ⟨r, hr, hfol, hres⟩ := foldl_best hcom hnum hbes hdec hsub hp hlea
    rw [hbest _ hqs r hfol]
    exact ⟨hr, hres⟩

end

/-- `MIN` and `MAX` are right in every order of the items exactly if a least and a greatest value
are told apart from the others, and `SUM` is right exactly if the sum fits. -/
theorem aggregates_iff (h : Holds view property ps) :
    ((∀ qs, qs ~ ps → Extremes (view.ordered qs) property (view.values property ps)) ↔
      Decided le (view.values property ps) ∧ Decided ge (view.values property ps)) ∧
    ((∃ i, view.sumValue property = some (.integer i) ∧
      i.toInt = ((view.values property ps).map denoted).sum) ↔ Fits (view.values property ps)) := by
  have hself : view.ordered ps = view := by rw [View.ordered, ← h.list]
  constructor
  · rw [← h.orders_iff compares_le (·.minValue property) fun qs hqs r hr => by
      rw [View.minValue, h.evaluate hqs, hr]
      rfl, ← h.orders_iff compares_ge (·.maxValue property) fun qs hqs r hr => by
      rw [View.maxValue, h.evaluate hqs, hr]
      rfl]
    exact ⟨fun hall => ⟨fun qs hqs => (hall qs hqs).min, fun qs hqs => (hall qs hqs).max⟩,
      fun hall qs hqs => ⟨hall.1 qs hqs, hall.2 qs hqs⟩⟩
  · have hsum := h.evaluate (.refl ps) (some (.integer 0)) fun vs => vs.foldlM add (.integer 0)
    rw [hself, ← h.values (.refl ps)] at hsum
    rw [View.sumValue, hsum]
    exact sum_iff h.numeric

def literals (M : Type) (vs : List (Value F)) : View F M :=
  ⟨some (true, vs.map fun v => ⟨v, "", none⟩), fun _ => none, fun _ _ => .integer 0⟩

theorem number_and_text_extremes :
    let view : View ℚ ℕ := literals ℕ [.integer 1, .string "2"]
    let ps : List (Parameter ℚ ℕ) := [⟨.string "2", "", none⟩, ⟨.integer 1, "", none⟩]
    Extremes (view.ordered ps) "" [.integer 1, .string "2"] := by
  intro view ps
  have hhol : Holds view "" [⟨.integer 1, "", none⟩, ⟨.string "2", "", none⟩] :=
    ⟨rfl, by simp, fun h => absurd rfl h, by decide⟩
  refine (aggregates_iff hhol).1.mpr ⟨⟨.integer 1, by decide, ?_⟩, ⟨.string "2", by decide, ?_⟩⟩ ps
    (.swap _ _ _)
  all_goals
    unfold Best
    decide

/-- `"10"` is less than `"8"` as a text and 9 is less than `"10"`, so `MIN` passes over `"8"`,
which it returns when the items stand in another order. -/
theorem texts_mislead_min :
    let view : View ℚ ℕ := literals ℕ [.string "8", .string "10", .integer 9]
    let other : View ℚ ℕ := literals ℕ [.string "10", .integer 9, .string "8"]
    view.minValue "" = .integer 9 ∧ le (.integer 9 : Value ℚ) (.string "8") = false ∧
      other.minValue "" = .string "8" := by
  decide

end Clockwork.ListValues
