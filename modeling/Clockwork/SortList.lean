import Clockwork.Library.WeakOrder
import Clockwork.MachineCommand
import Clockwork.Parameter
import Mathlib.Data.String.Basic

namespace Clockwork.SortList

open Option

open MachineCommand (Status)
open WeakOrder

variable {F M : Type}

def directed {α β : Type} (ascending : Bool) (r : α → α → β) (a b : α) : β :=
  if ascending then r a b else r b a

/-- An item without a machine is put first, also before itself. -/
def withMachines (compare : M → M → Bool) (a b : Parameter F M) : Bool :=
  match a.machine, b.machine with
  | none, _ => true
  | some _, none => false
  | some x, some y => compare x y

section Sorters

variable [Double F]

def stringValueSorter (ascending : Bool) : Parameter F M → Parameter F M → Bool :=
  directed ascending fun a b => decide (a.val.asString < b.val.asString)

def numericValueSorter (ascending : Bool) (a b : Parameter F M) : Bool :=
  if a.val.kind ≠ .integer ∨ b.val.kind ≠ .integer then true
  else
    match a.val.asInteger, b.val.asInteger with
    | some i, some j => directed ascending (fun i j : Int64 => decide (i < j)) i j
    | _, _ => true

variable (value : M → Value F) (ascending : Bool)

def propertyValueStringSorter : Parameter F M → Parameter F M → Bool :=
  withMachines fun x y => directed ascending Value.lt (value x) (value y)

def propertyValueNumericSorter : Parameter F M → Parameter F M → Bool :=
  withMachines fun x y =>
    match (value x).asInteger, (value y).asInteger with
    | none, _ => true
    | some _, none => false
    | some i, some j => directed ascending (fun i j : Int64 => decide (i < j)) i j

end Sorters

/-- The first item decides whether the items are sorted by the property of their machines. -/
def byProperty (ps : List (Parameter F M)) : Bool := ps.head?.any (·.val.kind == .symbol)

/-- `value` gives the property of a machine that the list is sorted by. -/
def useIntegerSort [Double F] (value : M → Value F) (ps : List (Parameter F M)) : Bool :=
  if byProperty ps then ps.all fun p => p.machine.all fun x => (value x).asInteger.isSome
  else ps.all (·.val.kind == .integer)

def sorter [Double F] (value : M → Value F) (ascending : Bool) (ps : List (Parameter F M)) :
    Parameter F M → Parameter F M → Bool :=
  if byProperty ps then
    if useIntegerSort value ps then propertyValueNumericSorter value ascending
    else propertyValueStringSorter value ascending
  else if useIntegerSort value ps then numericValueSorter ascending
  else stringValueSorter ascending

/-- `SortListAction::run`, for the machine that is found, as whether it is a `LIST`, and its
parameters: the status, and the comparison that the parameters are sorted by. -/
def run [Double F] (value : M → Value F) (ascending : Bool) :
    Option (Bool × List (Parameter F M)) → Status × Option (Parameter F M → Parameter F M → Bool)
  | some (true, []) => (.complete, none)
  | some (true, p :: ps) => (.complete, some (sorter value ascending (p :: ps)))
  | _ => (.failed, none)

variable [Double F] (value : M → Value F) (ps : List (Parameter F M))

def key (p : Parameter F M) : Value F :=
  if byProperty ps then p.machine.elim .empty value else p.val

def number (p : Parameter F M) : ℤ := ((key value ps p).asInteger.getD 0).toInt

def text (p : Parameter F M) : String := (key value ps p).asString

def allIntegers : Bool := ps.all fun p => (key value ps p).kind == .integer

/-- The order of the integers if all the keys are integers, and of their texts otherwise. -/
def InOrder (p q : Parameter F M) : Prop :=
  if allIntegers value ps then number value ps p ≤ number value ps q
  else text value ps p ≤ text value ps q

/-- How the items are compared if they all have machines. -/
def less (p q : Parameter F M) : Bool :=
  if useIntegerSort value ps then decide (number value ps p < number value ps q)
  else if byProperty ps then (key value ps p).lt (key value ps q)
  else decide (text value ps p < text value ps q)

theorem asInteger_of_kind {v : Value F} (hv : v.kind = .integer) : ∃ i, v.asInteger = some i := by
  cases v <;> first | exact ⟨_, rfl⟩ | cases hv

theorem sorter_eq (ascending : Bool) (h : byProperty ps → ∀ p ∈ ps, p.machine.isSome)
    {p q : Parameter F M} (hp : p ∈ ps) (hq : q ∈ ps) :
    sorter value ascending ps p q = directed ascending (less value ps) p q := by
  unfold sorter
  cases hpro : byProperty ps with
  | true =>
    obtain ⟨x, hx⟩ := isSome_iff_exists.mp (h hpro p hp)
    obtain ⟨y, hy⟩ := isSome_iff_exists.mp (h hpro q hq)
    cases hint : useIntegerSort value ps with
    | true =>
      have hall := hint
      simp only [useIntegerSort, hpro, if_true, List.all_eq_true] at hall
      obtain ⟨i, hi⟩ := isSome_iff_exists.mp (by simpa [hx] using hall p hp)
      obtain ⟨j, hj⟩ := isSome_iff_exists.mp (by simpa [hy] using hall q hq)
      simp [propertyValueNumericSorter, withMachines, hx, hy, hi, hj, directed, less, hint, number,
        key, hpro, Int64.lt_iff_toInt_lt]
    | false =>
      simp [propertyValueStringSorter, withMachines, hx, hy, directed, less, hint, key, hpro]
  | false =>
    cases hint : useIntegerSort value ps with
    | true =>
      have hall := hint
      simp only [useIntegerSort, hpro, Bool.false_eq_true, if_false, List.all_eq_true,
        beq_iff_eq] at hall
      obtain ⟨i, hi⟩ := asInteger_of_kind (hall p hp)
      obtain ⟨j, hj⟩ := asInteger_of_kind (hall q hq)
      simp [numericValueSorter, hall p hp, hall q hq, hi, hj, directed, less, hint, number, key,
        hpro, Int64.lt_iff_toInt_lt]
    | false => simp [stringValueSorter, directed, less, hint, text, key, hpro]

variable {value ps}

theorem sorts_directed {α : Type} {l : List α} {less le : α → α → Prop} (ascending : Bool) :
    Sorts l (directed ascending less) (directed ascending le) ↔ Sorts l less le := by
  cases ascending with
  | true => exact Iff.rfl
  | false => exact ⟨Sorts.swap, Sorts.swap⟩

/-- Where the texts of two keys differ, `<` compares the keys like them, and keys with the same
text by a strict weak order. -/
def ComparedAsTexts (value : M → Value F) (ps : List (Parameter F M)) : Prop :=
  Refines (fun p q : {p // p ∈ ps} => (key value ps p.1).lt (key value ps q.1) = true)
    fun p => text value ps p.1

theorem useIntegerSort_of_allIntegers (h : allIntegers value ps = true) :
    useIntegerSort value ps = true := by
  unfold useIntegerSort
  simp only [allIntegers, key, List.all_eq_true, beq_iff_eq] at h
  split_ifs with hpro
  · refine List.all_eq_true.mpr fun p hp => ?_
    have hkin := h p hp
    cases hx : p.machine with
    | none => rfl
    | some x =>
      rw [if_pos hpro, hx] at hkin
      exact isSome_iff_exists.mpr (asInteger_of_kind hkin)
  · simpa [hpro] using h

theorem allIntegers_of_not_byProperty (hpro : byProperty ps = false) :
    allIntegers value ps = useIntegerSort value ps := by
  simp [allIntegers, useIntegerSort, key, hpro]

/-- What the values of the property have to satisfy, unless they are all integers. -/
structure TextsSorted (value : M → Value F) (ps : List (Parameter F M)) : Prop where
  numbers : useIntegerSort value ps = true → ∀ p ∈ ps, ∀ q ∈ ps,
    text value ps p < text value ps q → number value ps p < number value ps q
  texts : useIntegerSort value ps = false → ComparedAsTexts value ps

theorem sorts_less_iff : Sorts ps.attach (fun p q => less value ps p.1 q.1 = true)
      (fun p q => InOrder value ps p.1 q.1) ↔
    (byProperty ps → allIntegers value ps = false → TextsSorted value ps) := by
  unfold less InOrder
  cases hall : allIntegers value ps with
  | true =>
    rw [useIntegerSort_of_allIntegers hall]
    simpa using @sorts_key _ ℤ _ (fun p => number value ps p.1) ps.attach
  | false =>
    cases hpro : byProperty ps with
    | true =>
      cases hint : useIntegerSort value ps with
      | true =>
        have hiff : TextsSorted value ps ↔ ∀ p q : {p // p ∈ ps}, text value ps p.1 <
            text value ps q.1 → number value ps p.1 < number value ps q.1 :=
          ⟨fun h p q => h.numbers hint p.1 p.2 q.1 q.2,
            fun h => ⟨fun _ p hp q hq => h ⟨p, hp⟩ ⟨q, hq⟩, by simp [hint]⟩⟩
        simpa [hiff] using @sorts_number_iff {p // p ∈ ps} String ps.attach _
          (fun p => text value ps p.1) ℤ _ (fun p => number value ps p.1) ps.mem_attach
      | false =>
        have hiff : TextsSorted value ps ↔ ComparedAsTexts value ps :=
          ⟨fun h => h.texts hint, fun h => ⟨by simp [hint], fun _ => h⟩⟩
        simpa [hiff, ComparedAsTexts] using sorts_iff ps.mem_attach
    | false =>
      rw [← allIntegers_of_not_byProperty hpro, hall]
      simpa using @sorts_key _ String _ (fun p => text value ps p.1) ps.attach

theorem sorter_of_machine_none (hpro : byProperty ps) (ascending : Bool) {p : Parameter F M}
    (hp : p.machine = none) (q : Parameter F M) : sorter value ascending ps p q = true := by
  unfold sorter
  rw [if_pos hpro]
  split <;> simp [propertyValueNumericSorter, propertyValueStringSorter, withMachines, hp]

/-- The comparison is a strict weak order and sorts the items by their keys exactly if, where
they are sorted by a property, each has a machine, and values of the property that are not all
integers are compared like their texts: as the integers they are read as, if that is possible for
all of them, and else by `<`. -/
theorem sorts_run_iff (value : M → Value F) (ascending : Bool) (ps : List (Parameter F M)) :
    (∀ r ∈ (run value ascending (some (true, ps))).2, Sorts ps.attach (fun p q => r p.1 q.1 = true)
        (directed ascending fun p q => InOrder value ps p.1 q.1)) ↔
    (byProperty ps → (∀ p ∈ ps, p.machine.isSome) ∧
      (allIntegers value ps = false → TextsSorted value ps)) := by
  have heq (h : byProperty ps → ∀ p ∈ ps, p.machine.isSome) :
      (fun p q : {p // p ∈ ps} => sorter value ascending ps p.1 q.1 = true) =
        directed ascending fun p q => less value ps p.1 q.1 = true := by
    funext p q
    rw [sorter_eq value ps ascending h p.2 q.2]
    cases ascending <;> rfl
  cases ps with
  | nil => simp [run, byProperty]
  | cons p₀ ps =>
    simp only [run, mem_def, some.injEq, forall_eq']
    constructor
    · intro h hpro
      have hmac : ∀ p ∈ p₀ :: ps, p.machine.isSome := by
        intro p hp
        by_contra hnon
        exact h.1.irrefl ⟨p, hp⟩ (sorter_of_machine_none hpro ascending (by simpa using hnon) p)
      rw [heq fun _ => hmac, sorts_directed, sorts_less_iff] at h
      exact ⟨hmac, h hpro⟩
    · intro h
      rw [heq fun hpro => (h hpro).1, sorts_directed, sorts_less_iff]
      exact fun hpro => (h hpro).2

/-- Of two machines with the properties 5 and `"low"` each one is less than the other. -/
theorem mixed_properties_unordered :
    let items : List (Parameter ℚ ℕ) := [⟨.symbol "a" none, "a", some 0⟩,
      ⟨.symbol "b" none, "b", some 1⟩]
    let value : ℕ → Value ℚ := fun x => if x = 0 then .integer 5 else .string "low"
    ¬∀ r ∈ (run value true (some (true, items))).2, Sorts items.attach (fun p q => r p.1 q.1 = true)
        (directed true fun p q => InOrder value items p.1 q.1) := by
  intro items value h
  have hord := (h _ rfl).1
  have hp : (⟨.symbol "a" none, "a", some 0⟩ : Parameter ℚ ℕ) ∈ items := List.mem_cons_self
  have hq : (⟨.symbol "b" none, "b", some 1⟩ : Parameter ℚ ℕ) ∈ items :=
    List.mem_cons_of_mem _ List.mem_cons_self
  exact hord.irrefl ⟨_, hp⟩ (hord.trans ⟨_, hp⟩ ⟨_, hq⟩ ⟨_, hp⟩ (by dsimp only; decide)
    (by dsimp only; decide))

end Clockwork.SortList
