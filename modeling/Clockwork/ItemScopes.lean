import Clockwork.SetOperations

namespace Clockwork.SetOperations

open List

open Lookup (sValue)

variable {F M : Type}

@[ext] structure Scope (F M : Type) where
  locals : List (Parameter F M)
  localisedNames : String → Option M

@[ext] structure World (F M : Type) where
  items : M → List (Item F M)
  scopes : M → Scope F M

def itemLocal (a : Item F M) : Parameter F M :=
  ⟨.symbol "ITEM" (some "ITEM"), sValue a.val, a.cachedMachine⟩

/-- The item becomes the local at an index. It is pushed first if it has to be added. -/
def bindLocal (locals : List (Parameter F M)) (index : ℕ) (addItem : Bool) (a : Item F M) :
    List (Parameter F M) :=
  (if addItem then locals ++ [⟨a.val, "", none⟩] else locals).set index (itemLocal a)

structure IndexTracker where
  addItem : Bool
  keepItem : Bool
  index : ℕ

section Tracking

variable [Double F]

def isItem (p : Parameter F M) : Bool := p.val.asString = "ITEM"

variable (locals : List (Parameter F M))

def indexTracker : IndexTracker where
  addItem := !decide (locals.findIdx isItem < locals.length)
  keepItem := decide (locals.findIdx isItem < locals.length)
  index := locals.findIdx isItem

def unbindLocal (t : IndexTracker) (addItem : Bool) (locals : List (Parameter F M)) :
    List (Parameter F M) :=
  if addItem = false ∧ t.keepItem = false ∧ locals.length ≠ 0 then locals.eraseIdx t.index
  else locals

def restored (last : Option (Item F M)) : List (Parameter F M) :=
  match last with
  | some a =>
    if (indexTracker locals).keepItem then locals.set (indexTracker locals).index (itemLocal a)
    else locals
  | none => locals

def Keeps (a : Item F M) : Prop :=
  ∀ p, locals.find? isItem = some p → p = itemLocal a

/-- The locals while items are bound: `last` is in place of an `ITEM` that was there, or
`n` locals were pushed. -/
def Bound (n : ℕ) (last : Option (Item F M)) (current : List (Parameter F M)) : Prop :=
  if (indexTracker locals).keepItem then current = restored locals last
  else ∃ pushed, pushed.length = n ∧ current = locals ++ pushed

variable {locals current : List (Parameter F M)} {n : ℕ} {last : Option (Item F M)}

theorem index_of_not_keep (h : (indexTracker locals).keepItem = false) :
    (indexTracker locals).index = locals.length := by
  have hle : locals.findIdx isItem ≤ locals.length := findIdx_le_length
  have hge : ¬locals.findIdx isItem < locals.length := by simpa [indexTracker] using h
  show locals.findIdx isItem = locals.length
  omega

theorem bindLocal_bindLocal (a b : Item F M) : bindLocal
        (bindLocal locals (indexTracker locals).index (indexTracker locals).addItem a)
        (indexTracker locals).index false b =
      bindLocal locals (indexTracker locals).index (indexTracker locals).addItem b := by
  have hadd : (indexTracker locals).addItem = !(indexTracker locals).keepItem := rfl
  rw [hadd]
  cases hkee : (indexTracker locals).keepItem with
  | true => simp [bindLocal]
  | false =>
    rw [index_of_not_keep hkee]
    simp [bindLocal, set_append_right]

theorem bound_self (h : (indexTracker locals).keepItem = false → n = 0) :
    Bound locals n none locals := by
  unfold Bound
  split_ifs with hkee
  · rfl
  · exact ⟨[], (h (by simpa using hkee)).symm, (append_nil locals).symm⟩

theorem Bound.bind (h : Bound locals n last current) {addItem : Bool}
    (hadd : addItem = true → (indexTracker locals).keepItem = false) (a : Item F M) :
    Bound locals (if addItem then n + 1 else n) (some a)
      (bindLocal current (indexTracker locals).index addItem a) := by
  unfold Bound at h ⊢
  cases hkee : (indexTracker locals).keepItem with
  | true =>
    have hold : addItem = false := by
      cases addItem with
      | false => rfl
      | true => simpa [hkee] using hadd rfl
    rw [if_pos hkee] at h
    rw [h, hold, bindLocal]
    cases last with
    | none => simp [restored, hkee]
    | some b => simp [restored, hkee]
  | false =>
    rw [hkee] at h
    obtain ⟨pushed, hlen, rfl⟩ := h
    rw [index_of_not_keep hkee, bindLocal]
    cases addItem with
    | false =>
      exact ⟨pushed.set 0 (itemLocal a), by simpa using hlen, by simp [set_append_right]⟩
    | true =>
      let new : Parameter F M := ⟨a.val, "", none⟩
      refine ⟨(pushed ++ [new]).set 0 (itemLocal a), ?_, ?_⟩
      · simpa using hlen
      · simp [new, set_append_right]

theorem Bound.unbind {addItem : Bool} (h : Bound locals ((!addItem).toNat + n) last current) :
    Bound locals n last (unbindLocal (indexTracker locals) addItem current) := by
  unfold Bound at h ⊢
  unfold unbindLocal
  cases hkee : (indexTracker locals).keepItem with
  | true =>
    rw [hkee] at h
    simpa using h
  | false =>
    rw [hkee] at h
    obtain ⟨pushed, hlen, rfl⟩ := h
    cases addItem with
    | true => exact ⟨pushed, by simpa using hlen, by simp⟩
    | false =>
      rw [Bool.not_false, Bool.toNat_true] at hlen
      cases pushed with
      | nil =>
        rw [length_nil] at hlen
        omega
      | cons p pushed =>
        rw [length_cons] at hlen
        refine ⟨pushed, by omega, ?_⟩
        simp [index_of_not_keep hkee, eraseIdx_append_of_length_le]

theorem Bound.eq_restored (h : Bound locals 0 last current) : current = restored locals last := by
  unfold Bound at h
  split_ifs at h with hkee
  · exact h
  · obtain ⟨pushed, hlen, rfl⟩ := h
    obtain rfl := length_eq_zero_iff.mp hlen
    cases last with
    | none => simp [restored]
    | some a => simp [restored, hkee]

theorem restored_eq_self_iff {a : Item F M} :
    restored locals (some a) = locals ↔ Keeps locals a := by
  unfold Keeps
  rw [find?_eq_getElem?_findIdx, restored]
  by_cases hi : locals.findIdx isItem < locals.length
  · have hkee : (indexTracker locals).keepItem = true := decide_eq_true hi
    have hind : (indexTracker locals).index = locals.findIdx isItem := rfl
    rw [if_pos hkee, hind, getElem?_eq_getElem hi]
    constructor
    · intro h p hp
      have hget := congrArg (fun ls => ls[locals.findIdx isItem]?) h
      simp only [getElem?_set_self hi, getElem?_eq_getElem hi, hp] at hget
      exact (Option.some.inj hget).symm
    · intro h
      rw [← h _ rfl, set_getElem_self]
  · have hkee : ¬(indexTracker locals).keepItem = true := by simpa [indexTracker] using hi
    rw [if_neg hkee, getElem?_eq_none (by omega)]
    simp

end Tracking

def plainWorld (a b d : List (Item ℚ String)) : World ℚ String :=
  ⟨threeLists a b d, fun _ => ⟨[], fun _ => none⟩⟩

end Clockwork.SetOperations
