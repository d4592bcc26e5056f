import Mathlib.Logic.Function.Basic

namespace Writes

open List

variable {κ β : Type*} [DecidableEq κ]

def write (s : κ → β) (c : κ × β) : κ → β := Function.update s c.1 c.2

def replay (s : κ → β) (cs : List (κ × β)) : κ → β := cs.foldl write s

def last (k : κ) : List (κ × β) → Option β
  | [] => none
  | c :: cs => (last k cs).or (if c.1 = k then some c.2 else none)

variable (s : κ → β)

theorem replay_append (cs ds : List (κ × β)) : replay s (cs ++ ds) = replay (replay s cs) ds :=
  foldl_append

theorem write_apply (c : κ × β) (k : κ) :
    write s c k = (if c.1 = k then some c.2 else none).getD (s k) := by
  unfold write
  by_cases h : c.1 = k
  · subst h
    simp
  · rw [if_neg h, Function.update_of_ne (Ne.symm h)]
    rfl

theorem replay_apply (cs : List (κ × β)) (k : κ) : replay s cs k = (last k cs).getD (s k) := by
  induction cs generalizing s with
  | nil => rfl
  | cons c cs ih =>
    show replay (write s c) cs k = _
    rw [ih, write_apply, last]
    cases last k cs <;> rfl

theorem last_append (k : κ) (cs ds : List (κ × β)) :
    last k (cs ++ ds) = (last k ds).or (last k cs) := by
  induction cs with
  | nil => simp [last]
  | cons c cs ih => rw [cons_append, last, ih, last, Option.or_assoc]

theorem last_eq_none {k : κ} {cs : List (κ × β)} (h : ∀ c ∈ cs, c.1 ≠ k) : last k cs = none := by
  induction cs with
  | nil => rfl
  | cons c cs ih =>
    rw [last, ih fun d hd => h d (mem_cons_of_mem c hd), if_neg (h c mem_cons_self)]
    rfl

/-- If each step overwrites what the one before did, only the last one is left. -/
theorem foldl_of_overwrite {σ α : Type*} {f : σ → α → σ} (h : ∀ s a b, f (f s a) b = f s b)
    (s : σ) (xs : List α) : xs.foldl f s = xs.getLast?.elim s (f s) := by
  induction xs generalizing s with
  | nil => rfl
  | cons x xs ih =>
    rw [foldl_cons, ih]
    cases hlas : xs.getLast? with
    | none =>
      obtain rfl := getLast?_eq_none_iff.mp hlas
      rfl
    | some y =>
      rw [getLast?_cons, hlas]
      exact h s x y

end Writes
