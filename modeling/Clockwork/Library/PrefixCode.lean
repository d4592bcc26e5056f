import Mathlib.Tactic.Common

namespace PrefixCode

open Option

inductive Tree (O A : Type*) where
  | leaf (a : A)
  | node (o : O) (first second : Tree O A)

inductive Symbol (O A : Type*) where
  | op (o : O)
  | leaf (a : A)

/-- What leaves and operators do, in a state that both can change. -/
structure Semantics (O A V R σ : Type*) where
  leaf : A → σ → Option (V × σ)
  /-- an operator with its first operand: the value of the operation, or what is kept for the
  second operand -/
  first : O → V → σ → Option ((V ⊕ R) × σ)
  second : O → R → V → σ → Option (V × σ)

variable {O A V R σ : Type*}

namespace Tree

def size : Tree O A → ℕ
  | .leaf _ => 1
  | .node _ f g => f.size + g.size + 1

def code : Tree O A → List (Symbol O A) → List (Symbol O A)
  | .leaf a, st => .leaf a :: st
  | .node o f g, st => .op o :: f.code (g.code st)

def codes (l : List (Tree O A)) : List (Symbol O A) := l.foldr code []

theorem length_code (t : Tree O A) (st : List (Symbol O A)) :
    (t.code st).length = t.size + st.length := by
  induction t generalizing st with
  | leaf a => simp [code, size, Nat.add_comm]
  | node o f g ihf ihg =>
    rw [code, size, List.length_cons, ihf, ihg]
    omega

theorem size_pos (t : Tree O A) : 0 < t.size := by
  cases t with
  | leaf a => exact Nat.one_pos
  | node o f g => exact Nat.succ_pos _

end Tree

namespace Semantics

variable (e : Semantics O A V R σ)

/-- Reads an operation or a leaf: its value and what is left of the list. -/
def run : ℕ → List (Symbol O A) → σ → Option (V × List (Symbol O A) × σ)
  | 0, _, _ => none
  | _ + 1, [], _ => none
  | _ + 1, .leaf a :: st, s => (e.leaf a s).map fun x => (x.1, st, x.2)
  | n + 1, .op o :: st, s =>
    (run n st s).bind fun b =>
      (e.first o b.1 b.2.2).bind fun x =>
        match x.1 with
        | .inl w => some (w, b.2.1, x.2)
        | .inr r =>
          (run n b.2.1 x.2).bind fun a =>
            (e.second o r a.1 a.2.2).map fun y => (y.1, a.2.1, y.2)

def value : Tree O A → σ → Option (V × Bool × σ)
  | .leaf a, s => (e.leaf a s).map fun x => (x.1, false, x.2)
  | .node o f g, s =>
    (value f s).bind fun b =>
      (e.first o b.1 b.2.2).bind fun x =>
        match x.1 with
        | .inl w => some (w, true, x.2)
        | .inr r =>
          (value g x.2).bind fun a =>
            (e.second o r a.1 a.2.2).map fun y => (y.1, b.2.1 || a.2.1, y.2)

variable {e} {s s' : σ} {n : ℕ}

theorem run_op_cases {o : O} {st st' : List (Symbol O A)} {v : V}
    (h : e.run (n + 1) (.op o :: st) s = some (v, st', s')) :
    ∃ b st₁ s₁, e.run n st s = some (b, st₁, s₁) ∧ (e.first o b s₁ = some (.inl v, s') ∧ st' = st₁ ∨
        ∃ r s₂ a s₃, e.first o b s₁ = some (.inr r, s₂) ∧ e.run n st₁ s₂ = some (a, st', s₃) ∧
          e.second o r a s₃ = some (v, s')) := by
  rw [run] at h
  obtain ⟨⟨b, st₁, s₁⟩, hb, h⟩ := bind_eq_some_iff.mp h
  obtain ⟨⟨x, s₂⟩, hx, h⟩ := bind_eq_some_iff.mp h
  refine ⟨b, st₁, s₁, hb, ?_⟩
  cases x with
  | inl w =>
    obtain ⟨rfl, rfl, rfl⟩ : w = v ∧ st₁ = st' ∧ s₂ = s' := by simpa using h
    exact .inl ⟨hx, rfl⟩
  | inr r =>
    obtain ⟨⟨a, st₂, s₃⟩, ha, h⟩ := bind_eq_some_iff.mp h
    obtain ⟨⟨y, s₄⟩, hy, h⟩ := map_eq_some_iff.mp h
    obtain ⟨rfl, rfl, rfl⟩ : y = v ∧ st₂ = st' ∧ s₄ = s' := by simpa using h
    exact .inr ⟨r, s₂, a, s₃, hx, ha, hy⟩

theorem value_node_cases {o : O} {f g : Tree O A} {v : V} {stopped : Bool}
    (h : e.value (.node o f g) s = some (v, stopped, s')) :
    ∃ b k s₁, e.value f s = some (b, k, s₁) ∧ (e.first o b s₁ = some (.inl v, s') ∧ stopped = true ∨
        ∃ r s₂ a k' s₃, e.first o b s₁ = some (.inr r, s₂) ∧
          e.value g s₂ = some (a, k', s₃) ∧ e.second o r a s₃ = some (v, s') ∧
            stopped = (k || k')) := by
  rw [value] at h
  obtain ⟨⟨b, k, s₁⟩, hb, h⟩ := bind_eq_some_iff.mp h
  obtain ⟨⟨x, s₂⟩, hx, h⟩ := bind_eq_some_iff.mp h
  refine ⟨b, k, s₁, hb, ?_⟩
  cases x with
  | inl w =>
    obtain ⟨rfl, rfl, rfl⟩ : w = v ∧ true = stopped ∧ s₂ = s' := by simpa using h
    exact .inl ⟨hx, rfl⟩
  | inr r =>
    obtain ⟨⟨a, k', s₃⟩, ha, h⟩ := bind_eq_some_iff.mp h
    obtain ⟨⟨y, s₄⟩, hy, h⟩ := map_eq_some_iff.mp h
    obtain ⟨rfl, rfl, rfl⟩ : y = v ∧ (k || k') = stopped ∧ s₄ = s' := by simpa using h
    exact .inr ⟨r, s₂, a, k', s₃, hx, ha, hy, rfl⟩

open PrefixCode.Tree

/-- If no operator stops, the run reads the tree and computes its value. -/
theorem run_code_of_value {t : Tree O A} (hn : t.size ≤ n) {v : V}
    (h : e.value t s = some (v, false, s')) (st : List (Symbol O A)) :
    e.run n (t.code st) s = some (v, st, s') := by
  induction t generalizing n s s' v st with
  | leaf a =>
    obtain ⟨n, rfl⟩ : ∃ k, n = k + 1 := ⟨n - 1, by have : 1 ≤ n := hn; omega⟩
    obtain ⟨⟨w, s₁⟩, hlea, heq⟩ := map_eq_some_iff.mp h
    obtain ⟨rfl, rfl⟩ : w = v ∧ s₁ = s' := by simpa using heq
    rw [code, run, hlea, map_some]
  | node o f g ihf ihg =>
    rw [size] at hn
    obtain ⟨n, rfl⟩ : ∃ k, n = k + 1 := ⟨n - 1, by omega⟩
    obtain ⟨b, k, s₁, hf, ⟨-, hsto⟩ | ⟨r, s₂, a, k', s₃, hfir, hg, hsec, hsto⟩⟩ :=
      value_node_cases h
    · cases hsto
    · obtain ⟨rfl, rfl⟩ : k = false ∧ k' = false := by simpa using hsto.symm
      rw [code, run, ihf (by omega) hf, bind_some, hfir, bind_some]
      simp only
      rw [ihg (by omega) hg, bind_some, hsec, map_some]

variable {st : List (Symbol O A)}

theorem exists_codes_of_run {l : List (Tree O A)} {v : V}
    (h : e.run n (codes l) s = some (v, st, s')) :
    ∃ us, st = codes us ∧ l.length ≤ us.length + 1 := by
  induction n generalizing l s s' v st with
  | zero => cases h
  | succ n ih =>
    cases l with
    | nil => cases h
    | cons t l =>
      cases t with
      | leaf a =>
        obtain ⟨⟨w, s₁⟩, -, heq⟩ := map_eq_some_iff.mp h
        obtain ⟨-, hst, -⟩ : w = v ∧ codes l = st ∧ s₁ = s' := by
          simpa [codes] using heq
        exact ⟨l, hst.symm, Nat.le_refl _⟩
      | node o f g =>
        obtain ⟨b, st₁, s₁, hb, ⟨-, rfl⟩ | ⟨r, s₂, a, s₃, -, ha, -⟩⟩ := run_op_cases h
        all_goals obtain ⟨us, rfl, hus⟩ := ih (l := f :: g :: l) hb
        · refine ⟨us, rfl, ?_⟩
          simp only [List.length_cons] at hus ⊢
          omega
        · obtain ⟨ws, rfl, hws⟩ := ih ha
          refine ⟨ws, rfl, ?_⟩
          simp only [List.length_cons] at hus ⊢
          omega

theorem exists_codes_of_stopped {t : Tree O A} (hn : t.size ≤ n) {s s₁ s' : σ} {v w : V}
    {l : List (Tree O A)} (hval : e.value t s = some (w, true, s₁))
    (h : e.run n (codes (t :: l)) s = some (v, st, s')) :
    ∃ us, st = codes us ∧ l.length < us.length := by
  induction t generalizing n s s₁ s' v w l st with
  | leaf a =>
    obtain ⟨x, -, heq⟩ := map_eq_some_iff.mp hval
    simp at heq
  | node o f g ihf ihg =>
    rw [size] at hn
    obtain ⟨n, rfl⟩ : ∃ k, n = k + 1 := ⟨n - 1, by omega⟩
    obtain ⟨b, k, s₂, hf, hres⟩ := value_node_cases hval
    obtain ⟨b', st₁, s₃, hb, hrun⟩ := run_op_cases h
    cases k with
    | true =>
      obtain ⟨us, rfl, hus⟩ := ihf (l := g :: l) (by omega) hf hb
      rw [List.length_cons] at hus
      rcases hrun with ⟨-, rfl⟩ | ⟨r, s₄, a, s₅, -, ha, -⟩
      · exact ⟨us, rfl, by omega⟩
      · obtain ⟨ws, rfl, hws⟩ := exists_codes_of_run ha
        exact ⟨ws, rfl, by omega⟩
    | false =>
      have hrea := run_code_of_value (n := n) (by omega) hf (codes (g :: l))
      obtain ⟨rfl, rfl, rfl⟩ : b = b' ∧ codes (g :: l) = st₁ ∧ s₂ = s₃ := by
        simpa using hrea.symm.trans hb
      rcases hrun with ⟨hsto, rfl⟩ | ⟨r, s₄, a, s₅, hgo, ha, -⟩
      · exact ⟨g :: l, rfl, by simp⟩
      · rcases hres with ⟨hsto, -⟩ | ⟨r', s₆, a', k', s₇, hgo', hg, -, hk⟩
        · rw [hsto] at hgo
          simp at hgo
        · obtain ⟨rfl, rfl⟩ : r' = r ∧ s₆ = s₄ := by simpa using hgo'.symm.trans hgo
          obtain rfl : k' = true := by simpa using hk.symm
          exact ihg (by omega) hg ha

/-- The run reads the whole tree and computes its value exactly if no operator stops. -/
theorem run_code_iff (t : Tree O A) (s : σ) : (∃ v stopped s', e.value t s = some (v, stopped, s') ∧
      e.run (t.code []).length (t.code []) s = some (v, [], s')) ↔
      ∃ v s', e.value t s = some (v, false, s') := by
  have hleg : (t.code []).length = t.size := by simp [length_code]
  constructor
  · rintro ⟨v, stopped, s', hval, hrun⟩
    cases stopped with
    | false => exact ⟨v, s', hval⟩
    | true =>
      obtain ⟨us, hus, hlt⟩ :=
        exists_codes_of_stopped (l := []) (Nat.le_of_eq hleg.symm) hval hrun
      cases us with
      | nil => exact absurd hlt (Nat.lt_irrefl _)
      | cons u us =>
        have hlen := congrArg List.length hus
        rw [codes, List.foldr_cons, length_code] at hlen
        have := u.size_pos
        simp only [List.length_nil] at hlen
        omega
  · rintro ⟨v, s', hval⟩
    exact ⟨v, false, s', hval, run_code_of_value (Nat.le_of_eq hleg.symm) hval []⟩

end Semantics

end PrefixCode
