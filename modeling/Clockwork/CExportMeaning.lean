import Clockwork.CExport
import Clockwork.LongText

namespace Clockwork.CExport

open List Option CExpression Expression Value

open CExpression (Expr Operator Path literal ofBool)

variable {F M : Type}

inductive Means : Value F → Int64 → Prop
  | integer (n : Int64) : Means (.integer n) n
  | bool (b : Bool) : Means (.bool b) (ofBool b)

theorem means_integer_iff {i n : Int64} : Means (.integer i : Value F) n ↔ n = i :=
  ⟨fun h => by cases h; rfl, fun h => h ▸ .integer i⟩

theorem means_bool_iff {b : Bool} {n : Int64} : Means (.bool b : Value F) n ↔ n = ofBool b :=
  ⟨fun h => by cases h; rfl, fun h => h ▸ .bool b⟩

theorem Means.iff_eq {a : Value F} {x n : Int64} (h : Means a x) : Means a n ↔ n = x := by
  cases h with
  | integer x => exact means_integer_iff
  | bool b => exact means_bool_iff

theorem Means.not_eq_false_iff {v : Value F} {n : Int64} (h : Means v n) :
    v.not = false ↔ n ≠ 0 := by
  cases h with
  | integer n => simp [Value.not]
  | bool b => cases b <;> simp [Value.not, ofBool]

theorem Means.mixed_cases {a b : Value F} {x y : Int64} (ha : Means a x) (hb : Means b y)
    (hk : a.kind ≠ b.kind) :
    (∃ q, a = .integer x ∧ b = .bool q) ∨ ∃ p, a = .bool p ∧ x = ofBool p ∧ b = .integer y := by
  cases ha with
  | integer x =>
    cases hb with
    | integer y => exact absurd rfl hk
    | bool q => exact .inl ⟨q, rfl, rfl⟩
  | bool p =>
    cases hb with
    | integer y => exact .inr ⟨p, rfl, rfl, rfl⟩
    | bool q => exact absurd rfl hk

/-- When the stack machine computes `n` for an operator on operands of the kinds `k` and `k'` that
stand for `a` and `b`. Operands of different kinds are compared as unequal and without order, and
arithmetic keeps the left one. -/
def Fitting (o : Operator) (k k' : Kind) (a b n : Int64) : Prop :=
  match o with
  | .land => a = 0 ∨ k = k'
  | .lor => a ≠ 0 ∨ k = k'
  | .eq => k = k' ∨ n = 0
  | .ne => k = k' ∨ n = 1
  | .le | .ge => (k = .integer ∧ k' = .integer) ∨ n = 0
  | .lt | .gt => (k = .integer ∧ k' = .integer) ∨ n = 1
  | .add => (k = .integer ∧ k' = .integer) ∨ if k = k' then a = 0 ∨ b = 0 else n = a
  | .sub => (k = .integer ∧ k' = .integer) ∨ if k = k' then b = 0 else n = a
  | .mod => (k = .integer ∧ k' = .integer) ∨ if k = k' then a = 1 else n = a
  | .mul | .div | .bor | .bxor | .band => k = k' ∨ n = a

section Operators

variable [Double F] (regex : String → String → Bool) {limit : ℤ} {o : Operator}

theorem stackOp_integers (hlim : limit ≤ 9223372036854775808) {a b n : Int64}
    (h : o.apply limit a b = some n) :
    ∃ v, stackOp regex (predicateOperator o) (.integer a : Value F) (.integer b) = some v ∧
      Means v n := by
  cases o with
  | lor =>
    cases h
    refine ⟨.bool (a ≠ 0 ∨ b ≠ 0), ?_, .bool _⟩
    by_cases ha : a = 0 <;> simp [stackOp, predicateOperator, Value.or, Value.iValue?, ha]
  | land =>
    cases h
    refine ⟨.bool (a ≠ 0 ∧ b ≠ 0), ?_, .bool _⟩
    by_cases ha : a = 0 <;> simp [stackOp, predicateOperator, Value.and, Value.iValue?, ha]
  | bor | bxor | band =>
    cases h
    exact ⟨_, rfl, .integer _⟩
  | eq | ne | le | ge =>
    cases h
    exact ⟨_, rfl, .bool _⟩
  | lt =>
    -- `operator<` is the negation of `operator>=`
    cases h
    have hlt : (!decide (b ≤ a)) = decide (a < b) := by
      rw [← decide_not, decide_eq_decide, Int64.not_le]
    exact ⟨_, rfl, means_bool_iff.mpr (congrArg ofBool hlt.symm)⟩
  | gt =>
    cases h
    have hlt : (!decide (a ≤ b)) = decide (b < a) := by
      rw [← decide_not, decide_eq_decide, Int64.not_le]
    exact ⟨_, rfl, means_bool_iff.mpr (congrArg ofBool hlt.symm)⟩
  | add => exact ⟨_, rfl, means_integer_iff.mpr (apply_add h).symm⟩
  | sub => exact ⟨_, rfl, means_integer_iff.mpr (apply_sub h).symm⟩
  | mul => exact ⟨_, rfl, means_integer_iff.mpr (apply_mul h).symm⟩
  | div =>
    obtain ⟨hb, hmin, rfl⟩ := apply_div hlim h
    refine ⟨.integer (a / b), ?_, .integer _⟩
    by_cases ha : a = 0
    · simp [stackOp, predicateOperator, div, ha]
    · simp [stackOp, predicateOperator, div, divLong, ha, hb, hmin]
  | mod =>
    obtain ⟨hb, hmin, rfl⟩ := apply_mod hlim h
    refine ⟨.integer (a % b), ?_, .integer _⟩
    simp [stackOp, predicateOperator, mod, modLong, hb, hmin]

theorem stackOp_mixed_iff {a b : Value F} {x y n : Int64} (ha : Means a x) (hb : Means b y)
    (hk : a.kind ≠ b.kind) (h : o.apply limit x y = some n) :
    (∃ v, stackOp regex (predicateOperator o) a b = some v ∧ Means v n) ↔
      Fitting o a.kind b.kind x y n := by
  have hari : arithmetic o = true → stackOp regex (predicateOperator o) a b = some a := by
    intro ho
    rcases ha.mixed_cases hb hk with ⟨q, rfl, rfl⟩ | ⟨p, rfl, -, rfl⟩ <;>
      cases o <;> first | rfl | cases ho
  have hcom : (a.eq b = false ∧ a.ne b = true) ∧ a.ge b = false ∧ a.le b = false := by
    rcases ha.mixed_cases hb hk with ⟨q, rfl, rfl⟩ | ⟨p, rfl, -, rfl⟩
    · exact ⟨⟨rfl, rfl⟩, rfl, rfl⟩
    · exact ⟨⟨rfl, rfl⟩, rfl, rfl⟩
  have hlog : (a.and b = if x = 0 then some false else none) ∧
      a.or b = if x ≠ 0 then some true else none := by
    rcases ha.mixed_cases hb hk with ⟨q, rfl, rfl⟩ | ⟨p, rfl, rfl, rfl⟩
    · exact ⟨rfl, rfl⟩
    · cases p <;> exact ⟨rfl, rfl⟩
  have hint : ¬(a.kind = .integer ∧ b.kind = .integer) := fun h => hk (h.1.trans h.2.symm)
  cases o with
  | bor | bxor | band | mul | div | add | sub | mod =>
    rw [hari rfl]
    simp [Fitting, hk, hint, ha.iff_eq]
  | eq | ne =>
    simp [stackOp, predicateOperator, hcom, Fitting, hk, means_bool_iff, ofBool]
  | le | ge | lt | gt =>
    simp [stackOp, predicateOperator, lt, gt, hcom, Fitting, hint, means_bool_iff, ofBool]
  | land | lor =>
    cases h
    by_cases hx : x = 0 <;>
      simp [stackOp, predicateOperator, hlog, hx, Fitting, hk, means_bool_iff, ofBool]

def conditionResult (o : Operator) (p q : Bool) : Bool :=
  match o with
  | .lor | .bor | .add | .sub => p || q
  | .land | .band | .mul | .div => p && q
  | .bxor | .mod => xor p q
  | .eq => p == q
  | .ne => p != q
  | .le | .ge => false
  | .lt | .gt => true

theorem stackOp_bools (o : Operator) (p q : Bool) :
    stackOp regex (predicateOperator o) (.bool p : Value F) (.bool q) =
      some (.bool (conditionResult o p q)) := by
  cases o with
  | lor | land => cases p <;> rfl
  | _ => rfl

theorem stackOp_bools_iff (hlim : limit ≤ 9223372036854775808) {p q : Bool} {n : Int64}
    (h : o.apply limit (ofBool p) (ofBool q) = some n) :
    (∃ v, stackOp regex (predicateOperator o) (.bool p : Value F) (.bool q) = some v ∧ Means v n) ↔
      Fitting o .bool .bool (ofBool p) (ofBool q) n := by
  simp only [stackOp_bools, some.injEq, exists_eq_left', means_bool_iff]
  -- the two sides are compared for each of the operands
  cases o with
  | lor | land | bor | bxor | band | eq | ne =>
    cases h
    rw [Fitting]
    cases p <;> cases q <;> decide
  | le | ge | lt | gt => simp [conditionResult, Fitting, ofBool]
  | add =>
    rw [← apply_add h, Fitting]
    cases p <;> cases q <;> decide
  | sub =>
    rw [← apply_sub h, Fitting]
    cases p <;> cases q <;> decide
  | mul =>
    rw [← apply_mul h, Fitting]
    cases p <;> cases q <;> decide
  | div =>
    obtain ⟨-, -, rfl⟩ := apply_div hlim h
    rw [Fitting]
    cases p <;> cases q <;> decide
  | mod =>
    obtain ⟨hq, -, rfl⟩ := apply_mod hlim h
    rw [Fitting]
    cases p <;> cases q <;> first | decide | exact absurd rfl hq

theorem stackOp_fitting_iff (hlim : limit ≤ 9223372036854775808) {a b : Value F} {x y n : Int64}
    (ha : Means a x) (hb : Means b y) (h : o.apply limit x y = some n) :
    (∃ v, stackOp regex (predicateOperator o) a b = some v ∧ Means v n) ↔
      Fitting o a.kind b.kind x y n := by
  by_cases hk : a.kind = b.kind
  · cases ha with
    | integer x =>
      cases hb with
      | integer y =>
        refine iff_of_true (stackOp_integers regex hlim h) ?_
        cases o <;> simp [Fitting, kind]
      | bool q => cases hk
    | bool p =>
      cases hb with
      | integer y => cases hk
      | bool q => exact stackOp_bools_iff regex hlim h
  · exact stackOp_mixed_iff regex ha hb hk h

end Operators

def Expression.kind : Expression → Kind
  | .integer _ => .integer
  | .symbol _ => .integer
  | .binary l o _ => if arithmetic o then l.kind else .bool
  | .not _ => .bool
  | .bitNegate _ => .empty
  | .asInteger _ => .integer

inductive Plain : Value F → Prop
  | integer (i : Int64) : Plain (.integer i)
  | bool (b : Bool) : Plain (.bool b)
  | empty : Plain .empty

theorem kind_cases (e : Expression) : e.kind = .integer ∨ e.kind = .bool ∨ e.kind = .empty := by
  induction e with
  | binary l o r ihl ihr =>
    rw [Expression.kind]
    split
    · exact ihl
    · exact .inr (.inl rfl)
  | _ => simp [Expression.kind]

theorem plain_of_kind {e : Expression} {v : Value F} (h : v.kind = e.kind) : Plain v := by
  have hkin := kind_cases e
  rw [← h] at hkin
  cases v with
  | integer i => exact .integer i
  | bool b => exact .bool b
  | empty => exact .empty
  | _ => simp [Value.kind] at hkin

section Values

variable (m : Scope F M)

theorem stateComparison_of_ne {o : Operator} (ho : o ≠ .eq ∧ o ≠ .ne) (l r : Predicate (Value F)) :
    stateComparison m (predicateOperator o) l r = (false, false) := by
  have hop : ¬(predicateOperator o = .opEQ ∨ predicateOperator o = .opNE) := by
    cases o <;> first | decide | exact absurd rfl ho.1 | exact absurd rfl ho.2
  unfold stateComparison
  split
  · rw [if_neg hop]
  · rfl

theorem stateComparison_cases (op : PredicateOperator) (l r : Predicate (Value F)) :
    stateComparison m op l r = (false, false) ∨
      (∃ s t s' t', l = .leaf (.symbol s t) ∧ r = .leaf (.symbol s' t')) ∧
        (op = .opEQ ∨ op = .opNE) ∧
        (stateComparison m op l r = (true, false) ∨ stateComparison m op l r = (false, true)) := by
  unfold stateComparison
  split
  · next s t s' t' =>
    split_ifs with hop
    · split
      · next machine _ _ =>
        cases hsta : m.machineHasState machine s' with
        | false => exact .inl rfl
        | true => exact .inr ⟨⟨s, t, s', t', rfl, rfl⟩, hop, .inr rfl⟩
      · next machine _ _ =>
        cases hsta : m.machineHasState machine s with
        | false => exact .inl rfl
        | true => exact .inr ⟨⟨s, t, s', t', rfl, rfl⟩, hop, .inl rfl⟩
      · exact .inl rfl
    · exact .inl rfl
  · exact .inl rfl

variable {env : Path → Option Int64}

theorem Bound.strtol_eq {x : ExportState} {m : Scope F M} {s : String}
    (h : Bound x m env s) : strtol s = (0, false) := by
  have halp := h.symbol.1
  cases hs : s.toList with
  | nil =>
    rw [hs] at halp
    cases halp
  | cons c cs =>
    rw [hs, head?_cons] at halp
    have hnul : c ≠ '\x00' := by
      rintro rfl
      cases halp
    have htex : cStr s = c :: cs.takeWhile (· ≠ '\x00') := by
      rw [cStr, hs, takeWhile_cons, if_pos (decide_eq_true hnul)]
    exact strtol_of_isAlpha htex halp

theorem not_declared_empty {x : ExportState} (h : ∀ p, (env p).isSome → ∃ s, p = symbolPath x s) :
    ¬(Expr.paren (.path ⟨['e', 'm', 'p', 't', 'y'], []⟩)).Declared env := by
  intro hdec
  obtain ⟨s, hs⟩ := h _ (hdec _ mem_cons_self)
  unfold symbolPath at hs
  split_ifs at hs <;> cases hs

theorem symbols_subset {e q : Expression} (h : q ∈ e.subexpressions) : q.symbols ⊆ e.symbols := by
  induction e with
  | integer i | symbol s =>
    rw [mem_singleton.mp h]
    exact List.Subset.refl _
  | binary l o r ihl ihr =>
    rcases mem_cons.mp h with rfl | h
    · exact List.Subset.refl _
    · rcases mem_append.mp h with h | h
      · exact fun s hs => mem_append_left _ (ihl h hs)
      · exact fun s hs => mem_append_right _ (ihr h hs)
  | not e ih | bitNegate e ih | asInteger e ih =>
    rcases mem_cons.mp h with rfl | h
    · exact List.Subset.refl _
    · exact ih h

variable [Double F] (regex : String → String → Bool) {x : ExportState} {m : Scope F M}
  {env : Path → Option Int64}

variable {o : Operator} {e l r : Expression} {v a b : Value F} {limit : ℤ} {n : Int64}
  {s : String}

theorem stackValue_left (h : ∀ s ∈ e.symbols, Bound x m env s) (left : Bool) :
    stackValue regex m left false e.predicate = stackValue regex m true false e.predicate := by
  cases e with
  | symbol s =>
    obtain ⟨i, hi, -⟩ := (h s mem_cons_self).holds
    simp [predicate, stackValue, hi]
  | _ => rfl

theorem stackOp_integers_kind (ho : arithmetic o = true) {i j : Int64}
    (h : stackOp regex (predicateOperator o) (.integer i) (.integer j) = some v) :
    v.kind = .integer := by
  cases o with
  | div =>
    unfold predicateOperator stackOp div at h
    dsimp only at h
    split_ifs at h
    · cases h
      rfl
    · cases h
      rfl
    · obtain ⟨n, -, rfl⟩ := map_eq_some_iff.mp h
      rfl
  | mod =>
    unfold predicateOperator stackOp mod at h
    dsimp only at h
    split_ifs at h
    · cases h
      rfl
    · obtain ⟨n, -, rfl⟩ := map_eq_some_iff.mp h
      rfl
  | add | sub | mul | bor | bxor | band =>
    cases h
    rfl
  | _ => cases ho

theorem stackOp_kind (ho : arithmetic o = true) (ha : Plain a) (hb : Plain b)
    (h : stackOp regex (predicateOperator o) a b = some v) : v.kind = a.kind := by
  cases ha with
  | integer i =>
    cases hb with
    | integer j => exact stackOp_integers_kind regex ho h
    | bool q | empty => cases o <;> first | (cases h; rfl) | cases ho
  | bool p =>
    cases hb with
    | integer j | bool q | empty => cases o <;> first | (cases h; rfl) | cases ho
  | empty =>
    cases hb with
    | integer j | bool q | empty => cases o <;> first | (cases h; rfl) | cases ho

theorem stackOp_condition_kind (ho : ¬arithmetic o = true)
    (h : stackOp regex (predicateOperator o) a b = some v) : v.kind = .bool := by
  cases o with
  | lor | land =>
    obtain ⟨r, -, rfl⟩ := map_eq_some_iff.mp h
    rfl
  | eq | ne | lt | gt | le | ge =>
    cases h
    rfl
  | _ => exact absurd rfl ho

theorem stackValue_node (l : Expression) (o : Operator) (r : Expression) :
    stackValue regex m true false (binary l o r).predicate =
      let state := stateComparison m (predicateOperator o) l.predicate r.predicate
      (stackValue regex m false state.2 r.predicate).bind fun b =>
        (stackValue regex m true state.1 l.predicate).bind fun a =>
          stackOp regex (predicateOperator o) a b := rfl

theorem stackValue_binary (hr : ∀ s ∈ r.symbols, Bound x m env s)
    (hsta : stateComparison m (predicateOperator o) l.predicate r.predicate = (false, false)) :
    stackValue regex m true false (binary l o r).predicate =
      (stackValue regex m true false r.predicate).bind fun b =>
        (stackValue regex m true false l.predicate).bind fun a =>
          stackOp regex (predicateOperator o) a b := by
  rw [stackValue_node, hsta]
  simp only [stackValue_left regex hr false]

theorem kind_stackValue (h : ∀ s ∈ e.symbols, Bound x m env s)
    (hv : stackValue regex m true false e.predicate = some v) : v.kind = e.kind := by
  induction e generalizing v with
  | integer i =>
    cases hv
    rfl
  | symbol s =>
    obtain ⟨i, hi, -⟩ := (h s mem_cons_self).holds
    have hlea : stackValue regex m true false (Expression.symbol s).predicate =
        some (leafValue m true (.ofString s)) := rfl
    rw [hlea, hi, some.injEq] at hv
    rw [← hv]
    rfl
  | binary l o r ihl ihr =>
    obtain ⟨hl, hr⟩ := forall_mem_append.mp h
    rw [Expression.kind]
    split_ifs with ho
    · have hne : o ≠ .eq ∧ o ≠ .ne := by constructor <;> rintro rfl <;> cases ho
      have hnod := stackValue_binary regex hr (stateComparison_of_ne m hne l.predicate r.predicate)
      rw [hnod, bind_eq_some_iff] at hv
      obtain ⟨b, hb, hv⟩ := hv
      obtain ⟨a, ha, hv⟩ := bind_eq_some_iff.mp hv
      rw [← ihl hl ha]
      exact stackOp_kind regex ho (plain_of_kind (ihl hl ha)) (plain_of_kind (ihr hr hb)) hv
    · -- whatever the operands are, the result is a condition
      obtain ⟨b, -, hv⟩ := bind_eq_some_iff.mp hv
      obtain ⟨a, -, hv⟩ := bind_eq_some_iff.mp hv
      exact stackOp_condition_kind regex ho hv
  | not e ih =>
    obtain ⟨b, -, hv⟩ := bind_eq_some_iff.mp hv
    cases hv
    rfl
  | bitNegate e ih =>
    cases hv
    rfl
  | asInteger e ih =>
    obtain ⟨b, -, hv⟩ := bind_eq_some_iff.mp hv
    cases hv
    rfl

omit [Double F] in
theorem kind_of_condition (he : e.isArithmetic = false) : e.kind = .bool := by
  cases e with
  | binary l o r => rw [Expression.kind, if_neg (by rw [← Bool.not_eq_true] at he; exact he)]
  | not e => rfl
  | _ => cases he

theorem eval_condition (he : e.isArithmetic = false) (h : (e.cexpr x).eval limit env = some n) :
    ∃ r, n = ofBool r := by
  cases e with
  | not e =>
    obtain ⟨a, -, rfl⟩ := map_eq_some_iff.mp h
    exact ⟨_, rfl⟩
  | binary l o r =>
    obtain ⟨a, -, h⟩ := bind_eq_some_iff.mp h
    split_ifs at h with hski
    · cases h
      exact ⟨_, rfl⟩
    · obtain ⟨b, -, h⟩ := bind_eq_some_iff.mp h
      cases o with
      | lor | land | eq | ne | lt | gt | le | ge =>
        cases h
        exact ⟨_, rfl⟩
      | _ => cases he
  | _ => cases he

theorem Means.asInteger_eq (h : Means v n) : v.asInteger = some n := by
  cases h with
  | integer n => rfl
  | bool b => cases b <;> rfl

theorem Plain.means (hv : Plain v) (h : v.asInteger = some n) : Means v n := by
  cases hv with
  | integer i =>
    cases h
    exact .integer i
  | bool b =>
    cases h
    cases b
    · exact .bool false
    · exact .bool true
  | empty => cases h

def Reads (x : ExportState) (m : Scope F M) (limit : ℤ) (env : Path → Option Int64)
    (e : Expression) : Prop :=
  (e.cexpr x).Declared env ∧ ∀ n, (e.cexpr x).eval limit env = some n →
    ∃ v, stackValue regex m true false e.predicate = some v ∧ Means v n

theorem preserved_iff_reads (streamFloat : F → List Char) (limit : ℤ)
    (h : ∀ s ∈ e.symbols, Bound x m env s) :
    Preserved regex x streamFloat m limit env e ↔ Reads regex x m limit env e := by
  have hpar : parse (toC x streamFloat e.predicate) = some (e.cexpr x) := by
    rw [toC_predicate streamFloat h, (operand_cexpr h).parse_text]
  unfold Preserved Reads
  rw [hpar, evaluate_eq_stackValue]
  simp only [some.injEq, exists_eq_left']
  refine and_congr_right fun _ => forall₂_congr fun n hn => exists_congr fun v =>
    and_congr_right fun hv => ⟨?_, fun hmea => ⟨hmea.not_eq_false_iff, fun _ =>
      hmea.asInteger_eq⟩⟩
  rintro ⟨htru, hint⟩
  have hkin := kind_stackValue regex h hv
  cases he : e.isArithmetic with
  | true => exact (plain_of_kind hkin).means (hint he)
  | false =>
    obtain ⟨r, rfl⟩ := eval_condition he hn
    rw [kind_of_condition he] at hkin
    obtain ⟨b, rfl⟩ : ∃ b, v = .bool b := by
      cases v <;> first | exact ⟨_, rfl⟩ | cases hkin
    obtain rfl : b = r := by cases b <;> cases r <;> simp_all [Value.not, ofBool]
    exact .bool b

/-- The kinds of two operands. A symbol that is compared as the name of a state is a string. -/
def operandKinds (m : Scope F M) (l : Expression) (o : Operator) (r : Expression) : Kind × Kind :=
  let state := stateComparison m (predicateOperator o) l.predicate r.predicate
  (if state.1 then .string else l.kind, if state.2 then .string else r.kind)

/-- What makes the stack machine compute the C value at one node: it has no operator without left
operand; a right operand that C skips has some value; otherwise the operands fit. -/
def Fits (x : ExportState) (m : Scope F M) (limit : ℤ) (env : Path → Option Int64) :
    Expression → Prop
  | .integer _ => True
  | .symbol _ => True
  | .not _ => True
  | .bitNegate _ => False
  | .asInteger _ => False
  | .binary l o r => ∀ a, (l.cexpr x).eval limit env = some a →
    if o.skips a then (evaluate regex m r.predicate).isSome
    else ∀ b, (r.cexpr x).eval limit env = some b → ∀ n, o.apply limit a b = some n →
      Fitting o (operandKinds m l o r).1 (operandKinds m l o r).2 a b n

theorem stackOp_skips (ha : Means a n) (hski : o.skips n = true) :
    stackOp regex (predicateOperator o) a b = some (.bool (n ≠ 0)) := by
  cases o with
  | lor =>
    have hne : n ≠ 0 := by simpa [Operator.skips] using hski
    have hor : a.or b = some true := by
      cases ha with
      | integer n => simp [Value.or, hne]
      | bool p =>
        cases p
        · exact absurd rfl hne
        · rfl
    simp [stackOp, predicateOperator, hor, hne]
  | land =>
    have heq : n = 0 := by simpa [Operator.skips] using hski
    have hand : a.and b = some false := by
      cases ha with
      | integer n => simp [Value.and, heq]
      | bool p =>
        cases p
        · rfl
        · cases heq
    simp [stackOp, predicateOperator, hand, heq]
  | _ => cases hski

omit [Double F] in
theorem eq_symbol_of_predicate (h : ∀ s ∈ e.symbols, Bound x m env s) {t : TokenId}
    (he : e.predicate = (.leaf (.symbol s t) : Predicate (Value F))) : e = .symbol s := by
  cases e with
  | symbol s' =>
    rw [predicate, (h s' mem_cons_self).ofString_eq] at he
    cases he
    rfl
  | _ => cases he

theorem stackOp_text_iff (hs : strtol s = (0, false))
    (ho : predicateOperator o = .opEQ ∨ predicateOperator o = .opNE) (i a b n : Int64) :
    ((∃ v, stackOp regex (predicateOperator o) (.string s : Value F) (.integer i) = some v ∧
        Means v n) ↔ Fitting o .string .integer a b n) ∧
      ((∃ v, stackOp regex (predicateOperator o) (.integer i : Value F) (.string s) = some v ∧
        Means v n) ↔ Fitting o .integer .string a b n) := by
  have hnon : (string s : Value F).asInteger = none := by
    simp [Value.asInteger, Value.asIntegerInto, hs]
  have hlef : (string s : Value F).eq (.integer i) = false ∧
      (Value.string s : Value F).ne (.integer i) = true := by
    simp [Value.eq, Value.ne, Value.comparedAs, Value.kind, Value.mixedTypes, Value.numericTypes,
      hnon]
  have hrig : (integer i : Value F).eq (.string s) = false ∧
      (Value.integer i : Value F).ne (.string s) = true := by
    simp [Value.eq, Value.ne, Value.comparedAs, Value.kind, Value.mixedTypes, Value.numericTypes,
      hnon]
  cases o with
  | eq => simp [stackOp, predicateOperator, hlef, hrig, Fitting, means_bool_iff, ofBool]
  | ne => simp [stackOp, predicateOperator, hlef, hrig, Fitting, means_bool_iff, ofBool]
  | _ => exact absurd ho (by decide)

theorem Bound.stackValue_name (h : Bound x m env s) (left : Bool) :
    stackValue regex m left true (Expression.symbol s).predicate = some (.string s) := by
  rw [Expression.predicate, h.ofString_eq]
  rfl

theorem stackValue_integer {i : Int64} (h : ∀ left, leafValue m left (.ofString s) = .integer i)
    (left : Bool) :
    stackValue regex m left false (Expression.symbol s).predicate = some (.integer i) := by
  simp [Expression.predicate, stackValue, h]

theorem stackValue_fitting_iff (hlim : limit ≤ 9223372036854775808)
    (hl : ∀ s ∈ l.symbols, Bound x m env s) (hr : ∀ s ∈ r.symbols, Bound x m env s)
    {u v : Value F} {a b n : Int64} (hu : stackValue regex m true false l.predicate = some u)
    (ha : Means u a) (hv : stackValue regex m true false r.predicate = some v) (hb : Means v b)
    (hn : o.apply limit a b = some n) :
    (∃ w, stackValue regex m true false (Expression.binary l o r).predicate = some w ∧
        Means w n) ↔ Fitting o (operandKinds m l o r).1 (operandKinds m l o r).2 a b n := by
  unfold operandKinds
  rcases stateComparison_cases m (predicateOperator o) (l.predicate (F := F)) r.predicate with
    hsta | ⟨⟨s, t, s', t', hls, hrs⟩, ho, hsta⟩
  · rw [stackValue_binary regex hr hsta, hv, bind_some, hu, bind_some,
      stackOp_fitting_iff regex hlim ha hb hn, kind_stackValue regex hl hu,
      kind_stackValue regex hr hv]
    simp [hsta]
  · -- one of the two symbols is read as its name
    obtain rfl := eq_symbol_of_predicate hl hls
    obtain rfl := eq_symbol_of_predicate hr hrs
    have hs := hl s mem_cons_self
    have hs' := hr s' mem_cons_self
    obtain ⟨i, hi, -⟩ := hs.holds
    obtain ⟨j, hj, -⟩ := hs'.holds
    rw [stackValue_node]
    rcases hsta with hsta | hsta
    · simp only [hsta, hs.stackValue_name regex, stackValue_integer regex hj]
      exact (stackOp_text_iff regex hs.strtol_eq ho j a b n).1
    · simp only [hsta, hs'.stackValue_name regex, stackValue_integer regex hi]
      exact (stackOp_text_iff regex hs'.strtol_eq ho i a b n).2

theorem reads_binary_iff (hlim : limit ≤ 9223372036854775808) (o : Operator)
    (hl : ∀ s ∈ l.symbols, Bound x m env s) (hr : ∀ s ∈ r.symbols, Bound x m env s)
    (hlef : Reads regex x m limit env l) (hrig : Reads regex x m limit env r) :
    Reads regex x m limit env (.binary l o r) ↔ Fits regex x m limit env (.binary l o r) := by
  have hdec : ((binary l o r).cexpr x).Declared env := by
    intro p hp
    rcases mem_append.mp hp with hp | hp
    · exact hlef.1 p hp
    · exact hrig.1 p hp
  have heva : ((binary l o r).cexpr x).eval limit env =
      ((l.cexpr x).eval limit env).bind fun a => if o.skips a then some (ofBool (a ≠ 0))
        else ((r.cexpr x).eval limit env).bind (o.apply limit a) := rfl
  unfold Reads Fits
  rw [and_iff_right hdec, heva]
  cases ha : (l.cexpr x).eval limit env with
  | none => simp [ha]
  | some a =>
    obtain ⟨u, hu, hua⟩ := hlef.2 a ha
    simp only [ha, bind_some, some.injEq, forall_eq']
    by_cases hski : o.skips a = true
    · -- C does not evaluate the right operand, the stack machine does
      have hne : o ≠ .eq ∧ o ≠ .ne := by constructor <;> rintro rfl <;> cases hski
      simp only [hski, if_true, some.injEq, forall_eq']
      rw [stackValue_binary regex hr (stateComparison_of_ne m hne _ _), hu, evaluate_eq_stackValue]
      cases hv : stackValue regex m true false r.predicate with
      | none => simp
      | some v => simp [stackOp_skips regex hua hski, means_bool_iff]
    · simp only [hski, if_false, Bool.false_eq_true]
      cases hb : (r.cexpr x).eval limit env with
      | none => simp
      | some b =>
        obtain ⟨v, hv, hvb⟩ := hrig.2 b hb
        simp only [bind_some, some.injEq, forall_eq']
        exact forall₂_congr fun n hn =>
          stackValue_fitting_iff regex hlim hl hr hu hua hv hvb hn

theorem reads_not (h : ∀ s ∈ e.symbols, Bound x m env s) (he : Reads regex x m limit env e) :
    Reads regex x m limit env (.not e) := by
  refine ⟨he.1, fun n hn => ?_⟩
  obtain ⟨a, ha, rfl⟩ := map_eq_some_iff.mp hn
  obtain ⟨v, hv, hmea⟩ := he.2 a ha
  have hval : stackValue regex m true false (not e).predicate =
      (stackValue regex m false false e.predicate).bind fun b => some (.bool b.not) := rfl
  rw [stackValue_left regex h, hv] at hval
  have hnot : decide (a = 0) = v.not := by
    rw [Bool.eq_iff_iff, decide_eq_true_iff, ← not_iff_not, Bool.not_eq_true]
    exact hmea.not_eq_false_iff.symm
  exact ⟨_, hval, means_bool_iff.mpr (congrArg ofBool hnot)⟩

theorem reads_integer (limit : ℤ) (i : Int32) : Reads regex x m limit env (.integer i) := by
  constructor
  · intro p hp
    have hpat : (literal i.toInt).paths = [] := by
      unfold literal
      split <;> rfl
    rw [cexpr, hpat] at hp
    cases hp
  · intro n hn
    have hval : n = i.toInt64 := by
      rw [eval_literal hn, ← Int32.toInt_toInt64, Int64.ofInt_toInt]
    exact ⟨_, rfl, means_integer_iff.mpr hval⟩

theorem reads_symbol (limit : ℤ) (h : Bound x m env s) : Reads regex x m limit env (.symbol s) := by
  obtain ⟨i, hi, henv⟩ := h.holds
  constructor
  · intro p hp
    rw [mem_singleton.mp hp, henv]
    rfl
  · intro n hn
    have hval : n = i := some.inj (hn.symm.trans henv)
    exact ⟨_, stackValue_integer regex hi true, means_integer_iff.mpr hval⟩

theorem reads_iff_fits (hlim : limit ≤ 9223372036854775808)
    (h : ∀ s ∈ e.symbols, Bound x m env s) (honl : ∀ p, (env p).isSome → ∃ s, p = symbolPath x s) :
    (∀ q ∈ e.subexpressions, Reads regex x m limit env q) ↔
      ∀ q ∈ e.subexpressions, Fits regex x m limit env q := by
  induction e with
  | integer i => simp [subexpressions, Fits, reads_integer]
  | symbol s =>
    have hrea := reads_symbol regex limit (h s mem_cons_self)
    simp [subexpressions, Fits, hrea]
  | binary l o r ihl ihr =>
    obtain ⟨hl, hr⟩ := forall_mem_append.mp h
    simp only [subexpressions, forall_mem_cons, forall_mem_append]
    rw [ihl hl, ihr hr]
    -- both operands are read right, so the node decides
    refine and_congr_left fun hpar => reads_binary_iff regex hlim o hl hr ?_ ?_
    · exact (ihl hl).mpr hpar.1 l l.mem_subexpressions_self
    · exact (ihr hr).mpr hpar.2 r r.mem_subexpressions_self
  | not e ih =>
    simp only [subexpressions, forall_mem_cons]
    rw [ih h]
    refine and_congr_left fun hfit => iff_of_true ?_ trivial
    exact reads_not regex h ((ih h).mpr hfit e e.mem_subexpressions_self)
  | bitNegate e ih =>
    refine iff_of_false (fun hrea => ?_) fun hfit => hfit _ mem_cons_self
    exact not_declared_empty honl (hrea _ mem_cons_self).1
  | asInteger e ih =>
    refine iff_of_false (fun hrea => ?_) fun hfit => hfit _ mem_cons_self
    exact not_declared_empty honl (hrea _ mem_cons_self).1

/-- The C text of an expression and of all its parts keeps their meaning exactly if every node
fits. -/
theorem exportKeepsMeaning_iff (streamFloat : F → List Char) (limit : ℤ)
    (hlimit : limit ≤ 9223372036854775808) (e : Expression) (h : Environment x m env e) :
    (∀ q ∈ e.subexpressions, Preserved regex x streamFloat m limit env q) ↔
      ∀ q ∈ e.subexpressions, Fits regex x m limit env q := by
  rw [← reads_iff_fits regex hlimit h.bound h.only]
  exact forall₂_congr fun q hq =>
    preserved_iff_reads regex streamFloat limit fun s hs => h.bound s (symbols_subset hq hs)

end Values

def fiveScope : Scope ℚ Unit :=
  { emptyScope with resolve := fun s => if s = "x" then .integer 5 else .empty }

def fiveExport : ExportState where
  canBlock := false
  exportName s := if s = "x" then some "x" else none

def fiveVariables (p : Path) : Option Int64 :=
  if p = symbolPath fiveExport "x" then some 5 else none

theorem environment_five {e : Expression} (h : e.symbols = ["x"]) :
    Environment fiveExport fiveScope fiveVariables e where
  bound s hs := by
    rw [h, mem_singleton] at hs
    subst hs
    refine ⟨by decide, by decide, 5, fun left => ?_, rfl⟩
    cases left <;> rfl
  only p hp := by
    unfold fiveVariables at hp
    split_ifs at hp with hx
    · exact ⟨"x", hx⟩
    · cases hp

/-- `x > 3` with 5 for `x`. -/
theorem exportKeepsMeaning_greater :
    Environment fiveExport fiveScope fiveVariables (.binary (.symbol "x") .gt (.integer 3)) ∧
      ∀ q ∈ (Expression.binary (.symbol "x") .gt (.integer 3)).subexpressions,
        Preserved (fun _ _ => false) fiveExport (fun _ => []) fiveScope 2147483648 fiveVariables
          q := by
  have henv : Environment fiveExport fiveScope fiveVariables
      (.binary (.symbol "x") .gt (.integer 3)) := environment_five rfl
  refine ⟨henv, (exportKeepsMeaning_iff _ _ _ (by decide) _ henv).mpr ?_⟩
  simp only [subexpressions, forall_mem_cons, singleton_append]
  refine ⟨fun a _ b _ n _ => .inl ⟨rfl, rfl⟩, trivial, trivial, fun q hq => ?_⟩
  cases hq

/-- `x AS INTEGER` with 5 for `x`: the text is that of an empty value and names no variable of the
machine. -/
theorem asInteger_not_preserved :
    Environment fiveExport fiveScope fiveVariables (.asInteger (.symbol "x")) ∧
      toC fiveExport (fun _ : ℚ => []) (Expression.asInteger (.symbol "x")).predicate =
        ['(', 'e', 'm', 'p', 't', 'y', ')'] ∧
      evaluate (fun _ _ => false) fiveScope (Expression.asInteger (.symbol "x")).predicate =
        some (.integer 5) ∧
      ¬Preserved (fun _ _ => false) fiveExport (fun _ => []) fiveScope 2147483648 fiveVariables
        (.asInteger (.symbol "x")) := by
  have henv : Environment fiveExport fiveScope fiveVariables (.asInteger (.symbol "x")) :=
    environment_five rfl
  refine ⟨henv, rfl, rfl, fun h => ?_⟩
  exact not_declared_empty henv.only ((preserved_iff_reads _ _ _ henv.bound).mp h).1

end Clockwork.CExport
