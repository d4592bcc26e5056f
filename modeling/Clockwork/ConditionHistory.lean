import Clockwork.Condition

namespace Clockwork

open Option Predicate Entry

variable {F M R K : Type}

namespace Condition

def choose (cl : Classes M) (env : Environment F M R) (left : Bool) (e : Entry F M R K) :
    Pointer R :=
  if ((resolveCacheMiss cl env left e).read env e).isNull then .entry
  else resolveCacheMiss cl env left e

def comparedSymbols (op : PredicateOperator) (l r : Predicate (Entry F M R K)) :
    Option (String × String) :=
  match l, r with
  | .leaf (.value (.symbol ls _)), .leaf (.value (.symbol rs _)) =>
    if op = .opEQ ∨ op = .opNE then some (ls, rs) else none
  | _, _ => none

def testOf (cl : Classes M) (env : Environment F M R) (names : String × String) : Bool × Bool :=
  stateTest cl (env.lookup names.1) (env.lookup names.2) names.1 names.2

def plan (cl : Classes M) (env : Environment F M R) (left state : Bool) :
    Predicate (Entry F M R K) → Predicate (Entry F M R K × Pointer R)
  | .leaf e =>
    let e' := if state then e.toStringKind else e
    .leaf (e', choose cl env left e')
  | .unary op r =>
    if compilesUnary op then .unary op (plan cl env false false r)
    else .leaf (.value .empty, .entry)
  | .binary l op r =>
    let test := ((comparedSymbols op l r).map (testOf cl env)).getD (false, false)
    .binary (plan cl env true test.1 l) op (plan cl env false test.2 r)

section Execute

variable [Double F]

def execute (regex : String → String → Bool) :
    Predicate (Entry F M R K × Pointer R) → Environment F M R →
      Option (Value F × Environment F M R)
  | .leaf (.value v, p), env => some (p.read env (.value v : Entry F M R K), env)
  | .leaf (.dynamic d, _), env => some (d.value (d.find env) env)
  | .unary op r, env => do
    let (b, env') ← execute regex r env
    let v ← stackOp regex op (.bool true) b
    return (v, env')
  | .binary l op r, env => do
    let (b, env₁) ← execute regex r env
    let (a, env₂) ← execute regex l env₁
    let v ← stackOp regex op a b
    return (v, env₂)

def uncached (regex : String → String → Bool) (cl : Classes M) (p : Predicate (Entry F M R K))
    (env : Environment F M R) : Option Bool :=
  (execute regex (plan cl env true false p) env).map fun x => x.1.truth

end Execute

def skeleton : Predicate (Leaf F M R K) → Predicate (Entry F M R K × Pointer R)
  | .leaf l => .leaf (l.entry, l.cachedEntry.getD .entry)
  | .unary op r =>
    if compilesUnary op then .unary op (skeleton r) else .leaf (.value .empty, .entry)
  | .binary l op r => .binary (skeleton l) op (skeleton r)

def comparedNames : Predicate (Entry F M R K) → List (String × String)
  | .leaf _ => []
  | .unary _ r => comparedNames r
  | .binary l op r => (comparedSymbols op l r).toList ++ (comparedNames l ++ comparedNames r)

/-- Two environments in which the state comparisons of a tree come out the same and
its dynamic values find the same. -/
structure SameLookups (cl : Classes M) (p : Predicate (Entry F M R K))
    (env env' : Environment F M R) : Prop where
  tests : ∀ x ∈ comparedNames p, testOf cl env' x = testOf cl env x
  finds : ∀ d, .dynamic d ∈ p.leaves → d.find env' = d.find env

structure Transparent (cl : Classes M) (p : Predicate (Entry F M R K))
    (env env' : Environment F M R) : Prop extends SameLookups cl p env env' where
  root : ∀ e, p = .leaf e → choose cl env' true e = choose cl env true e

/-- The dynamic values of the tree change nothing the tree looks up. -/
def Quiet (cl : Classes M) (p : Predicate (Entry F M R K)) : Prop :=
  ∀ d, .dynamic d ∈ p.leaves → ∀ kept env, Transparent cl p env (d.value kept env).2

def LeafOk (env : Environment F M R) (l : Leaf F M R K) : Prop :=
  ∀ d, l.entry = .dynamic d → l.kept = none ∨ l.kept = d.find env

/-- Two symbol leaves that were compared: as parsed, with machines kept that do not
change the outcome of the test, or rewritten the way the test comes out now. -/
def Compared (cl : Classes M) (env : Environment F M R) (ls rs : String)
    (e f : Entry F M R K) (a b : Leaf F M R K) : Prop :=
  (a.entry = e ∧ b.entry = f ∧
    stateTest cl a.cachedMachine b.cachedMachine ls rs = (false, false) ∧
    (a.cachedMachine = none ∧ b.cachedMachine = none ∨ testOf cl env (ls, rs) = (false, false))) ∨
  (testOf cl env (ls, rs) ≠ (false, false) ∧
    a.entry = (if (testOf cl env (ls, rs)).1 then e.toStringKind else e) ∧
    b.entry = (if (testOf cl env (ls, rs)).2 then f.toStringKind else f))

/-- A tree that evaluations of a parsed predicate can have left behind, such that the
next evaluation is as good as the first one. -/
inductive Consistent (cl : Classes M) (env : Environment F M R) :
    Predicate (Entry F M R K) → Predicate (Leaf F M R K) → Prop
  | leaf (l : Leaf F M R K) (ok : LeafOk env l) : Consistent cl env (.leaf l.entry) (.leaf l)
  | skipped {op : PredicateOperator} (r : Predicate (Entry F M R K))
      (r' : Predicate (Leaf F M R K)) (h : compilesUnary op = false) :
      Consistent cl env (.unary op r) (.unary op r')
  | unary {op : PredicateOperator} {r : Predicate (Entry F M R K)}
      {r' : Predicate (Leaf F M R K)} (h : compilesUnary op) (hr : Consistent cl env r r') :
      Consistent cl env (.unary op r) (.unary op r')
  | compared {op : PredicateOperator} {ls rs : String} {lt rt : TokenId} {a b : Leaf F M R K}
      (hop : op = .opEQ ∨ op = .opNE)
      (h : Compared cl env ls rs (.value (.symbol ls lt)) (.value (.symbol rs rt)) a b) :
      Consistent cl env
        (.binary (.leaf (.value (.symbol ls lt))) op (.leaf (.value (.symbol rs rt))))
        (.binary (.leaf a) op (.leaf b))
  | binary {op : PredicateOperator} {l r : Predicate (Entry F M R K)}
      {l' r' : Predicate (Leaf F M R K)} (hn : comparedSymbols op l r = none)
      (hl : Consistent cl env l l') (hr : Consistent cl env r r') :
      Consistent cl env (.binary l op r) (.binary l' op r')

variable {op : PredicateOperator} {cl : Classes M} {ls rs : String} {env : Environment F M R}
  {l a b : Leaf F M R K} {p P : Predicate (Entry F M R K)} {t : Predicate (Leaf F M R K)}
  {lt rt : TokenId} {c : Condition F M R K}

theorem comparedSymbols_eq_some {l r : Predicate (Entry F M R K)} {x : String × String}
    (h : comparedSymbols op l r = some x) :
    ∃ lt rt, l = .leaf (.value (.symbol x.1 lt)) ∧ r = .leaf (.value (.symbol x.2 rt)) ∧
      (op = .opEQ ∨ op = .opNE) := by
  unfold comparedSymbols at h
  split at h
  · split_ifs at h with hop
    cases h
    exact ⟨_, _, rfl, rfl, hop⟩
  · cases h

theorem comparedSymbols_symbols (hop : op = .opEQ ∨ op = .opNE) (ls rs : String) (lt rt : TokenId) :
    comparedSymbols (F := F) (M := M) (R := R) (K := K) op (.leaf (.value (.symbol ls lt)))
      (.leaf (.value (.symbol rs rt))) = some (ls, rs) := by
  simp [comparedSymbols, hop]

theorem stateTest_kept {x y lhm rhm : Option M} (hk : stateTest cl x y ls rs = (false, false))
    (h : stateTest cl lhm rhm ls rs = (false, false)) :
    stateTest cl (x <|> lhm) (y <|> rhm) ls rs = (false, false) := by
  cases x with
  | none =>
    cases y with
    | none => exact h
    | some y =>
      cases lhm with
      | none => exact hk
      | some _ => rfl
  | some x =>
    cases y with
    | some y => rfl
    | none =>
      cases rhm with
      | none => exact hk
      | some _ => rfl

theorem Consistent.of_leaf (h : Consistent cl env p (.leaf l)) : p = .leaf l.entry := by
  cases h
  rfl

theorem Consistent.leaf_of {e : Entry F M R K} (h : Consistent cl env (.leaf e) t) :
    ∃ l, t = .leaf l ∧ l.entry = e := by
  cases h with
  | leaf l _ => exact ⟨l, rfl, rfl⟩

theorem consistent_fresh (cl : Classes M) (env : Environment F M R)
    (p : Predicate (Entry F M R K)) : Consistent cl env p (p.map Leaf.fresh) := by
  induction p with
  | leaf e => exact .leaf (Leaf.fresh e) fun _ _ => .inl rfl
  | unary op r ih =>
    cases h : compilesUnary op with
    | false => exact .skipped r _ h
    | true => exact .unary h ih
  | binary l op r ihl ihr =>
    cases h : comparedSymbols op l r with
    | none => exact .binary h ihl ihr
    | some x =>
      obtain ⟨lt, rt, rfl, rfl, hop⟩ := comparedSymbols_eq_some h
      exact .compared hop (.inl ⟨rfl, rfl, rfl, .inl ⟨rfl, rfl⟩⟩)

namespace SameLookups

variable {cl : Classes M} {p : Predicate (Entry F M R K)} {env env' env'' : Environment F M R}

theorem refl (cl : Classes M) (p : Predicate (Entry F M R K)) (env : Environment F M R) :
    SameLookups cl p env env := ⟨fun _ _ => rfl, fun _ _ => rfl⟩

theorem symm (h : SameLookups cl p env env') : SameLookups cl p env' env :=
  ⟨fun x hx => (h.tests x hx).symm, fun d hd => (h.finds d hd).symm⟩

theorem trans (h : SameLookups cl p env env') (h' : SameLookups cl p env' env'') :
    SameLookups cl p env env'' :=
  ⟨fun x hx => (h'.tests x hx).trans (h.tests x hx),
    fun d hd => (h'.finds d hd).trans (h.finds d hd)⟩

variable {op : PredicateOperator}

theorem unary (h : SameLookups cl (.unary op p) env env') : SameLookups cl p env env' :=
  ⟨h.tests, h.finds⟩

theorem left {l r : Predicate (Entry F M R K)} (h : SameLookups cl (.binary l op r) env env') :
    SameLookups cl l env env' :=
  ⟨fun x hx => h.tests x (by simp [comparedNames, hx]),
    fun d hd => h.finds d (by simp [leaves, hd])⟩

theorem right {l r : Predicate (Entry F M R K)} (h : SameLookups cl (.binary l op r) env env') :
    SameLookups cl r env env' :=
  ⟨fun x hx => h.tests x (by simp [comparedNames, hx]),
    fun d hd => h.finds d (by simp [leaves, hd])⟩

end SameLookups

variable {env env' : Environment F M R}

theorem Consistent.transport (h : Consistent cl env p t)
    (hs : SameLookups cl p env env') : Consistent cl env' p t := by
  induction h with
  | leaf l ok =>
    refine .leaf l fun d hd => ?_
    rw [hs.finds d (by simp [leaves, hd])]
    exact ok d hd
  | skipped r r' h => exact .skipped r r' h
  | unary h _ ih => exact .unary h (ih hs.unary)
  | @compared op ls rs lt rt a b hop h =>
    refine .compared hop ?_
    have ht := hs.tests (ls, rs) (by simp [comparedNames, comparedSymbols_symbols hop])
    unfold Compared
    rw [ht]
    exact h
  | binary hn _ _ ihl ihr => exact .binary hn (ihl hs.left) (ihr hs.right)

theorem prepLeaf_reevaluate (cl : Classes M) (env : Environment F M R) (left : Bool)
    (l : Leaf F M R K) :
    prepLeaf cl env left true l = { l with cachedEntry := some (choose cl env left l.entry) } := rfl

theorem compareStates_eq_id {l r : Predicate (Entry F M R K)} {l' r' : Predicate (Leaf F M R K)}
    (hn : comparedSymbols op l r = none) (hl : Consistent cl env l l')
    (hr : Consistent cl env r r') : compareStates cl env op l' r' = (id, id) := by
  cases hl with
  | leaf a _ =>
    cases hr with
    | leaf b _ =>
      unfold compareStates
      dsimp only
      split
      · next ha hb =>
        rw [ha, hb] at hn
        simp only [comparedSymbols, ite_eq_right_iff, reduceCtorEq, imp_false] at hn
        rw [if_neg hn]
      · rfl
    | _ => rfl
  | _ => rfl

theorem compareStates_rewritten {test : Bool × Bool} (ht : test ≠ (false, false))
    (ha : a.entry = if test.1 then (value (.symbol ls lt)).toStringKind
      else .value (.symbol ls lt))
    (hb : b.entry = if test.2 then (value (.symbol rs rt)).toStringKind
      else .value (.symbol rs rt)) : compareStates cl env op (.leaf a) (.leaf b) = (id, id) := by
  obtain ⟨x, y⟩ := test
  cases x <;> cases y <;>
    simp_all [compareStates, toStringKind, Value.toStringKind]

theorem Compared.values
    (h : Compared cl env ls rs (.value (.symbol ls lt)) (.value (.symbol rs rt)) a b) :
    ∃ v w, a.entry = .value v ∧ b.entry = .value w := by
  rcases h with ⟨ha, hb, -⟩ | ⟨-, ha, hb⟩
  · exact ⟨_, _, ha, hb⟩
  · rw [ha, hb]
    split_ifs <;> exact ⟨_, _, rfl, rfl⟩

theorem Compared.test_eq (hk : stateTest cl a.cachedMachine b.cachedMachine ls rs = (false, false))
    (h : a.cachedMachine = none ∧ b.cachedMachine = none ∨
      testOf cl env (ls, rs) = (false, false)) :
    stateTest cl (a.cachedMachine <|> env.lookup ls) (b.cachedMachine <|> env.lookup rs) ls rs =
      testOf cl env (ls, rs) := by
  rcases h with ⟨ha, hb⟩ | ht
  · rw [ha, hb]
    rfl
  · rw [ht]
    exact stateTest_kept hk ht

theorem compared_prep (hop : op = .opEQ ∨ op = .opNE)
    (h : Compared cl env ls rs (.value (.symbol ls lt)) (.value (.symbol rs rt)) a b) :
    ((compareStates cl env op (.leaf a) (.leaf b)).1 a).entry =
        (if (testOf cl env (ls, rs)).1 then (value (.symbol ls lt)).toStringKind
          else .value (.symbol ls lt)) ∧ ((compareStates cl env op (.leaf a) (.leaf b)).2 b).entry =
        (if (testOf cl env (ls, rs)).2 then (value (.symbol rs rt)).toStringKind
          else .value (.symbol rs rt)) ∧
      Compared cl env ls rs (.value (.symbol ls lt)) (.value (.symbol rs rt))
        ((compareStates cl env op (.leaf a) (.leaf b)).1 a)
        ((compareStates cl env op (.leaf a) (.leaf b)).2 b) := by
  rcases h with ⟨ha, hb, hk, hc⟩ | ⟨ht, ha, hb⟩
  · have htes := Compared.test_eq hk hc
    have hcom : compareStates cl env op (.leaf a) (.leaf b) =
        (compared (a.cachedMachine <|> env.lookup ls) (testOf cl env (ls, rs)).1,
          compared (b.cachedMachine <|> env.lookup rs) (testOf cl env (ls, rs)).2) := by
      simp [compareStates, ha, hb, hop, ← htes]
    rw [hcom]
    have hea : (compared (a.cachedMachine <|> env.lookup ls) (testOf cl env (ls, rs)).1 a).entry =
        if (testOf cl env (ls, rs)).1 then (value (.symbol ls lt)).toStringKind
        else .value (.symbol ls lt) := by rw [compared, ha]
    have heb : (compared (b.cachedMachine <|> env.lookup rs) (testOf cl env (ls, rs)).2 b).entry =
        if (testOf cl env (ls, rs)).2 then (value (.symbol rs rt)).toStringKind
        else .value (.symbol rs rt) := by rw [compared, hb]
    refine ⟨hea, heb, ?_⟩
    by_cases ht : testOf cl env (ls, rs) = (false, false)
    · rw [ht] at hea heb htes ⊢
      exact .inl ⟨hea, heb, htes, .inr ht⟩
    · exact .inr ⟨ht, hea, heb⟩
  · rw [compareStates_rewritten ht ha hb]
    exact ⟨ha, hb, .inr ⟨ht, ha, hb⟩⟩

theorem prep_spec (h : Consistent cl env p t) (left : Bool) :
    skeleton (prep cl env left true id t) = plan cl env left false p ∧
      Consistent cl env p (prep cl env left true id t) := by
  induction h generalizing left with
  | leaf l ok => exact ⟨rfl, .leaf (prepLeaf cl env left true l) ok⟩
  | skipped r r' h => simp [prep, plan, skeleton, h, Consistent.skipped]
  | unary h _ ih =>
    simp only [prep, plan, skeleton, h, if_true]
    exact ⟨by rw [(ih false).1], .unary h (ih false).2⟩
  | @compared op ls rs lt rt a b hop h =>
    obtain ⟨ha, hb, hc⟩ := compared_prep hop h
    simp only [prep, plan, skeleton, comparedSymbols_symbols hop, map_some,
      getD_some, prepLeaf_reevaluate]
    refine ⟨by rw [ha, hb], .compared hop ?_⟩
    exact hc
  | binary hn hl hr ihl ihr =>
    simp only [prep, plan, skeleton, compareStates_eq_id hn hl hr, hn, map_none, getD_none]
    exact ⟨by rw [(ihl true).1, (ihr false).1], .binary hn (ihl true).2 (ihr false).2⟩

theorem Consistent.rootResolved_eq (h : Consistent cl env p t) :
    rootResolved t = rootResolved (p.map Leaf.fresh) := by
  cases h <;> rfl

structure Settled (cl : Classes M) (P : Predicate (Entry F M R K)) (c : Condition F M R K)
    (env : Environment F M R) : Prop where
  consistent : Consistent cl env P c.predicate
  reevaluates : c.needsReevaluation ∨ rootResolved c.predicate
  root : c.needsReevaluation = false → ∀ l, c.predicate = .leaf l →
    l.cachedEntry = some (choose cl env true l.entry)

theorem settled_fresh (cl : Classes M) (P : Predicate (Entry F M R K))
    (env : Environment F M R) : Settled cl P (fresh P) env where
  consistent := consistent_fresh cl env P
  reevaluates := .inl rfl
  root h := by cases h

theorem Settled.transport (h : Settled cl P c env)
    (ht : Transparent cl P env env') : Settled cl P c env' where
  consistent := h.consistent.transport ht.toSameLookups
  reevaluates := h.reevaluates
  root hr l hl := by
    rw [ht.root _ (hl ▸ h.consistent).of_leaf]
    exact h.root hr l hl

theorem Settled.flushCache (h : Settled cl P c env) : Settled cl P c.flushCache env where
  consistent := by
    have hc := h.consistent
    unfold Condition.flushCache
    split
    · next l hl =>
      rw [hl] at hc
      cases hc with
      | leaf l ok => exact .leaf { l with cachedEntry := none } ok
    · exact hc
  reevaluates := .inl rfl
  root hr := by cases hr

theorem choose_idem (cl : Classes M) (env : Environment F M R) (left : Bool) (e : Entry F M R K) :
    (if ((choose cl env left e).read env e).isNull then .entry else choose cl env left e) =
      choose cl env left e := by
  by_cases h : ((resolveCacheMiss cl env left e).read env e).isNull
  · simp [choose, h]
  · simp [choose, h]

theorem Settled.prep_eq (h : Settled cl P c env) :
    prep cl env true c.needsReevaluation id c.predicate = prep cl env true true id c.predicate := by
  cases hr : c.needsReevaluation with
  | true => rfl
  | false =>
    have hroo := h.reevaluates.resolve_left (by simp [hr])
    cases hp : c.predicate with
    | leaf l =>
      have hc := h.root hr l hp
      simp only [prep, id, prepLeaf_reevaluate]
      simp [prepLeaf, hc, choose_idem]
    | unary op r =>
      have hop : compilesUnary op = false := by simpa [hp, rootResolved] using hroo
      simp [prep, hop]
    | binary l op r => simp [hp, rootResolved] at hroo

theorem Transparent.refl (cl : Classes M) (P : Predicate (Entry F M R K))
    (env : Environment F M R) : Transparent cl P env env :=
  ⟨SameLookups.refl cl P env, fun _ _ => rfl⟩

theorem Transparent.trans {env env' env'' : Environment F M R} (h : Transparent cl P env env')
    (h' : Transparent cl P env' env'') : Transparent cl P env env'' :=
  ⟨h.toSameLookups.trans h'.toSameLookups, fun e he => (h'.root e he).trans (h.root e he)⟩

variable [Double F] (regex : String → String → Bool)

theorem eval_leaf_value {v : Value F} (h : l.entry = .value v) (env : Environment F M R) :
    eval regex (.leaf l) env =
      some ((l.cachedEntry.getD .entry).read env (.value v : Entry F M R K), .leaf l, env) := by
  simp [eval, h]

theorem eval_leaf_dynamic {d : DynamicValue F M R K} (he : l.entry = .dynamic d)
    (hk : l.kept = none ∨ l.kept = d.find env) :
    eval regex (.leaf l) env = some ((d.value (d.find env) env).1,
      .leaf { l with kept := d.find env }, (d.value (d.find env) env).2) := by
  have hkep : (l.kept <|> d.find env) = d.find env := by
    rcases hk with hk | hk
    · rw [hk]
      rfl
    · rw [hk]
      cases d.find env <;> rfl
  simp [eval, he, hkep]

theorem eval_spec_leaf (hq : Quiet cl P) (hmem : l.entry ∈ P.leaves)
    (ok : ∀ d, l.entry = .dynamic d → l.kept = none ∨ l.kept = d.find env) :
    execute regex (skeleton (.leaf l)) env =
        (eval regex (.leaf l) env).map (fun x => (x.1, x.2.2)) ∧
      ∀ x, eval regex (.leaf l) env = some x → Consistent cl env (.leaf l.entry) x.2.1 ∧
        Transparent cl P env x.2.2 := by
  cases he : l.entry with
  | value v =>
    rw [eval_leaf_value regex he]
    refine ⟨by simp [skeleton, execute, he], ?_⟩
    rintro x ⟨⟩
    exact ⟨he ▸ .leaf l ok, .refl cl P env⟩
  | dynamic d =>
    rw [eval_leaf_dynamic regex he (ok d he)]
    refine ⟨by simp [skeleton, execute, he], ?_⟩
    rintro x ⟨⟩
    refine ⟨?_, hq d (he ▸ hmem) _ env⟩
    rw [← he]
    refine .leaf { l with kept := d.find env } fun d' hd' => .inr ?_
    obtain rfl : d = d' := by simpa [he] using hd'
    rfl

/-- Evaluating a consistent tree executes its plan and leaves a consistent tree. The
tree `p` is part of the predicate `P`, whose dynamic values change no lookup of it. -/
theorem eval_spec (hq : Quiet cl P)
    (hsub : ∀ env env', SameLookups cl P env env' → SameLookups cl p env env')
    (hmem : ∀ e ∈ p.leaves, e ∈ P.leaves) (h : Consistent cl env p t) :
    execute regex (skeleton t) env = (eval regex t env).map (fun x => (x.1, x.2.2)) ∧
      ∀ x, eval regex t env = some x → Consistent cl env p x.2.1 ∧ Transparent cl P env x.2.2 := by
  induction p generalizing t env with
  | leaf e =>
    cases h with
    | leaf l ok => exact eval_spec_leaf regex hq (hmem _ (by simp [leaves])) ok
  | unary op r ih =>
    cases h with
    -- an operator without code is not evaluated at all
    | skipped r r' hc =>
      simp only [skeleton, eval, hc]
      refine ⟨rfl, ?_⟩
      rintro x ⟨⟩
      exact ⟨.skipped r r' hc, .refl cl P env⟩
    | @unary _ _ r' hc hr =>
      obtain ⟨hex, hres⟩ := ih (fun e e' hs => (hsub e e' hs).unary) hmem hr
      simp only [skeleton, hc, if_true, eval, execute, hex]
      cases hev : eval regex r' env with
      | none => simp
      | some x =>
        obtain ⟨hcon, htr⟩ := hres x hev
        simp only [map_some, bind_eq_bind, bind_some]
        cases hop : stackOp regex op (.bool true) x.1 with
        | none => simp
        | some v =>
          refine ⟨by simp, ?_⟩
          rintro y ⟨⟩
          exact ⟨.unary hc hcon, htr⟩
  | binary l op r ihl ihr =>
    cases h with
    | @compared _ ls rs lt rt a b hop h =>
      obtain ⟨va, vb, ha, hb⟩ := h.values
      simp only [skeleton, eval, execute, ha, hb, bind_eq_bind, bind_some]
      cases stackOp regex op ((a.cachedEntry.getD .entry).read env (.value va : Entry F M R K))
        ((b.cachedEntry.getD .entry).read env (.value vb : Entry F M R K)) with
      | none => simp
      | some v =>
        refine ⟨by simp, ?_⟩
        rintro y ⟨⟩
        exact ⟨.compared hop h, .refl cl P env⟩
    -- the right operand comes first, so the left one is evaluated in the environment it leaves
    | @binary _ _ _ l' r' hn hl hr =>
      obtain ⟨hexr, hrer⟩ := ihr (fun e e' hs => (hsub e e' hs).right)
        (fun e he => hmem e (by simp [leaves, he])) hr
      simp only [skeleton, eval, execute, hexr]
      cases hevr : eval regex r' env with
      | none => simp
      | some x =>
        obtain ⟨hcos, htr⟩ := hrer x hevr
        have hsam := hsub _ _ htr.toSameLookups
        obtain ⟨hexl, hrel⟩ := ihl (fun e e' hs => (hsub e e' hs).left)
          (fun e he => hmem e (by simp [leaves, he])) (hl.transport hsam.left)
        simp only [map_some, bind_eq_bind, bind_some, hexl]
        cases hevl : eval regex l' x.2.2 with
        | none => simp
        | some y =>
          obtain ⟨hcons, htl⟩ := hrel y hevl
          simp only [map_some, bind_some]
          cases hop : stackOp regex op y.1 x.1 with
          | none => simp
          | some v =>
            refine ⟨by simp, ?_⟩
            rintro z ⟨⟩
            exact ⟨.binary hn (hcons.transport hsam.left.symm) hcos, htr.trans htl⟩

theorem eval_leaf {x : Value F × Predicate (Leaf F M R K) × Environment F M R}
    (h : eval regex (.leaf l) env = some x) :
    ∃ l', x.2.1 = .leaf l' ∧ l'.entry = l.entry ∧ l'.cachedEntry = l.cachedEntry := by
  cases he : l.entry with
  | value v =>
    rw [eval_leaf_value regex he] at h
    cases h
    exact ⟨l, rfl, he, rfl⟩
  | dynamic d =>
    simp only [eval, he, some.injEq] at h
    subst h
    exact ⟨_, rfl, rfl, rfl⟩

theorem call_spec (hq : Quiet cl P) (h : Settled cl P c env) :
    (c.call regex cl env).map (·.1) = uncached regex cl P env ∧
      ∀ x, c.call regex cl env = some x → Settled cl P x.2.1 x.2.2 := by
  obtain ⟨hpla, hcon⟩ := prep_spec h.consistent true
  obtain ⟨hex, hres⟩ := eval_spec regex hq (fun _ _ hs => hs) (fun _ he => he) hcon
  unfold call uncached
  rw [h.prep_eq, ← hpla, hex]
  cases hev : eval regex (prep cl env true true id c.predicate) env with
  | none => simp
  | some x =>
    refine ⟨by simp, ?_⟩
    rintro y ⟨⟩
    obtain ⟨hcon', htr⟩ := hres x hev
    refine Settled.transport ⟨hcon', ?_, ?_⟩ htr
    · have hroo : rootResolved x.2.1 = rootResolved c.predicate := by
        rw [hcon'.rootResolved_eq, h.consistent.rootResolved_eq]
      rw [hroo]
      rcases h.reevaluates with hn | hn
      · cases hr : rootResolved c.predicate <;> simp [hn]
      · exact .inr hn
    · intro _ l hl
      dsimp only at hl
      -- the root is a leaf, and was one before
      rw [hl] at hcon'
      obtain ⟨l₀, hl₀, he₀⟩ := (hcon'.of_leaf ▸ h.consistent).leaf_of
      rw [hl₀, prep, prepLeaf_reevaluate] at hev
      obtain ⟨l', hl', he', hc'⟩ := eval_leaf regex hev
      obtain rfl : l = l' := by simpa [hl] using hl'
      rw [hc', he']

/-- In a run whose steps are transparent to the predicate, the condition returns what
a condition on a fresh copy of the predicate returns. -/
theorem call_eq_call_fresh (cl : Classes M) (P : Predicate (Entry F M R K)) (hq : Quiet cl P)
    (env₀ env : Environment F M R) (c : Condition F M R K) (events : List (Event F M R))
    (run : Runs.Run (Runs.Guarded (Step regex cl) fun s _ t => Transparent cl P s.2 t.2)
      (fresh P, env₀) events (c, env)) :
    (c.call regex cl env).map (·.1) = ((fresh P).call regex cl env).map (·.1) := by
  have hinv : Settled cl P c env := by
    refine Runs.Run.invariant (I := fun s => Settled cl P s.1 s.2) ?_ run
      (settled_fresh cl P env₀)
    rintro s a t hs ⟨hste, htr⟩
    cases hste with
    | evaluate h => exact (call_spec regex hq hs).2 _ h
    | flush c env => exact hs.flushCache
    | change c env env' => exact hs.transport htr
  rw [(call_spec regex hq hinv).1, (call_spec regex hq (settled_fresh cl P env)).1]

def namedEnvironment (lookup : String → Option Bool) (read : String → Value ℚ) :
    Environment ℚ Bool String where
  lookup := lookup
  resolve := id
  read := read
  currentStateVal := .empty

def doorClasses : Classes Bool where
  hasState _ := false
  machineHasState x s := x && s == "open"

def atLeastThree : Predicate (Entry ℚ Bool String Unit) :=
  .binary (.leaf (.value (.symbol "n" (some "n")))) .opGE (.leaf (.value (.integer 3)))

theorem call_eq_call_fresh_at_least_three : ∃ c : Condition ℚ Bool String Unit,
      Runs.Run (Step (fun _ _ => false) doorClasses)
        (fresh atLeastThree, namedEnvironment (fun _ => none) fun _ => .integer 1)
        [.evaluate, .change (namedEnvironment (fun _ => none) fun _ => .integer 5)]
        (c, namedEnvironment (fun _ => none) fun _ => .integer 5) ∧
      (c.call (fun _ _ => false) doorClasses
        (namedEnvironment (fun _ => none) fun _ => .integer 5)).map (·.1) =
      ((fresh atLeastThree).call (fun _ _ => false) doorClasses
        (namedEnvironment (fun _ => none) fun _ => .integer 5)).map (·.1) := by
  have hq : Quiet doorClasses atLeastThree := by
    intro d hd
    simp [atLeastThree, leaves] at hd
  have htr : ∀ env env' : Environment ℚ Bool String,
      Transparent doorClasses atLeastThree env env' := by
    intro env env'
    refine ⟨⟨fun x hx => ?_, fun d hd => ?_⟩, fun e he => ?_⟩
    · simp [atLeastThree, comparedNames, comparedSymbols] at hx
    · simp [atLeastThree, leaves] at hd
    · cases he
  obtain ⟨c, hc⟩ : ∃ c, (fresh atLeastThree).call (fun _ _ => false) doorClasses
      (namedEnvironment (fun _ => none) fun _ => .integer 1) =
        some (false, c, namedEnvironment (fun _ => none) fun _ => .integer 1) := ⟨_, rfl⟩
  have run : Runs.Run (Runs.Guarded (Step (fun _ _ => false) doorClasses)
      fun s _ t => Transparent doorClasses atLeastThree s.2 t.2)
      (fresh atLeastThree, namedEnvironment (fun _ => none) fun _ => .integer 1)
      [.evaluate, .change (namedEnvironment (fun _ => none) fun _ => .integer 5)]
      (c, namedEnvironment (fun _ => none) fun _ => .integer 5) :=
    .cons ⟨.evaluate hc, htr _ _⟩ (.cons ⟨.change _ _ _, htr _ _⟩ (.nil _))
  exact ⟨c, run.of_guarded, call_eq_call_fresh _ doorClasses atLeastThree hq _ _ _ _ run⟩

/-- `flag`, evaluated before the property is added, stays false; `x == open`, first
evaluated while `x` is a machine with a state `open`, does not find the property
`open` equal to `x` after `x` is bound to a variable. -/
theorem call_depends_on_history :
    (((fresh (.leaf (.value (.symbol "flag" (some "flag")))) : Condition ℚ Bool String Unit).call
        (fun _ _ => false) doorClasses (namedEnvironment (fun _ => none) fun _ => .empty)).bind
      fun x => (x.2.1.call (fun _ _ => false) doorClasses
        (namedEnvironment (fun _ => none) fun _ => .bool true)).map (·.1)) = some false ∧
    ((fresh (.leaf (.value (.symbol "flag" (some "flag")))) : Condition ℚ Bool String Unit).call
        (fun _ _ => false) doorClasses
        (namedEnvironment (fun _ => none) fun _ => .bool true)).map (·.1) = some true ∧
    (((fresh (.binary (.leaf (.value (.symbol "x" (some "x")))) .opEQ
          (.leaf (.value (.symbol "open" (some "open"))))) : Condition ℚ Bool String Unit).call
        (fun _ _ => false) doorClasses
        (namedEnvironment (fun s => if s = "x" then some true else none)
          fun s => if s = "x" then .symbol "closed" (some "closed") else .integer 5)).bind
      fun x => (x.2.1.call (fun _ _ => false) doorClasses
        (namedEnvironment (fun s => if s = "x" then some false else none)
          fun _ => .integer 5)).map (·.1)) = some false ∧
    ((fresh (.binary (.leaf (.value (.symbol "x" (some "x")))) .opEQ
          (.leaf (.value (.symbol "open" (some "open"))))) : Condition ℚ Bool String Unit).call
        (fun _ _ => false) doorClasses
        (namedEnvironment (fun s => if s = "x" then some false else none)
          fun _ => .integer 5)).map (·.1) = some true := by
  decide

end Condition

end Clockwork
