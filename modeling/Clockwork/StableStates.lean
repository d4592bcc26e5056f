import Clockwork.Evaluators

namespace Clockwork.StableStates

open List Option

variable {F M : Type}

structure ConditionHandler (F : Type) where
  condition : Predicate (Value F)
  commandName : String
  flagName : String
deriving DecidableEq, Repr

structure StableState (F : Type) where
  stateName : String
  condition : Predicate (Value F)
  subconditionHandlers : List (ConditionHandler F)
deriving DecidableEq, Repr

def defaultPredicate : Predicate (Value F) := .leaf (.symbol "DEFAULT" (some "DEFAULT"))

def priority : Predicate (Value F) → ℕ
  | .leaf (.symbol s _) => if s = "DEFAULT" then 1 else 0
  | _ => 0

inductive SubconditionKind where
  | execute | flag
deriving DecidableEq, Repr

structure Subcondition (F : Type) where
  kind : SubconditionKind
  name : String
  predicate : Predicate (Value F)

/-- `state_definition` and `stable_state_definition`. The word `DEFAULT` is a token of its own, so
no predicate of the grammar is that symbol. -/
inductive Definition (F : Type) where
  | state (name : String)
  | default (name : String)
  | initial (name : String)
  | when (name : String) (predicate : Predicate (Value F)) (h : priority predicate = 0)
      (subconditions : List (Subcondition F))

def Subcondition.handler (sc : Subcondition F) : ConditionHandler F :=
  match sc.kind with
  | .execute => ⟨sc.predicate, sc.name, ""⟩
  | .flag => ⟨sc.predicate, "FLAG", sc.name⟩

/-- A subcondition goes to the last stable state, which is taken from the list and put back. -/
def addSubcondition (states : List (StableState F)) (sc : Subcondition F) : List (StableState F) :=
  match states.getLast? with
  | none => states
  | some s =>
    states.dropLast ++ [{ s with subconditionHandlers := s.subconditionHandlers ++ [sc.handler] }]

def addDefinition (states : List (StableState F)) : Definition F → List (StableState F)
  | .state _ => states
  | .default name => states ++ [⟨name, defaultPredicate, []⟩]
  | .initial _ => states
  | .when name p _ subconditions => subconditions.foldl addSubcondition (states ++ [⟨name, p, []⟩])

def parse (definitions : List (Definition F)) : List (StableState F) :=
  definitions.foldl addDefinition []

structure MachineClass (F : Type) where
  stableStates : List (StableState F)
  defaultState : String

/-- No rule of the grammar sets `default_state`. -/
def MachineClass.parsed (definitions : List (Definition F)) : MachineClass F :=
  ⟨parse definitions, "unknown"⟩

section Move

variable {α : Type}

/-- The assignments `states[i] = states[i + 1]` for `k` indices from `i` on. -/
def shift (states : List α) (i : ℕ) : ℕ → List α
  | 0 => states
  | k + 1 =>
    match states[i + 1]? with
    | some s => shift (states.set i s) (i + 1) k
    | none => states

/-- The first state before the last one that the test selects is moved to the end. -/
def moveToEnd (test : α → Bool) (states : List α) : List α :=
  if states.length = 0 then states
  else
    let last := states.length - 1
    let i := (states.take last).findIdx test
    if i < last then
      match states[i]? with
      | some tmp => (shift states i (last - i)).set last tmp
      | none => states
    else states

end Move

def StableState.isDefault (s : StableState F) : Bool := priority s.condition = 1

/-- What `semantic_analysis` does to a class before the instances get it. -/
def MachineClass.semanticAnalysis (c : MachineClass F) : MachineClass F :=
  { c with stableStates := moveToEnd StableState.isDefault c.stableStates }

structure MachineInstance (F : Type) where
  stateMachine : Option (MachineClass F)
  stableStates : List (StableState F)

def MachineInstance.new : MachineInstance F := ⟨none, []⟩

def MachineInstance.setStateMachine (c : MachineClass F) (m : MachineInstance F) :
    MachineInstance F :=
  ⟨some c, m.stableStates ++ c.stableStates⟩

variable [Double F] (regex : String → String → Bool)

def StableState.holds (scope : Scope F M) (s : StableState F) : Bool :=
  (evaluate regex scope s.condition).any Value.truth

def MachineInstance.validState (scope : Scope F M)
    (m : MachineInstance F) : Option (StableState F) :=
  m.stableStates.find? (StableState.holds regex scope)

def MachineInstance.firstValidStableState (scope : Scope F M)
    (m : MachineInstance F) : Option String :=
  let found := (m.validState regex scope).elim "" StableState.stateName
  if found = "" then m.stateMachine.map MachineClass.defaultState else some found

section Move

variable {α : Type}

theorem shift_append (pre rest : List α) (x : α) : shift (pre ++ x :: rest) pre.length rest.length =
      pre ++ rest ++ [(x :: rest).getLast (cons_ne_nil x rest)] := by
  induction rest generalizing pre x with
  | nil => simp [shift]
  | cons y rest ih =>
    have hnex : (pre ++ x :: y :: rest)[pre.length + 1]? = some y := by simp
    have hset : (pre ++ x :: y :: rest).set pre.length y = (pre ++ [y]) ++ y :: rest := by simp
    have hmov := ih (pre ++ [y]) y
    rw [length_append, length_singleton] at hmov
    rw [length_cons, shift]
    simp only [hnex, hset, hmov]
    simp

theorem moveToEnd_append {test : α → Bool} {pre rest : List α} {x : α}
    (hpre : ∀ s ∈ pre, test s = false) (hx : test x = true) (hres : rest ≠ []) :
    moveToEnd test (pre ++ x :: rest) = pre ++ rest ++ [x] := by
  have hpos : 0 < rest.length := length_pos_iff.mpr hres
  have hlas : (pre ++ x :: rest).length - 1 = pre.length + rest.length := by simp
  have htak : (pre ++ x :: rest).take (pre.length + rest.length) =
      pre ++ x :: rest.take (rest.length - 1) := by
    rw [take_append, take_of_length_le (by omega), Nat.add_sub_cancel_left]
    obtain ⟨n, hn⟩ := Nat.exists_eq_succ_of_ne_zero hpos.ne'
    rw [hn]
    rfl
  have hind : ((pre ++ x :: rest).take (pre.length + rest.length)).findIdx test =
      pre.length := by
    rw [htak, findIdx_append, findIdx_eq_length_of_false hpre]
    simp [hx, findIdx_cons]
  unfold moveToEnd
  rw [if_neg (by simp)]
  simp only [hlas, hind]
  rw [if_pos (by omega)]
  simp only [getElem?_append_right le_rfl, Nat.sub_self, getElem?_cons_zero,
    Nat.add_sub_cancel_left, shift_append]
  simp

theorem moveToEnd_of_forall {test : α → Bool} {states : List α}
    (h : ∀ s ∈ states.dropLast, test s = false) : moveToEnd test states = states := by
  unfold moveToEnd
  split_ifs with hzer
  · rfl
  · dsimp only
    rw [← dropLast_eq_take, findIdx_eq_length_of_false h, length_dropLast, if_neg (lt_irrefl _)]

theorem moveToEnd_cases (test : α → Bool) (states : List α) :
    ((∀ s ∈ states.dropLast, test s = false) ∧ moveToEnd test states = states) ∨
    ∃ pre x rest, states = pre ++ x :: rest ∧ (∀ s ∈ pre, test s = false) ∧ test x = true ∧
      moveToEnd test states = pre ++ rest ++ [x] := by
  by_cases h : ∀ s ∈ states.dropLast, test s = false
  · exact .inl ⟨h, moveToEnd_of_forall h⟩
  · right
    push Not at h
    obtain ⟨s, hs, htes⟩ := h
    obtain ⟨pre, x, rest, hx, hpre⟩ : ∃ pre x rest, states.dropLast = pre ++ x :: rest ∧
        test x = true ∧ ∀ s ∈ pre, test s = false := by
      have hfin : (states.dropLast.find? test).isSome := by
        rw [find?_isSome]
        exact ⟨s, hs, by simpa using htes⟩
      obtain ⟨x, hx⟩ := isSome_iff_exists.mp hfin
      obtain ⟨htru, pre, rest, heq, hpre⟩ := find?_eq_some_iff_append.mp hx
      exact ⟨pre, x, rest, heq, htru, fun s hs => by simpa using hpre s hs⟩
    have hne : states ≠ [] := by
      intro hnil
      rw [hnil] at hs
      cases hs
    obtain ⟨y, hy⟩ : ∃ y, states = pre ++ x :: (rest ++ [y]) := by
      refine ⟨states.getLast hne, ?_⟩
      rw [← cons_append, ← append_assoc, ← hx, dropLast_concat_getLast]
    refine ⟨pre, x, rest ++ [y], hy, hpre.2, hpre.1, ?_⟩
    rw [hy]
    exact moveToEnd_append hpre.2 hpre.1 (by simp)

end Move

section Choice

variable {α : Type} {isDefault holds : α → Bool}

def applies (isDefault holds : α → Bool) (s : α) : Bool := !isDefault s && holds s

variable {states : List α}

theorem find?_holds_of_no_default (h : ∀ s ∈ states, isDefault s = false) :
    states.find? holds = states.find? (applies isDefault holds) := by
  induction states with
  | nil => rfl
  | cons s states ih =>
    have hs : applies isDefault holds s = holds s := by simp [applies, h s]
    rw [find?_cons, find?_cons, hs, ih fun t ht => h t (mem_cons_of_mem s ht)]

theorem takeWhile_append_of_find? {test : α → Bool} {w : α}
    (h : states.find? test = some w) (more : List α) :
    ((states ++ more).takeWhile fun s => !test s) = states.takeWhile fun s => !test s := by
  induction states with
  | nil => cases h
  | cons s states ih =>
    by_cases hs : test s = true
    · simp [hs]
    · rw [find?_cons_of_neg hs] at h
      simp [hs, ih h]

theorem takeWhile_append_of_find?_eq_none {test : α → Bool}
    (h : states.find? test = none) (more : List α) :
    ((states ++ more).takeWhile fun s => !test s) = states ++ more.takeWhile fun s => !test s := by
  apply takeWhile_append_of_pos
  intro s hs
  simpa using find?_eq_none.mp h s hs

variable (hdefault : ∀ s, isDefault s = true → holds s = true)

include hdefault in
theorem find?_holds_eq_iff {w : α}
    (hw : states.find? (applies isDefault holds) = some w) : states.find? holds = some w ↔
      (states.takeWhile fun s => !applies isDefault holds s).countP isDefault = 0 := by
  induction states with
  | nil => cases hw
  | cons s states ih =>
    by_cases happ : applies isDefault holds s = true
    · rw [find?_cons_of_pos happ] at hw
      have hhol : holds s = true := by
        unfold applies at happ
        exact (Bool.and_eq_true_iff.mp happ).2
      rw [find?_cons_of_pos hhol, hw]
      simp [happ]
    · rw [find?_cons_of_neg happ] at hw
      rw [takeWhile_cons_of_pos (by simpa using happ)]
      by_cases hs : isDefault s = true
      · rw [find?_cons_of_pos (hdefault s hs), countP_cons_of_pos hs]
        refine iff_of_false (fun heq => ?_) (Nat.succ_ne_zero _)
        cases heq
        exact happ (find?_some hw)
      · have hhol : ¬holds s = true := by
          intro hhol
          exact happ (by simp [applies, hs, hhol])
        rw [find?_cons_of_neg hhol, countP_cons_of_neg hs]
        exact ih hw

structure LastResort (isDefault holds : α → Bool) (states : List α) (chosen : Option α) : Prop where
  default : ∀ s, chosen = some s → isDefault s = true →
    ∀ w ∈ states, isDefault w = false → holds w = false
  first : ∀ w, states.find? (applies isDefault holds) = some w → chosen = some w

theorem applies_eq_false_iff {s : α} :
    applies isDefault holds s = false ↔ (isDefault s = false → holds s = false) := by
  unfold applies
  cases isDefault s <;> simp

theorem lastResort_iff_first {chosen : Option α} :
    LastResort isDefault holds states chosen ↔
      ∀ w, states.find? (applies isDefault holds) = some w → chosen = some w := by
  refine ⟨LastResort.first, fun h => ⟨fun s hs hdefault w hw hwhe => ?_, h⟩⟩
  by_contra hhol
  have hnon : states.find? (applies isDefault holds) = none := by
    cases hfin : states.find? (applies isDefault holds) with
    | none => rfl
    | some v =>
      obtain rfl := some.inj (hs.symm.trans (h v hfin))
      have happ := find?_some hfin
      simp [applies, hdefault] at happ
  exact hhol (applies_eq_false_iff.mp (by simpa using find?_eq_none.mp hnon w hw) hwhe)

theorem countP_takeWhile_of_dropLast {w : α}
    (hfin : states.find? (applies isDefault holds) = some w)
    (hnon : ∀ s ∈ states.dropLast, isDefault s = false) :
    (states.takeWhile fun s => !applies isDefault holds s).countP isDefault = 0 := by
  have happ := find?_some hfin
  obtain ⟨_, before, after, hsta, hbef⟩ := find?_eq_some_iff_append.mp hfin
  rw [hsta, takeWhile_append_of_pos hbef,
    takeWhile_cons_of_neg (by simp [happ]), append_nil, countP_eq_zero]
  intro s hs
  have hdro : s ∈ states.dropLast := by
    rw [hsta, dropLast_append_cons]
    exact mem_append_left _ hs
  simp [hnon s hdro]

include hdefault in
theorem find?_holds_moved_iff {pre rest : List α} {x w : α}
    (hpre : ∀ s ∈ pre, isDefault s = false) (hx : isDefault x = true)
    (hfin : (pre ++ x :: rest).find? (applies isDefault holds) = some w) :
    (pre ++ (rest ++ [x])).find? holds = some w ↔
      ((pre ++ x :: rest).takeWhile fun s => !applies isDefault holds s).countP isDefault ≤ 1 := by
  have hxap : ¬applies isDefault holds x = true := by simp [applies, hx]
  have hcou : pre.countP isDefault = 0 := by
    rw [countP_eq_zero]
    intro s hs
    simp [hpre s hs]
  rw [find?_append] at hfin
  rw [find?_append, find?_holds_of_no_default hpre]
  cases hfir : pre.find? (applies isDefault holds) with
  | some v =>
    rw [hfir] at hfin
    rw [takeWhile_append_of_find? hfir]
    refine iff_of_true hfin ?_
    have hle : (pre.takeWhile fun s => !applies isDefault holds s).countP isDefault ≤
        pre.countP isDefault := (takeWhile_sublist _).countP_le
    omega
  | none =>
    rw [hfir, none_or, find?_cons_of_neg hxap] at hfin
    have hmov : (rest ++ [x]).find? (applies isDefault holds) = some w := by
      rw [find?_append, hfin, some_or]
    rw [none_or, find?_holds_eq_iff hdefault hmov, takeWhile_append_of_find? hfin,
      takeWhile_append_of_find?_eq_none hfir, takeWhile_cons_of_pos (by simp [hxap]), countP_append,
      hcou, countP_cons_of_pos hx]
    omega

include hdefault in
theorem lastResort_moveToEnd_iff (states : List α) :
    LastResort isDefault holds states ((moveToEnd isDefault states).find? holds) ↔
      (∀ w ∈ states, isDefault w = false → holds w = false) ∨
        (states.takeWhile fun s => !applies isDefault holds s).countP isDefault ≤ 1 := by
  rw [lastResort_iff_first]
  cases hfin : states.find? (applies isDefault holds) with
  | none =>
    refine iff_of_true (fun w hw => by cases hw) (.inl fun w hw => ?_)
    exact applies_eq_false_iff.mp (by simpa using find?_eq_none.mp hfin w hw)
  | some w =>
    have hsom : ¬∀ w ∈ states, isDefault w = false → holds w = false := by
      intro h
      have happ := find?_some hfin
      rw [applies_eq_false_iff.mpr (h w (mem_of_find?_eq_some hfin))] at happ
      cases happ
    have hone : (∀ v, some w = some v → (moveToEnd isDefault states).find? holds = some v) ↔
          (moveToEnd isDefault states).find? holds = some w :=
      ⟨fun h => h w rfl, fun h v hv => by rw [← hv, h]⟩
    rw [hone, or_iff_right hsom]
    obtain ⟨hnon, heq⟩ | ⟨pre, x, rest, hsta, hpre, hx, heq⟩ :=
      moveToEnd_cases isDefault states
    · -- nothing is moved
      rw [heq, find?_holds_eq_iff hdefault hfin]
      have hzer := countP_takeWhile_of_dropLast hfin hnon
      omega
    · rw [hsta] at hfin
      rw [heq, hsta, append_assoc]
      exact find?_holds_moved_iff hdefault hpre hx hfin

end Choice

variable (regex : String → String → Bool) (scope : Scope F M)

theorem holds_of_isDefault {s : StableState F} (h : s.isDefault = true) :
    s.holds regex scope = true := by
  have hdefault : ∃ token, s.condition = .leaf (.symbol "DEFAULT" token) := by
    unfold StableState.isDefault priority at h
    split at h
    · rename_i name token hcon
      split_ifs at h with hnam
      · exact ⟨token, hnam ▸ hcon⟩
      · cases h
    · cases h
  obtain ⟨token, hcon⟩ := hdefault
  rw [StableState.holds, hcon]
  rfl

open MachineInstance

theorem validState_setStateMachine (c : MachineClass F) (n : ℕ) :
    ((setStateMachine c)^[n + 1] .new).validState regex scope =
      c.stableStates.find? (StableState.holds regex scope) := by
  induction n with
  | zero => rfl
  | succ n ih =>
    rw [Function.iterate_succ_apply', validState]
    rw [validState] at ih
    rw [setStateMachine, List.find?_append, ih, Option.or_self]

/-- An instance of a class takes a default state only as a last resort exactly if no condition
holds or at most one default state is declared before the first condition that does. -/
theorem lastResort_iff (definitions : List (Definition F)) (n : ℕ) :
    LastResort StableState.isDefault (StableState.holds regex scope) (parse definitions)
        (((MachineInstance.setStateMachine
            (MachineClass.parsed definitions).semanticAnalysis)^[n + 1] .new).validState
          regex scope) ↔
      (∀ w ∈ parse definitions, w.isDefault = false → w.holds regex scope = false) ∨
        ((parse definitions).takeWhile fun s =>
          !applies StableState.isDefault (StableState.holds regex scope) s).countP
            StableState.isDefault ≤ 1 := by
  rw [validState_setStateMachine]
  exact lastResort_moveToEnd_iff (fun s => holds_of_isDefault regex scope) (parse definitions)

def idleDefinitions : List (Definition ℚ) :=
  [.default "Idle", .default "Waiting",
    .when "Working" (.leaf (.symbol "TRUE" (some "TRUE"))) (by decide) []]

theorem idle_waits_while_working :
    ¬LastResort StableState.isDefault (StableState.holds (fun _ _ => false) emptyScope)
      (parse idleDefinitions) ((MachineInstance.new.setStateMachine
        (MachineClass.parsed idleDefinitions).semanticAnalysis).validState
          (fun _ _ => false) emptyScope) := by
  intro h
  have hdefault := h.default ⟨"Waiting", defaultPredicate, []⟩ rfl (by decide)
    ⟨"Working", .leaf (.symbol "TRUE" (some "TRUE")), []⟩ (by decide) (by decide)
  cases hdefault

end Clockwork.StableStates
