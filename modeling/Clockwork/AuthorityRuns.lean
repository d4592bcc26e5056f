import Clockwork.Authority

namespace Clockwork.Authority

variable {F M : Type} {env : Env F M} {w : M → Instance F} {x y : M} {a : UInt64} {depth : ℕ}

theorem route_assign {p : String} (h : route env w x p a = .assign) :
    env.expected x = 0 ∨ a ≠ 0 := by
  by_contra hcon
  rw [not_or, not_not] at hcon
  unfold route at h
  split at h
  · cases h
  split at h
  · split at h
    · split at h <;> cases h
    · cases h
  · cases h

variable [DecidableEq M] [Double F]

omit [Double F] in
theorem enterState_of_ne (h : y ≠ x) (st : String) : enterState w x st y = w y :=
  Function.update_of_ne h _ _

omit [Double F] in
theorem setProperty_of_ne (h : y ≠ x) (p : String) (v : Value F) : setProperty w x p v y = w y :=
  Function.update_of_ne h _ _

theorem updateOutput_of_ne (h : y ≠ x) (p : String) (v : Value F) :
    updateOutput env w x p v y = w y := by
  unfold updateOutput
  split
  · cases v.asInteger with
    | some i => exact setProperty_of_ne h _ _
    | none => rfl
  · rfl

theorem assign_of_ne (h : y ≠ x) (p : String) (v : Value F) : assign env w x p v y = w y := by
  unfold assign
  split
  · rw [updateOutput_of_ne h, setProperty_of_ne h]
  · rfl

theorem setState_changed {st : String} {resume : Bool}
    (h : (setState env w x st a resume).2 y ≠ w y) : y = x ∧ (env.expected x = 0 ∨ a ≠ 0) := by
  by_cases haut : env.expected x ≠ 0 ∧ a = 0
  · rw [setState, if_pos haut] at h
    exact absurd rfl h
  have hpas : env.expected x = 0 ∨ a ≠ 0 := by
    rw [not_and_or, not_not] at haut
    exact haut
  refine ⟨?_, hpas⟩
  by_contra hne
  apply h
  rw [setState, if_neg haut]
  split
  · rfl
  split
  · rfl
  split
  · exact enterState_of_ne hne st
  · simp only
    split
    · split
      · rfl
      · exact enterState_of_ne hne _
    · rfl

/-- The machine whose property a name denotes in the scope of another one, if nothing is
refused on the way. -/
inductive Addresses (env : Env F M) (w : M → Instance F) : M → String → M → Prop
  | own {x : M} {p : String} (a : UInt64) (h : route env w x p a = .assign) : Addresses env w x p x
  | forward {x y z : M} {p q : String} (a : UInt64) (h : route env w x p a = .forward y q)
      (h' : Addresses env w y q z) : Addresses env w x p z

theorem setValue_changed {p : String} {v : Value F} (h : (setValue env depth w x p v a).2 y ≠ w y) :
    Addresses env w x p y ∧ (env.expected y = 0 ∨ a ≠ 0) := by
  induction depth generalizing x p a with
  | zero => exact absurd rfl h
  | succ depth ih =>
    rw [setValue] at h
    cases hr : route env w x p a with
    | reply result =>
      rw [hr] at h
      exact absurd rfl h
    | forward z q =>
      rw [hr] at h
      obtain ⟨hadd, hpas⟩ := ih h
      -- the forwarded call carries no authority
      exact ⟨.forward a hr hadd, hpas.imp_right fun h0 => absurd rfl h0⟩
    | assign =>
      rw [hr] at h
      have hyx : y = x := by
        by_contra hne
        exact h (assign_of_ne hne p v)
      subst hyx
      exact ⟨.own a hr, route_assign hr⟩

def Call.For (env : Env F M) (s : System F M) : Call F M → M → Prop
  | .setState x _ _ _, y => y = x
  | .setValue x p _ _, y => Addresses env s.world x p y
  | .setStatus params, y =>
    ∃ ds st a, setStatusParams params = some (ds, st, a) ∧ env.find ds = some y
  | .property params, y => ∃ cmd machine property rest x,
      params = cmd :: machine :: property :: rest ∧ env.find machine.asString = some x ∧
        Addresses env s.world x property.asString y
  | .runAction i, y => ∃ p, s.pending[i]? = some p ∧ y = p.machine

def WithinAuthority (env : Env F M) (s : System F M) (c : Call F M) (_ : System F M) : Prop :=
  c.authority s = 0 ∨ ∀ y, c.For env s y → c.authority s = env.expected y

variable {params : List (Value F)}

theorem runSetStatus_changed (h : (runSetStatus env w params).2.1 y ≠ w y) :
    ∃ ds st a, setStatusParams params = some (ds, st, a) ∧ env.find ds = some y ∧
      (env.expected y = 0 ∨ a ≠ 0) := by
  unfold runSetStatus at h
  cases hp : setStatusParams params with
  | none =>
    rw [hp] at h
    exact absurd rfl h
  | some q =>
    obtain ⟨ds, st, a⟩ := q
    simp only [hp] at h
    cases ho : env.output ds st with
    | some r =>
      rw [ho] at h
      exact absurd rfl h
    | none =>
      simp only [ho] at h
      cases hx : env.find ds with
      | none =>
        rw [hx] at h
        exact absurd rfl h
      | some x =>
        simp only [hx] at h
        split at h
        · split at h
          · obtain ⟨rfl, hpas⟩ := setState_changed h
            exact ⟨ds, st, a, rfl, hx, hpas⟩
          · exact absurd rfl h
        · split at h <;> exact absurd rfl h

theorem runProperty_changed (h : (runProperty env depth w params).2 y ≠ w y) :
    ∃ cmd machine property rest x, params = cmd :: machine :: property :: rest ∧
      env.find machine.asString = some x ∧ Addresses env w x property.asString y ∧
      (env.expected y = 0 ∨ (propertyAuthority params).getD 0 ≠ 0) := by
  unfold runProperty at h
  match params, h with
  | cmd :: machine :: rest, h =>
    cases hx : env.find machine.asString with
    | none =>
      simp only [hx] at h
      exact absurd rfl h
    | some x =>
      simp only [hx] at h
      match rest, h with
      | property :: v :: more, h =>
        simp only at h
        split at h
        · exact absurd rfl h
        split at h
        · exact absurd rfl h
        obtain ⟨hadd, hpas⟩ := setValue_changed h
        exact ⟨cmd, machine, property, v :: more, x, rfl, hx, hadd, hpas⟩

theorem runSetStateAction_changed {st : String} (h : runSetStateAction env w x st y ≠ w y) :
    y = x ∧ env.expected x = 0 := by
  unfold runSetStateAction at h
  split at h
  · exact absurd rfl h
  · obtain ⟨hyx, hpas⟩ := setState_changed h
    exact ⟨hyx, hpas.resolve_right fun h0 => h0 rfl⟩

theorem perform_changed {s : System F M} {c : Call F M}
    (h : (perform env depth s c).1 y ≠ s.world y) :
    c.For env s y ∧ (env.expected y = 0 ∨ c.authority s ≠ 0) := by
  cases c with
  | setState x st a resume =>
    obtain ⟨rfl, hpas⟩ := setState_changed h
    exact ⟨rfl, hpas⟩
  | setValue x p v a => exact setValue_changed h
  | setStatus params =>
    obtain ⟨ds, st, a, hp, hx, hpas⟩ := runSetStatus_changed h
    refine ⟨⟨ds, st, a, hp, hx⟩, ?_⟩
    simpa [Call.authority, hp] using hpas
  | property params =>
    obtain ⟨cmd, machine, property, rest, x, hp, hx, hadd, hpas⟩ := runProperty_changed h
    exact ⟨⟨cmd, machine, property, rest, x, hp, hx, hadd⟩, hpas⟩
  | runAction i =>
    unfold perform at h
    cases hp : s.pending[i]? with
    | none =>
      simp only [hp] at h
      exact absurd rfl h
    | some p =>
      simp only [hp] at h
      obtain ⟨rfl, hpas⟩ := runSetStateAction_changed h
      exact ⟨⟨p, hp, rfl⟩, .inl hpas⟩

/-- Every change so far was the effect of a call with the expected authority. -/
def Authorised (env : Env F M) (s : System F M) : Prop :=
  ∀ x a, a ∈ s.changedBy x → a = env.expected x

theorem step_authorised {s t : System F M} {c : Call F M} (hs : Authorised env s)
    (h : Runs.Guarded (Step env) (WithinAuthority env) s c t) : Authorised env t := by
  obtain ⟨hste, hwit⟩ := h
  cases hste with
  | call depth =>
    intro x a ha
    rcases ha with ha | ⟨rfl, hcha⟩
    · exact hs x a ha
    · obtain ⟨hfor, hpas⟩ := perform_changed hcha
      rcases hwit with hzer | hexp
      · have h0 : env.expected x = 0 := hpas.resolve_right fun hne => hne hzer
        rw [hzer, h0]
      · exact hexp x hfor

/-- In a sequence of calls that carry no authority or the one expected by the machine
they are for, machines are only changed by calls with the authority they expect. -/
theorem changed_with_authority {s : System F M} {cs : List (Call F M)}
    (run : Runs.Run (Runs.Guarded (Step env) (WithinAuthority env)) (System.start w) cs s) :
    Authorised env s := by
  refine run.invariant (fun _ _ _ hs h => step_authorised hs h) ?_
  intro x a ha
  exact absurd ha (Set.notMem_empty a)

def pumpEnv : Env ℚ Unit where
  config _ :=
    { name := "pump"
      expectedAuthority := 7
      isShadow := false
      channelConnected := false
      isConstant := false
      states := ["off", "on"]
      globalReferences := fun _ => none
      filter := none
      hasIoInterface := false }
  lookup _ _ := none
  find _ := none
  getValue _ _ _ := .empty
  output _ _ := none

def pumpOff : Unit → Instance ℚ := fun _ => ⟨"off", fun _ => .empty⟩

theorem pump_turned_on (h : a ≠ 0) :
    (perform pumpEnv 0 (.start pumpOff) (.setState () "on" a false)).1 () ≠ pumpOff () := by
  intro heq
  have hsta := congrArg Instance.currentState heq
  simp [perform, setState, pumpEnv, Env.expected, h, System.start, pumpOff, enterState] at hsta

theorem pump_changed_with_seven :
    ∃ s, Runs.Run (Runs.Guarded (Step pumpEnv) (WithinAuthority pumpEnv)) (.start pumpOff)
        [.setState () "on" 7 false] s ∧ 7 ∈ s.changedBy () ∧ Authorised pumpEnv s := by
  have run : Runs.Run (Runs.Guarded (Step pumpEnv) (WithinAuthority pumpEnv)) (.start pumpOff)
      [.setState () "on" 7 false] _ :=
    .cons ⟨.call _ _ 0, .inr fun _ _ => rfl⟩ (.nil _)
  exact ⟨_, run, .inr ⟨rfl, pump_turned_on (by decide)⟩, changed_with_authority run⟩

/-- Any authority other than zero turns the pump on. -/
theorem pump_changed_with_five :
    ∃ s, Runs.Run (Step pumpEnv) (.start pumpOff) [.setState () "on" 5 false] s ∧
      5 ∈ s.changedBy () ∧ pumpEnv.expected () ≠ 5 := by
  refine ⟨_, .cons (.call _ _ 0) (.nil _), .inr ⟨rfl, pump_turned_on (by decide)⟩, ?_⟩
  decide

/-- After a command with the right authority a shadow is in the state that was asked for, or in
the initial state of its class if the class has no such state, exactly if it has it or the shadow
was in its initial state. -/
theorem shadow_state_iff (initial : String) {params : List (Value F)} {ds st : String}
    (hparams : setStatusParams params = some (ds, st, env.expected x))
    (houtput : env.output ds st = none) (hfind : env.find ds = some x)
    (hshadow : (env.config x).isShadow = true) :
    (runSetStatus env w params).1 = .ok "OK" ∧
    (((runSetStatus env w params).2.1 x).currentState =
        (if st ∈ (env.config x).states then st else initial) ∧
      ((runSetStatus env w params).2.1 x).currentState ∈ (env.config x).states ↔
      st ∈ (env.config x).states ∨
        (w x).currentState = initial ∧ initial ∈ (env.config x).states) := by
  simp only [runSetStatus, hparams, houtput, hfind, hshadow, if_true]
  by_cases hst : st ∈ (env.config x).states
  · have hset : ((setState env w x st (env.expected x) false).2 x).currentState = st := by
      unfold setState
      rw [if_neg (by simp), if_neg (by simp)]
      split_ifs with hcur
      · exact hcur.2
      · simp [enterState]
    simp [hst, hset]
  · simp only [hst, if_false, false_or, true_and]
    exact and_congr_right fun h => by rw [h]

def shadowEnv : Env ℚ Unit :=
  { pumpEnv with
    config := fun x => { pumpEnv.config x with isShadow := true }
    find := fun _ => some () }

def stateUp : List (Value ℚ) := [.string "STATE", .string "pump", .string "up", .integer 7]

theorem shadow_stays_off :
    ((runSetStatus shadowEnv pumpOff stateUp).2.1 ()).currentState = "off" := by
  have hpar : setStatusParams stateUp = some ("pump", "up", shadowEnv.expected ()) := rfl
  exact ((shadow_state_iff "off" hpar rfl rfl rfl).2.mpr (.inr ⟨rfl, by decide⟩)).1

/-- A shadow that is on does not go to its initial state `off`. -/
theorem unknown_state_ignored : "up" ∉ (shadowEnv.config ()).states ∧
    ∃ w, runSetStatus shadowEnv (fun _ => ⟨"on", fun _ => .empty⟩) stateUp = (.ok "OK", w, []) ∧
      (w ()).currentState = "on" :=
  ⟨by decide, _, rfl, rfl⟩

end Clockwork.Authority
