import Clockwork.Library.Runs
import Clockwork.Library.Writes
import Clockwork.StableStates

namespace Clockwork.StableStateCheck

open StableStates Runs Writes List Option

variable {F M : Type} [DecidableEq M]

/-- A machine without an I/O interface, of a class other than `LIST` and `REFERENCE`, when its
stable states are checked, and what it finds of the machines that are its flags. -/
structure Machine (F M : Type) where
  self : M
  inst : MachineInstance F
  allowAutoStates : Bool
  executingCommand : Bool
  hasMail : Bool
  regex : String → String → Bool
  lookup : String → Option M
  hasState : M → String → Bool
  expectedAuthority : M → ℕ
  isActive : M → Bool
  /-- the trigger of a subcondition, if it has one, and whether it has fired; by the numbers of the
  state and of the handler -/
  trigger : ℕ → ℕ → Option Bool

structure World (M : Type) where
  state : M → String
  triggered : ℕ → ℕ → Bool
  enqueued : List (M × String)

/-- The state changes that handlers make, if they run, while a machine leaves its state and when it
has entered another one. -/
structure Reaction (M : Type) where
  leaving : List (M × String)
  entering : List (M × String)
deriving DecidableEq

/-- No handler changes the state of `f`. -/
def Reaction.Spares (r : Reaction M) (f : M) : Prop := ∀ c ∈ r.leaving ++ r.entering, c.1 ≠ f

def World.react (w : World M) (changes : List (M × String)) : World M :=
  { w with state := replay w.state changes }

@[simp] theorem World.react_state (w : World M) (changes : List (M × String)) :
    (w.react changes).state = replay w.state changes := rfl

/-- The loops find a subcondition, and the handler for the values that its condition has then. -/
structure Visit (F M : Type) where
  index : ℕ
  handler : ConditionHandler F
  scope : Scope F M
  reaction : Reaction M

def visits (handlers : List (ConditionHandler F)) (found : ℕ → Scope F M × Reaction M) :
    List (Visit F M) :=
  handlers.mapIdx fun i h => ⟨i, h, (found i).1, (found i).2⟩

section Select

variable {α : Type}

def select (test : α → Bool) : List α → Option (List α × α × List α)
  | [] => none
  | s :: rest =>
    if test s then some ([], s, rest)
    else (select test rest).map fun found => (s :: found.1, found.2)

theorem find?_of_select (test : α → Bool) (states : List α) :
    states.find? test = (select test states).map fun found => found.2.1 := by
  induction states with
  | nil => rfl
  | cons s states ih =>
    by_cases hs : test s = true
    · rw [select, if_pos hs, List.find?_cons_of_pos hs]
      rfl
    · rw [select, if_neg hs, List.find?_cons_of_neg hs, ih, Option.map_map]
      rfl

theorem select_eq_some {test : α → Bool} {states before after : List α} {s : α}
    (h : select test states = some (before, s, after)) : states = before ++ s :: after := by
  induction states generalizing before with
  | nil => cases h
  | cons x states ih =>
    rw [select] at h
    split_ifs at h
    · cases h
      rfl
    · obtain ⟨⟨before', rest⟩, hsel, heq⟩ := map_eq_some_iff.mp h
      cases heq
      rw [ih hsel, cons_append]

end Select

def subconditions (states : List (StableState F)) : List (ConditionHandler F) :=
  states.flatMap StableState.subconditionHandlers

namespace Machine

variable (m : Machine F M)

/-- `setState` without authority. A shadow passes the request on to its channel. -/
def setState (f : M) (state : String) (r : Reaction M) (w : World M) : World M :=
  if m.expectedAuthority f ≠ 0 ∨ w.state f = state then w
  else w.react (r.leaving ++ (f, state) :: r.entering)

def flag (h : ConditionHandler F) : Option M :=
  if h.commandName = "FLAG" then m.lookup h.flagName else none

/-- What the second loop does with a subcondition of a state that is not active. A flag without
the state that is set is a null pointer. -/
def turnOff (w : World M) (v : Visit F M) : Option (World M) :=
  match m.flag v.handler with
  | none => some w
  | some f =>
    if w.state f = "off" then some w
    else if m.hasState f "off" then some (m.setState f "off" v.reaction w)
    else none

variable [Double F]

def holds (v : Visit F M) : Bool := (evaluate m.regex v.scope v.handler.condition).any Value.truth

def wanted (v : Visit F M) : String := if m.holds v then "on" else "off"

def isReady (i : ℕ) (w : World M) (v : Visit F M) : Bool :=
  !w.triggered i v.index && (m.trigger i v.index).getD true && m.holds v

/-- `ConditionHandler::check` for a subcondition of the active state, which has the number `i`. -/
def check (i : ℕ) (w : World M) (v : Visit F M) : Option (World M) :=
  match m.flag v.handler with
  | some f =>
    if w.state f = m.wanted v then some w
    else if m.isActive f then some { w with enqueued := (f, m.wanted v) :: w.enqueued }
    else if m.hasState f (m.wanted v) then some (m.setState f (m.wanted v) v.reaction w)
    else none
  | none =>
    if v.handler.commandName ≠ "FLAG" ∧ m.isReady i w v then
      -- the command runs at once
      some ({ w with
        triggered := Function.update w.triggered i
          (Function.update (w.triggered i) v.index true) }.react
            (v.reaction.leaving ++ v.reaction.entering))
    else some w

variable (scope : Scope F M)

def active : Option (List (StableState F) × StableState F × List (StableState F)) :=
  select (StableState.holds m.regex scope) m.inst.stableStates

def changing (w : World M) (i : ℕ) (s : StableState F) : World M where
  state := w.state
  triggered := Function.update w.triggered i fun _ => false
  enqueued := [(m.self, s.stateName)]

variable (found : ℕ → Scope F M × Reaction M)

def setStableState (w : World M) : Option (World M × Bool) :=
  if !m.allowAutoStates || m.executingCommand || m.hasMail then
    some ({ w with enqueued := [] }, false)
  else
    match m.active scope with
    | none => some ({ w with enqueued := [] }, false)
    | some (before, s, after) =>
      if w.state m.self ≠ s.stateName then
        (execute m.turnOff (m.changing w before.length s)
          (visits (subconditions (before ++ after)) found)).map (·, true)
      else
        (execute (m.check before.length) { w with enqueued := [] }
          (visits s.subconditionHandlers found)).map (·, false)

def flags (handlers : List (ConditionHandler F)) : List M := handlers.filterMap m.flag

/-- After a change to `s`, with the other stable states given. -/
structure Changed (w t : World M) (s : StableState F) (others : List (StableState F)) : Prop where
  once : (t.enqueued.filter fun c => c.1 = m.self) = [(m.self, s.stateName)]
  valid : m.inst.firstValidStableState m.regex scope = some s.stateName
  off : ∀ f ∈ m.flags (subconditions others), t.state f = "off"
  kept : ∀ f ∈ m.flags s.subconditionHandlers, f ∉ m.flags (subconditions others) →
    t.state f = w.state f

structure Settles (w t : World M) : Prop where
  enqueues_iff : (∃ name, (m.self, name) ∈ t.enqueued) ↔
    ∃ s, m.inst.validState m.regex scope = some s ∧ s.stateName ≠ w.state m.self
  changed : ∀ before s after, m.active scope = some (before, s, after) →
    s.stateName ≠ w.state m.self → m.Changed scope w t s (before ++ after)

def AsksSelf (w : World M) (v : Visit F M) : Prop :=
  m.flag v.handler = some m.self ∧ w.state m.self ≠ m.wanted v ∧ m.isActive m.self = true

def Watches (f : M) : Prop := f = m.self ∨ f ∈ m.flags (subconditions m.inst.stableStates)

/-- Handlers that run meanwhile change the state of neither the machine nor its flags, and a flag
that is on or off has this state. -/
structure Undisturbed (w : World M) : Prop where
  spared : ∀ i f, m.Watches f → (found i).2.Spares f
  valid : ∀ f, m.Watches f → w.state f = "on" ∨ w.state f = "off" → m.hasState f (w.state f)

/-- After a change the flags of the other states can be turned off, as they need no authority;
otherwise the flags of the active state can be set, and none of them is the machine itself. -/
structure Ready (w : World M) : Prop where
  changed : ∀ before s after, m.active scope = some (before, s, after) →
    s.stateName ≠ w.state m.self →
      (s.stateName = "" → m.inst.stateMachine.map MachineClass.defaultState = some "") ∧
      ∀ f ∈ m.flags (subconditions (before ++ after)),
        w.state f = "off" ∨ m.hasState f "off" = true ∧ m.expectedAuthority f = 0
  unchanged : ∀ before s after, m.active scope = some (before, s, after) →
    s.stateName = w.state m.self → ∀ v ∈ visits s.subconditionHandlers found, ¬m.AsksSelf w v ∧
      ∀ f, m.flag v.handler = some f → m.isActive f = true ∨ m.hasState f (m.wanted v) = true

variable {m} {t w : World M} {v : Visit F M} {vs : List (Visit F M)} {i : ℕ} {f : M}

omit [Double F] in
theorem setState_state {g : M} {state : String} {r : Reaction M} (h : r.Spares f) :
    (m.setState g state r w).state f =
      if g = f ∧ m.expectedAuthority f = 0 then state else w.state f := by
  have hlea : last f r.leaving = none := last_eq_none fun c hc => h c (mem_append_left _ hc)
  have hent : last f r.entering = none := last_eq_none fun c hc => h c (mem_append_right _ hc)
  unfold setState
  by_cases hg : g = f
  · subst hg
    split_ifs <;> simp_all [replay_apply, last_append, last]
  · split_ifs <;> simp_all [replay_apply, last_append, last]

omit [Double F] in
theorem setState_enqueued {g : M} {state : String} {r : Reaction M} :
    (m.setState g state r w).enqueued = w.enqueued := by
  unfold setState
  split_ifs <;> rfl

omit [Double F] in
theorem turnOff_isSome_iff : (∃ t, m.turnOff w v = some t) ↔
    ∀ f, m.flag v.handler = some f → w.state f = "off" ∨ m.hasState f "off" = true := by
  unfold turnOff
  cases m.flag v.handler with
  | none => simp
  | some f =>
    dsimp only
    split_ifs <;> simp_all

omit [Double F] in
theorem turnOff_spec (h : m.turnOff w v = some t) : t.enqueued = w.enqueued ∧
    ∀ f, v.reaction.Spares f → t.state f =
      if m.flag v.handler = some f ∧ m.expectedAuthority f = 0 then "off" else w.state f := by
  unfold turnOff at h
  cases hfla : m.flag v.handler with
  | none =>
    rw [hfla] at h
    cases h
    simp
  | some g =>
    rw [hfla] at h
    dsimp only at h
    split_ifs at h with hoff
    · cases h
      refine ⟨rfl, fun f _ => ?_⟩
      split_ifs with hf
      · rwa [← some.inj hf.1]
      · rfl
    · cases h
      refine ⟨setState_enqueued, fun f hf => ?_⟩
      simp only [setState_state hf, some.injEq]

section Watched

variable {W : M → Prop} (hspa : ∀ v ∈ vs, ∀ f, W f → v.reaction.Spares f)
  (hwat : ∀ v ∈ vs, ∀ f, m.flag v.handler = some f → W f)

omit [Double F] in
include hspa in
theorem turnOff_run (h : execute m.turnOff w vs = some t) : t.enqueued = w.enqueued ∧
    ∀ f, W f → t.state f = if (∃ v ∈ vs, m.flag v.handler = some f) ∧
      m.expectedAuthority f = 0 then "off" else w.state f := by
  induction vs generalizing w with
  | nil =>
    cases h
    simp
  | cons v vs ih =>
    obtain ⟨u, hu, hrun⟩ := bind_eq_some_iff.mp h
    rw [forall_mem_cons] at hspa
    obtain ⟨henq, hsta⟩ := turnOff_spec hu
    obtain ⟨henq', hsta'⟩ := ih hspa.2 hrun
    refine ⟨henq'.trans henq, fun f hf => ?_⟩
    rw [hsta' f hf, hsta f (hspa.1 f hf)]
    simp only [mem_cons, exists_eq_or_imp]
    by_cases hv : m.flag v.handler = some f <;>
      by_cases hvs : ∃ v ∈ vs, m.flag v.handler = some f <;>
      by_cases haut : m.expectedAuthority f = 0 <;> simp [hv, hvs, haut]

omit [Double F] in
include hspa hwat in
theorem turnOff_run_iff : (∃ t, execute m.turnOff w vs = some t) ↔
    ∀ v ∈ vs, ∀ f, m.flag v.handler = some f → w.state f = "off" ∨ m.hasState f "off" = true := by
  induction vs generalizing w with
  | nil => simp [execute]
  | cons v vs ih =>
    rw [forall_mem_cons] at hspa hwat
    rw [forall_mem_cons, ← turnOff_isSome_iff]
    constructor
    · rintro ⟨t, h⟩
      obtain ⟨u, hu, hrun⟩ := bind_eq_some_iff.mp h
      refine ⟨⟨u, hu⟩, fun v' hv' f hf => ?_⟩
      have hsta := (turnOff_spec hu).2 f (hspa.1 f (hwat.2 v' hv' f hf))
      have hoff := (ih hspa.2 hwat.2).mp ⟨t, hrun⟩ v' hv' f hf
      rw [hsta] at hoff
      split_ifs at hoff with hfla
      · exact turnOff_isSome_iff.mp ⟨u, hu⟩ f hfla.1
      · exact hoff
    · rintro ⟨⟨u, hu⟩, hall⟩
      obtain ⟨t, ht⟩ := (ih (w := u) hspa.2 hwat.2).mpr fun v' hv' f hf => by
        rw [(turnOff_spec hu).2 f (hspa.1 f (hwat.2 v' hv' f hf))]
        split_ifs
        · exact .inl rfl
        · exact hall v' hv' f hf
      exact ⟨t, by rw [execute, hu, bind_some, ht]⟩

theorem check_isSome_iff : (∃ t, m.check i w v = some t) ↔ ∀ f, m.flag v.handler = some f →
    w.state f = m.wanted v ∨ m.isActive f = true ∨ m.hasState f (m.wanted v) = true := by
  unfold check
  cases m.flag v.handler with
  | none =>
    split_ifs <;> simp
  | some f =>
    dsimp only
    split_ifs <;> simp_all

theorem check_state (h : m.check i w v = some t) (hf : v.reaction.Spares f) :
    t.state f = w.state f ∨
      m.isActive f = false ∧ m.hasState f (m.wanted v) = true ∧ t.state f = m.wanted v := by
  unfold check at h
  cases hfla : m.flag v.handler with
  | none =>
    rw [hfla] at h
    dsimp only at h
    split_ifs at h <;> cases h
    · left
      rw [World.react_state, replay_apply, last_eq_none hf]
      rfl
    · exact .inl rfl
  | some g =>
    rw [hfla] at h
    dsimp only at h
    split_ifs at h with hsta hact hhas <;> cases h
    · exact .inl rfl
    · exact .inl rfl
    · rw [setState_state hf]
      split_ifs with hg
      · obtain ⟨rfl, -⟩ := hg
        exact .inr ⟨by simpa using hact, hhas, rfl⟩
      · exact .inl rfl

theorem check_enqueued (h : m.check i w v = some t) : (∃ name, (m.self, name) ∈ t.enqueued) ↔
    (∃ name, (m.self, name) ∈ w.enqueued) ∨ m.AsksSelf w v := by
  unfold check at h
  unfold AsksSelf
  cases hfla : m.flag v.handler with
  | none =>
    rw [hfla] at h
    split_ifs at h <;> cases h <;> simp [World.react]
  | some g =>
    rw [hfla] at h
    dsimp only at h
    split_ifs at h with hsta hact hhas <;> cases h
    · grind
    · grind
    · rw [setState_enqueued]
      grind

include hspa hwat in
theorem check_run_iff (hself : W m.self)
    (hval : ∀ f, W f → w.state f = "on" ∨ w.state f = "off" → m.hasState f (w.state f) = true) :
    (∃ t, execute (m.check i) w vs = some t ∧ ¬∃ name, (m.self, name) ∈ t.enqueued) ↔
      (¬∃ name, (m.self, name) ∈ w.enqueued) ∧ ∀ v ∈ vs, ¬m.AsksSelf w v ∧
        ∀ f, m.flag v.handler = some f →
          m.isActive f = true ∨ m.hasState f (m.wanted v) = true := by
  induction vs generalizing w with
  | nil => simp [execute]
  | cons v vs ih =>
    rw [forall_mem_cons] at hspa hwat
    have hwan : m.wanted v = "on" ∨ m.wanted v = "off" := by
      unfold wanted
      split_ifs <;> simp
    have hche : (∃ u, m.check i w v = some u) ↔ ∀ f, m.flag v.handler = some f →
        m.isActive f = true ∨ m.hasState f (m.wanted v) = true := by
      rw [check_isSome_iff]
      refine forall_congr' fun f => forall_congr' fun hf => ⟨?_, .inr⟩
      rintro (hsta | h)
      · have hhas := hval f (hwat.1 f hf)
        rw [hsta] at hhas
        exact .inr (hhas hwan)
      · exact h
    have hste {u : World M} (hu : m.check i w v = some u) :
        (∃ t, execute (m.check i) u vs = some t ∧ ¬∃ name, (m.self, name) ∈ t.enqueued) ↔
          ((¬∃ name, (m.self, name) ∈ w.enqueued) ∧ ¬m.AsksSelf w v) ∧
            ∀ v' ∈ vs, ¬m.AsksSelf w v' ∧ ∀ f, m.flag v'.handler = some f →
              m.isActive f = true ∨ m.hasState f (m.wanted v') = true := by
      have hsel (v' : Visit F M) : m.AsksSelf u v' ↔ m.AsksSelf w v' := by
        unfold AsksSelf
        rcases check_state hu (hspa.1 _ hself) with heq | ⟨hact, -⟩
        · rw [heq]
        · simp [hact]
      rw [ih hspa.2 hwat.2 fun f hf hon => ?_, check_enqueued hu, not_or]
      · simp only [hsel]
      · rcases check_state hu (hspa.1 f hf) with heq | ⟨-, hhas, heq⟩
        · rw [heq] at hon ⊢
          exact hval f hf hon
        · rwa [heq]
    rw [forall_mem_cons, ← hche]
    constructor
    · rintro ⟨t, h, hnot⟩
      obtain ⟨u, hu, hrun⟩ := bind_eq_some_iff.mp h
      obtain ⟨⟨hnon, hask⟩, hall⟩ := (hste hu).mp ⟨t, hrun, hnot⟩
      exact ⟨hnon, ⟨hask, u, hu⟩, hall⟩
    · rintro ⟨hnon, ⟨hask, u, hu⟩, hall⟩
      obtain ⟨t, hrun, hnot⟩ := (hste hu).mpr ⟨⟨hnon, hask⟩, hall⟩
      exact ⟨t, by rw [execute, hu, bind_some, hrun], hnot⟩

end Watched

omit [DecidableEq M] in
theorem validState_eq :
    m.inst.validState m.regex scope = (m.active scope).map fun found => found.2.1 :=
  find?_of_select _ _

omit [DecidableEq M] in
theorem firstValidStableState_iff {scope : Scope F M} {s : StableState F}
    (h : m.inst.validState m.regex scope = some s) :
    m.inst.firstValidStableState m.regex scope = some s.stateName ↔
      (s.stateName = "" → m.inst.stateMachine.map MachineClass.defaultState = some "") := by
  unfold MachineInstance.firstValidStableState
  rw [h]
  show (if s.stateName = "" then _ else _) = _ ↔ _
  by_cases hemp : s.stateName = ""
  · rw [if_pos hemp, hemp]
    simp
  · rw [if_neg hemp]
    simp [hemp]

section Active

variable {scope : Scope F M} {found : ℕ → Scope F M × Reaction M} {w : World M}
  {before after : List (StableState F)} {s : StableState F} {handlers : List (ConditionHandler F)}

omit [Double F] [DecidableEq M] in
theorem mem_flags_iff :
    f ∈ m.flags handlers ↔ ∃ v ∈ visits handlers found, m.flag v.handler = some f := by
  simp only [flags, visits, mem_filterMap, mem_mapIdx]
  constructor
  · rintro ⟨c, hc, hf⟩
    obtain ⟨i, hi, rfl⟩ := mem_iff_getElem.mp hc
    exact ⟨_, ⟨i, hi, rfl⟩, hf⟩
  · rintro ⟨_, ⟨i, hi, rfl⟩, hf⟩
    exact ⟨_, getElem_mem hi, hf⟩

omit [Double F] [DecidableEq M] in
theorem spared_of_visit (hund : m.Undisturbed found w) (handlers : List (ConditionHandler F)) :
    ∀ v ∈ visits handlers found, ∀ f, m.Watches f → v.reaction.Spares f := by
  intro v hv f hf
  obtain ⟨i, hi, rfl⟩ := mem_mapIdx.mp hv
  exact hund.spared i f hf

variable (hactive : m.active scope = some (before, s, after))

include hactive

omit [DecidableEq M] in
theorem stableStates_eq : m.inst.stableStates = before ++ s :: after := select_eq_some hactive

omit [DecidableEq M] in
theorem watches_of_visit (found : ℕ → Scope F M × Reaction M)
    (h : handlers ⊆ subconditions (before ++ s :: after)) :
    ∀ v ∈ visits handlers found, ∀ f, m.flag v.handler = some f → m.Watches f := by
  intro v hv f hf
  rw [Watches, stableStates_eq hactive]
  obtain ⟨c, hc, hf⟩ := mem_filterMap.mp (mem_flags_iff.mpr ⟨v, hv, hf⟩)
  exact .inr (mem_filterMap.mpr ⟨c, h hc, hf⟩)

theorem changed_iff (hund : m.Undisturbed found w) :
    (∃ t, execute m.turnOff (m.changing w before.length s)
        (visits (subconditions (before ++ after)) found) = some t ∧
      m.Changed scope w t s (before ++ after)) ↔
      (s.stateName = "" → m.inst.stateMachine.map MachineClass.defaultState = some "") ∧
      ∀ f ∈ m.flags (subconditions (before ++ after)),
        w.state f = "off" ∨ m.hasState f "off" = true ∧ m.expectedAuthority f = 0 := by
  have hspa := spared_of_visit hund (subconditions (before ++ after))
  have hsub : subconditions (before ++ after) ⊆ subconditions (before ++ s :: after) := by
    simp [subconditions]
  have hwat := watches_of_visit hactive found hsub
  have hrun := turnOff_run_iff (w := m.changing w before.length s) hspa hwat
  have hval : m.inst.validState m.regex scope = some s := by
    rw [validState_eq, hactive]
    rfl
  rw [← firstValidStableState_iff hval]
  constructor
  · rintro ⟨t, ht, hcha⟩
    refine ⟨hcha.valid, fun f hf => ?_⟩
    obtain ⟨v, hv, hfla⟩ := mem_flags_iff.mp hf
    have hsta := (turnOff_run hspa ht).2 f (hwat v hv f hfla)
    rw [hcha.off f hf] at hsta
    split_ifs at hsta with haut
    · exact (hrun.mp ⟨t, ht⟩ v hv f hfla).imp_right fun hhas => ⟨hhas, haut.2⟩
    · exact .inl hsta.symm
  · rintro ⟨hnam, hall⟩
    obtain ⟨t, ht⟩ := hrun.mpr fun v hv f hfla =>
      (hall f (mem_flags_iff.mpr ⟨v, hv, hfla⟩)).imp_right And.left
    obtain ⟨henq, hsta⟩ := turnOff_run hspa ht
    refine ⟨t, ht, ?_, hnam, fun f hf => ?_, fun f hf hnot => ?_⟩
    · rw [henq]
      simp [changing]
    · obtain ⟨v, hv, hfla⟩ := mem_flags_iff.mp hf
      rw [hsta f (hwat v hv f hfla)]
      split_ifs with haut
      · rfl
      · exact (hall f hf).resolve_right fun h => haut ⟨⟨v, hv, hfla⟩, h.2⟩
    · obtain ⟨v, hv, hfla⟩ := mem_flags_iff.mp hf
      have hall := watches_of_visit hactive found (by simp [subconditions]) v hv f hfla
      rw [hsta f hall, if_neg fun h => hnot (mem_flags_iff.mpr h.1)]
      rfl

theorem unchanged_iff (hund : m.Undisturbed found w) :
    (∃ t, execute (m.check i) { w with enqueued := [] } (visits s.subconditionHandlers found) =
      some t ∧ ¬∃ name, (m.self, name) ∈ t.enqueued) ↔
      ∀ v ∈ visits s.subconditionHandlers found, ¬m.AsksSelf w v ∧
        ∀ f, m.flag v.handler = some f →
          m.isActive f = true ∨ m.hasState f (m.wanted v) = true := by
  have hsub : s.subconditionHandlers ⊆ subconditions (before ++ s :: after) := by
    simp [subconditions]
  have hwat := watches_of_visit hactive found hsub
  have hrun := check_run_iff (i := i) (w := { w with enqueued := [] }) (spared_of_visit hund _) hwat
    (.inl rfl) hund.valid
  rw [hrun]
  simp [AsksSelf]

theorem settles_iff_of_active {t : World M} : m.Settles scope w t ↔
    ((∃ name, (m.self, name) ∈ t.enqueued) ↔ s.stateName ≠ w.state m.self) ∧
      (s.stateName ≠ w.state m.self → m.Changed scope w t s (before ++ after)) := by
  have hval : (∃ s, m.inst.validState m.regex scope = some s ∧ s.stateName ≠ w.state m.self) ↔
      s.stateName ≠ w.state m.self := by
    rw [validState_eq, hactive]
    simp
  refine ⟨fun h => ⟨h.enqueues_iff.trans hval, h.changed _ _ _ hactive⟩,
    fun h => ⟨h.1.trans hval.symm, ?_⟩⟩
  intro before s after hact
  cases hactive.symm.trans hact
  exact h.2

theorem ready_iff_of_active (hund : m.Undisturbed found w) : m.Ready scope found w ↔
    (s.stateName ≠ w.state m.self → ∃ t, execute m.turnOff (m.changing w before.length s)
        (visits (subconditions (before ++ after)) found) = some t ∧
      m.Changed scope w t s (before ++ after)) ∧
    (s.stateName = w.state m.self → ∃ t, execute (m.check before.length) { w with enqueued := [] }
      (visits s.subconditionHandlers found) = some t ∧ ¬∃ name, (m.self, name) ∈ t.enqueued) := by
  rw [changed_iff hactive hund, unchanged_iff hactive hund]
  refine ⟨fun h => ⟨h.changed _ _ _ hactive, h.unchanged _ _ _ hactive⟩, fun h => ⟨?_, ?_⟩⟩
  · intro before s after hact
    cases hactive.symm.trans hact
    exact h.1
  · intro before s after hact
    cases hactive.symm.trans hact
    exact h.2

end Active

end Machine

def pumpScope : Scope ℚ Bool where
  currentStateVal := .empty
  hasState _ := false
  resolve _ := .empty
  getValue _ := .empty
  timerVal := 0
  lookup _ := none
  machineHasState _ _ := false

def pumpStates : List (StableState ℚ) :=
  [⟨"Filling", .leaf (.symbol "FALSE" (some "FALSE")),
      [⟨.leaf (.symbol "TRUE" (some "TRUE")), "FLAG", "alarm"⟩]⟩,
    ⟨"Full", .leaf (.symbol "TRUE" (some "TRUE")), []⟩]

def pump (authority : ℕ) : Machine ℚ Bool where
  self := false
  inst := ⟨some ⟨pumpStates, "unknown"⟩, pumpStates⟩
  allowAutoStates := true
  executingCommand := false
  hasMail := false
  regex _ _ := false
  lookup name := if name = "alarm" then some true else none
  hasState _ _ := true
  expectedAuthority f := if f then authority else 0
  isActive _ := true
  trigger _ _ := none

def filling : World Bool := ⟨fun f => if f then "on" else "Filling", fun _ _ => false, []⟩

def still : ℕ → Scope ℚ Bool × Reaction Bool := fun _ => (pumpScope, ⟨[], []⟩)

theorem undisturbed_filling (authority : ℕ) : (pump authority).Undisturbed still filling :=
  ⟨fun _ _ _ _ hc => absurd hc not_mem_nil, fun _ _ _ => rfl⟩

end Clockwork.StableStateCheck
