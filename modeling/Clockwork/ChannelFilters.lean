import Clockwork.ChannelMachines
import Mathlib.Order.Nat

namespace Clockwork.ChannelFilters

open ChannelMachines Registers List

variable {M V : Type} [DecidableEq M]

structure Instance (M V : Type) where
  published : M → ℤ
  channel : Channel M V
  monitorsPatterns : List String
  monitorsProperties : List (String × V)
  clock : ℕ

inductive Op (V : Type) where
  | addMonitor (s : String)
  | removeMonitor (s : String)
  | addMonitorPattern (s : String)
  | removeMonitorPattern (s : String)
  | addMonitorProperty (key : String) (val : V)
  | addIgnorePattern (s : String)
  | setupFilters

structure Event (V : Type) where
  op : Op V
  elapsed : ℕ

def remove (s : String) (l : List String) : List String := l.filter fun x => x ≠ s

def exactly (s : String) : String := "^" ++ s ++ "$"

namespace Instance

variable (i : Instance M V)

def modified : Instance M V :=
  { i with channel := { i.channel with lastModified := i.clock } }

def setIgnores (patterns : List String) : Instance M V :=
  { i with channel := { i.channel with
      settings := { i.channel.settings with ignoresPatterns := patterns } } }

def setNames (names : List String) : Instance M V :=
  { i with channel := { i.channel with
      settings := { i.channel.settings with monitorsNames := names } } }

def ignores : List String := i.channel.settings.ignoresPatterns

def names : List String := i.channel.settings.monitorsNames

def addIgnorePattern (s : String) : Instance M V :=
  (i.setIgnores (i.ignores.insert s)).modified

def addMonitor (s : String) : Instance M V :=
  let i := if exactly s ∈ i.ignores then i.setIgnores (remove (exactly s) i.ignores) else i
  (i.setNames (i.names.insert s)).modified

def removeMonitor (s : String) : Instance M V :=
  if s ∈ i.names then (i.setNames (remove s i.names)).modified
  else (i.addIgnorePattern (exactly s)).modified

def addMonitorPattern (s : String) : Instance M V :=
  let i := if s ∈ i.ignores then (i.setIgnores (remove s i.ignores)).modified else i
  if s ∈ i.monitorsPatterns then i
  else { i with monitorsPatterns := i.monitorsPatterns.insert s }.modified

def removeMonitorPattern (s : String) : Instance M V :=
  if s ∈ i.monitorsPatterns then
    { i with monitorsPatterns := remove s i.monitorsPatterns }.modified
  else (i.setIgnores (i.ignores.insert s)).modified

def addMonitorProperty (key : String) (val : V) : Instance M V :=
  { i with monitorsProperties :=
      (key, val) :: i.monitorsProperties.filter fun item => item.1 ≠ key }.modified

def setupFilters (env : Environment M V) (i : Instance M V) : Instance M V :=
  let r := i.channel.setupFilters env i.clock i.published
  { i with published := r.1, channel := r.2 }

end Instance

variable (env : Environment M V)

def apply (i : Instance M V) : Op V → Instance M V
  | .addMonitor s => i.addMonitor s
  | .removeMonitor s => i.removeMonitor s
  | .addMonitorPattern s => i.addMonitorPattern s
  | .removeMonitorPattern s => i.removeMonitorPattern s
  | .addMonitorProperty key val => i.addMonitorProperty key val
  | .addIgnorePattern s => i.addIgnorePattern s
  | .setupFilters => i.setupFilters env

def step (i : Instance M V) (e : Event V) : Instance M V :=
  apply env { i with clock := i.clock + e.elapsed } e.op

def execute (i : Instance M V) (es : List (Event V)) : Instance M V :=
  es.foldl (step env) i

def Instance.initial (definition : Definition V) (exports : Bool)
    (authority : ℕ) (shadows : Finset M) : Instance M V where
  published _ := 0
  channel :=
    { Channel.new M definition authority with
      settings := ⟨exports, [], []⟩
      channelMachines := shadows.filter fun m => env.isShadow m }
  monitorsPatterns := []
  monitorsProperties := []
  clock := 0

section Filters

variable (env : Environment M V)

def Named (names : List String) (m : M) : Prop := m ∈ names.filterMap env.find

def Matches (patterns : List String) (m : M) : Prop := ∃ p ∈ patterns, m ∈ env.matching p

def HasProperty (items : List (String × V)) (m : M) : Prop :=
  ∃ item ∈ items, m ∈ env.machines ∧ env.hasProperty m item = true

/-- The machines that the definition selects before it ignores any. -/
def Selects (c : Channel M V) (m : M) : Prop :=
  HasProperty env c.definition.monitorsProperties m ∨
    Matches env c.definition.monitorsPatterns m ∨
    (∃ name ∈ c.definition.monitorLinked,
      m ∈ env.machines ∧ env.listens m (env.find name) = true) ∨
    (c.exports = true ∧ m ∈ env.machines ∧ env.hasExports m = true)

/-- Where a machine is after the filters, if it was `before` on the channel. -/
def Filtered (c : Channel M V) (before : Prop) (m : M) : Prop :=
  Named env c.settings.monitorsNames m ∨
    ¬Matches env c.settings.ignoresPatterns m ∧
      (Named env c.definition.monitorsNames m ∨
        ¬Matches env c.definition.ignoresPatterns m ∧ (Selects env c m ∨ before))

theorem mem_monitorNames (names : List String) (r : Register M) (m : M) :
    m ∈ (monitorNames env names r).members ↔ Named env names m ∨ m ∈ r.members :=
  members_foldl_enter _ r m

theorem mem_foldl_foldl_enter {α : Type} (machines : α → List M) (items : List α)
    (r : Register M) (m : M) :
    m ∈ (items.foldl (fun r item => (machines item).foldl Register.enter r) r).members ↔
      (∃ item ∈ items, m ∈ machines item) ∨ m ∈ r.members := by
  induction items generalizing r with
  | nil => simp
  | cons item items ih =>
    rw [foldl_cons, ih, members_foldl_enter]
    simp only [exists_mem_cons_iff]
    rw [or_left_comm, or_assoc]

theorem mem_processIgnoresPatternList (patterns : List String) (r : Register M) (m : M) :
    m ∈ (processIgnoresPatternList env patterns r).members ↔
      m ∈ r.members ∧ ¬Matches env patterns m := by
  unfold processIgnoresPatternList Matches
  induction patterns generalizing r with
  | nil => simp
  | cons p patterns ih =>
    rw [foldl_cons, ih, members_foldl_leave]
    simp only [exists_mem_cons_iff, not_or, and_assoc]

variable (c : Channel M V)

theorem mem_filtered (r : Register M) (m : M) :
    m ∈ (c.filtered env r).members ↔ Filtered env c (m ∈ r.members) m := by
  have hexp : m ∈ (if c.exports then monitorExports env r else r).members ↔
      (c.exports = true ∧ m ∈ env.machines ∧ env.hasExports m = true) ∨ m ∈ r.members := by
    split_ifs with h
    · rw [monitorExports_eq, members_foldl_join]
      simp [h]
    · simp [h]
  have hsel : m ∈ (monitorProperties env c.definition.monitorsProperties
      (monitorPatterns env c.definition.monitorsPatterns
        (monitorLinked env c.definition.monitorLinked
          (if c.exports then monitorExports env r else r)))).members ↔
      Selects env c m ∨ m ∈ r.members := by
    unfold monitorProperties monitorPatterns monitorLinked
    rw [mem_foldl_foldl_enter, mem_foldl_foldl_enter, mem_foldl_foldl_enter, hexp]
    unfold Selects HasProperty Matches
    simp only [mem_filter, or_assoc]
  unfold Channel.filtered Channel.filters Filtered
  rw [mem_monitorNames, mem_processIgnoresPatternList, mem_monitorNames,
    mem_processIgnoresPatternList, hsel]
  refine or_congr Iff.rfl ?_
  rw [and_comm]
  exact and_congr Iff.rfl (or_congr Iff.rfl and_comm)

omit [DecidableEq M] in
theorem filtered_filtered (before : Prop) (m : M) :
    Filtered env c (Filtered env c before m) m ↔ Filtered env c before m := by
  unfold Filtered
  grind

omit [DecidableEq M] in
theorem filtered_iff_false_iff (before : Prop) (m : M) :
    (Filtered env c before m ↔ Filtered env c False m) ↔
      (¬(Matches env c.settings.ignoresPatterns m ∨ Matches env c.definition.ignoresPatterns m) →
        ¬Named env c.settings.monitorsNames m → ¬Named env c.definition.monitorsNames m →
          ¬Selects env c m → ¬before) := by
  unfold Filtered
  by_cases hbef : before
  · simp only [hbef, or_true, or_false, not_true_eq_false]
    grind
  · simp only [hbef, not_false_eq_true, implies_true]

omit [DecidableEq M] in
theorem filtered_iff_of_not_removed {c : Channel M V} {before : Prop} {m : M}
    (h : ¬(Matches env c.settings.ignoresPatterns m ∨ Matches env c.definition.ignoresPatterns m)) :
    Filtered env c before m ↔ Named env c.settings.monitorsNames m ∨
      Named env c.definition.monitorsNames m ∨ Selects env c m ∨ before := by
  obtain ⟨hins, hdef⟩ := not_or.mp h
  unfold Filtered
  simp only [hins, hdef, not_false_eq_true, true_and]

end Filters

section Steps

variable {env : Environment M V}

open Instance

variable (env) in
theorem apply_cases (i : Instance M V) {op : Op V} (h : op ≠ .setupFilters) :
    apply env i op = i ∨ ∃ ignores names patterns properties, apply env i op =
        { i with
          channel := { i.channel with
            settings := ⟨i.channel.settings.monitorsExports, ignores, names⟩
            lastModified := i.clock }
          monitorsPatterns := patterns
          monitorsProperties := properties } := by
  cases op with
  | addMonitor s =>
    refine .inr ?_
    unfold apply addMonitor
    dsimp only
    split_ifs <;> exact ⟨_, _, _, _, rfl⟩
  | removeMonitor s =>
    refine .inr ?_
    unfold apply removeMonitor
    dsimp only
    split_ifs <;> exact ⟨_, _, _, _, rfl⟩
  | addMonitorPattern s =>
    unfold apply addMonitorPattern
    dsimp only
    split_ifs
    · exact .inr ⟨_, _, _, _, rfl⟩
    · exact .inr ⟨_, _, _, _, rfl⟩
    · exact .inl rfl
    · exact .inr ⟨_, _, _, _, rfl⟩
  | removeMonitorPattern s =>
    refine .inr ?_
    unfold apply removeMonitorPattern
    dsimp only
    split_ifs <;> exact ⟨_, _, _, _, rfl⟩
  | addMonitorProperty key val => exact .inr ⟨_, _, _, _, rfl⟩
  | addIgnorePattern s => exact .inr ⟨_, _, _, _, rfl⟩
  | setupFilters => exact absurd rfl h

variable (env) in
structure Settled (i : Instance M V) : Prop where
  modified_le : i.channel.lastModified ≤ i.clock
  checked_le : i.channel.lastChecked ≤ i.clock
  applied : i.channel.lastModified < i.channel.lastChecked → ∀ m,
    Filtered env i.channel (m ∈ i.channel.channelMachines) m ↔ m ∈ i.channel.channelMachines

variable {i : Instance M V}

section

variable (h : Settled env i)

include h

theorem Settled.mem_setupFilters (m : M) :
    m ∈ (i.setupFilters env).channel.channelMachines ↔
      Filtered env i.channel (m ∈ i.channel.channelMachines) m := by
  unfold setupFilters
  by_cases hski : i.channel.lastModified < i.channel.lastChecked
  · rw [Channel.setupFilters, if_pos hski]
    exact (h.applied hski m).symm
  · rw [setupFilters_of_le env i.clock i.published (not_lt.mp hski)]
    exact mem_filtered env i.channel _ m

omit [DecidableEq M] in
theorem Settled.wait (elapsed : ℕ) : Settled env { i with clock := i.clock + elapsed } :=
  ⟨h.modified_le.trans (Nat.le_add_right _ _), h.checked_le.trans (Nat.le_add_right _ _),
    h.applied⟩

theorem Settled.setupFilters : Settled env (i.setupFilters env) := by
  by_cases hski : i.channel.lastModified < i.channel.lastChecked
  · have heq : i.setupFilters env = i := by
      unfold Instance.setupFilters Channel.setupFilters
      rw [if_pos hski]
    rw [heq]
    exact h
  · have hmem := h.mem_setupFilters
    unfold Instance.setupFilters at hmem ⊢
    rw [setupFilters_of_le env i.clock i.published (not_lt.mp hski)] at hmem ⊢
    refine ⟨h.modified_le, le_rfl, fun _ m => ?_⟩
    -- the filters have just been applied
    refine Iff.trans ?_ (hmem m).symm
    rw [← filtered_filtered env i.channel (m ∈ i.channel.channelMachines), ← hmem m]
    rfl

theorem Settled.step (e : Event V) : Settled env (step env i e) := by
  have hwai := h.wait e.elapsed
  unfold ChannelFilters.step
  by_cases hop : e.op = .setupFilters
  · rw [hop]
    exact hwai.setupFilters
  · rcases apply_cases env { i with clock := i.clock + e.elapsed } hop with
      heq | ⟨ignores, names, patterns, properties, heq⟩
    · rw [heq]
      exact hwai
    · rw [heq]
      refine ⟨le_rfl, hwai.checked_le, fun hlt => ?_⟩
      exact absurd hlt (not_lt.mpr hwai.checked_le)

end

end Steps

open Runs

variable (env : Environment M V) (i : Instance M V)

theorem execute_concat (es : List (Event V)) (e : Event V) :
    execute env i (es ++ [e]) = step env (execute env i es) e := by
  unfold execute
  rw [foldl_append, foldl_cons, foldl_nil]

structure Continues (i j : Instance M V) : Prop where
  definition : j.channel.definition = i.channel.definition
  exports : j.channel.settings.monitorsExports = i.channel.settings.monitorsExports

theorem continues_step (e : Event V) : Continues i (step env i e) := by
  unfold step
  by_cases hop : e.op = .setupFilters
  · rw [hop]
    unfold apply Instance.setupFilters Channel.setupFilters
    split_ifs <;> exact ⟨rfl, rfl⟩
  · rcases apply_cases env { i with clock := i.clock + e.elapsed } hop with
      heq | ⟨ignores, names, patterns, properties, heq⟩
    · rw [heq]
      exact ⟨rfl, rfl⟩
    · rw [heq]
      exact ⟨rfl, rfl⟩

theorem continues_execute (es : List (Event V)) : Continues i (execute env i es) := by
  induction es using reverseRecOn with
  | nil => exact ⟨rfl, rfl⟩
  | append_singleton es e ih =>
    rw [execute_concat]
    have hste := continues_step env (execute env i es) e
    exact ⟨hste.definition.trans ih.definition, hste.exports.trans ih.exports⟩

omit [DecidableEq M] in
theorem Continues.selects_iff {i j : Instance M V} (h : Continues i j) (m : M) :
    Selects env j.channel m ↔ Selects env i.channel m := by
  unfold Selects Channel.exports
  rw [h.definition, h.exports]

variable (i : Instance M V)

/-- The machine was named when the filters were set up, and has not been ignored at any set up
since. -/
def Entered (es : List (Event V)) (m : M) : Prop :=
  Since
    (fun before e => e.op = .setupFilters ∧ Named env (execute env i before).names m)
    (fun before e => e.op = .setupFilters → ¬Matches env (execute env i before).ignores m) es

variable (definition : Definition V) (exports : Bool) (authority : ℕ) (shadows : Finset M)

omit [DecidableEq M] in
theorem settled_initial : Settled env (Instance.initial env definition exports authority shadows) :=
  ⟨le_rfl, le_rfl, fun hlt => absurd hlt (lt_irrefl _)⟩

theorem settled_execute {i : Instance M V} (h : Settled env i) (es : List (Event V)) :
    Settled env (execute env i es) := by
  induction es using reverseRecOn with
  | nil => exact h
  | append_singleton es e ih =>
    rw [execute_concat]
    exact ih.step e

theorem mem_step_setupFilters {i : Instance M V} (h : Settled env i) (elapsed : ℕ) (m : M) :
    m ∈ (step env i ⟨.setupFilters, elapsed⟩).channel.channelMachines ↔
      Filtered env i.channel (m ∈ i.channel.channelMachines) m :=
  (h.wait elapsed).mem_setupFilters m

theorem channelMachines_step {e : Event V} (h : e.op ≠ .setupFilters) (i : Instance M V) :
    (step env i e).channel.channelMachines = i.channel.channelMachines := by
  unfold step
  rcases apply_cases env { i with clock := i.clock + e.elapsed } h with
    heq | ⟨ignores, names, patterns, properties, heq⟩
  · rw [heq]
  · rw [heq]

theorem mem_execute_iff {i : Instance M V} (hset : Settled env i) {m : M}
    (hout : m ∉ i.channel.channelMachines) (hnam : ¬Named env i.channel.definition.monitorsNames m)
    (hign : ¬Matches env i.channel.definition.ignoresPatterns m)
    (hsel : ¬Selects env i.channel m) (es : List (Event V)) :
    m ∈ (execute env i es).channel.channelMachines ↔ Entered env i es m := by
  induction es using reverseRecOn with
  | nil => exact iff_of_false hout not_since_nil
  | append_singleton es e ih =>
    have hcon := continues_execute env i es
    unfold Entered at ih ⊢
    rw [execute_concat, since_concat_iff, ← ih]
    obtain ⟨op, elapsed⟩ := e
    by_cases hop : op = .setupFilters
    · subst hop
      rw [mem_step_setupFilters env (settled_execute env hset es)]
      unfold Filtered
      rw [hcon.definition, hcon.selects_iff]
      simp only [hnam, hign, hsel, false_or, not_false_eq_true, true_and, forall_const]
      exact or_congr Iff.rfl and_comm
    · rw [channelMachines_step env hop]
      simp only [hop, false_and, false_or, false_imp_iff, and_true]

def Instance.fresh : Instance M V :=
  { i with
    published := fun _ => 0
    channel := { Channel.new M i.channel.definition i.channel.authority with
      settings := i.channel.settings } }

def Selected (m : M) : Prop :=
  Named env i.names m ∨ Matches env i.monitorsPatterns m ∨ HasProperty env i.monitorsProperties m

def Removed (m : M) : Prop :=
  Matches env i.ignores m ∨ Matches env i.channel.definition.ignoresPatterns m

/-- The machines on the channel, apart from shadows, are those which the present filters give, and
each machine that is selected is one of them. -/
def FiltersHold : Prop :=
  ∀ m, env.isShadow m = false →
    (m ∈ i.channel.channelMachines ↔ m ∈ (i.fresh.setupFilters env).channel.channelMachines) ∧
      (Selected env i m → ¬Removed env i m → m ∈ i.channel.channelMachines)

theorem mem_fresh_setupFilters (m : M) :
    m ∈ (i.fresh.setupFilters env).channel.channelMachines ↔ Filtered env i.channel False m := by
  have hset : Settled env i.fresh :=
    ⟨Nat.zero_le _, Nat.zero_le _, fun hlt => absurd hlt (lt_irrefl _)⟩
  rw [hset.mem_setupFilters]
  have hemp : m ∈ i.fresh.channel.channelMachines ↔ False :=
    iff_of_false (Finset.notMem_empty m) id
  rw [hemp]
  rfl

theorem filters_step_setupFilters (elapsed : ℕ) : let j := step env i ⟨.setupFilters, elapsed⟩
    j.channel.settings = i.channel.settings ∧ j.monitorsPatterns = i.monitorsPatterns ∧
      j.monitorsProperties = i.monitorsProperties := by
  unfold step apply Instance.setupFilters Channel.setupFilters
  dsimp only
  split_ifs <;> exact ⟨rfl, rfl, rfl⟩

/-- What the filters need at a set up: a machine that they do not ignore and that no name and no
filter of the definition selects is not on the channel before, and no other filter of the instance
selects it. -/
theorem filtersHold_step_iff {i : Instance M V} (h : Settled env i) (elapsed : ℕ) :
    FiltersHold env (step env i ⟨.setupFilters, elapsed⟩) ↔
      ∀ m, env.isShadow m = false → ¬Removed env i m → ¬Named env i.names m →
        ¬Named env i.channel.definition.monitorsNames m → ¬Selects env i.channel m →
          m ∉ i.channel.channelMachines ∧ ¬Matches env i.monitorsPatterns m ∧
            ¬HasProperty env i.monitorsProperties m := by
  obtain ⟨hset, hpat, hpro⟩ := filters_step_setupFilters env i elapsed
  have hlas := continues_step env i ⟨.setupFilters, elapsed⟩
  refine forall_congr' fun m => forall_congr' fun _ => ?_
  have hsam : Filtered env (step env i ⟨.setupFilters, elapsed⟩).channel False m ↔
      Filtered env i.channel False m := by
    unfold Filtered
    rw [hlas.selects_iff, hset, hlas.definition]
  have hsel : Selected env (step env i ⟨.setupFilters, elapsed⟩) m ↔ Selected env i m := by
    unfold Selected Instance.names
    rw [hset, hpat, hpro]
  have hrem : Removed env (step env i ⟨.setupFilters, elapsed⟩) m ↔ Removed env i m := by
    unfold Removed Instance.ignores
    rw [hset, hlas.definition]
  rw [mem_fresh_setupFilters, mem_step_setupFilters env h, hsam, hsel, hrem, filtered_iff_false_iff]
  constructor
  · rintro ⟨hfre, hcon⟩ hkee hnam hnae hnot
    have hbef := hfre hkee hnam hnae hnot
    have hsel : ¬Selected env i m := by
      intro hsel
      have hmem := (filtered_iff_of_not_removed env hkee).mp (hcon hsel hkee)
      exact hmem.elim hnam fun hmem => hmem.elim hnae fun hmem => hmem.elim hnot hbef
    unfold Selected at hsel
    rw [not_or, not_or] at hsel
    exact ⟨hbef, hsel.2⟩
  · intro h
    refine ⟨fun hkee hnam hnae hnot => (h hkee hnam hnae hnot).1, fun hsel hkee => ?_⟩
    rw [filtered_iff_of_not_removed env hkee]
    by_contra hnon
    rw [not_or, not_or, not_or] at hnon
    obtain ⟨hnam, hnae, hnot, -⟩ := hnon
    obtain ⟨-, hpatt, hprp⟩ := h hkee hnam hnae hnot
    exact hsel.elim hnam fun hoth => hoth.elim hpatt hprp

/-- The filters hold after the last set up exactly if each machine that they do not ignore and that
no name and no filter of the definition selects has not entered the channel before, and matches no
pattern and no property of the instance. -/
theorem filtersHold_iff (es : List (Event V)) (elapsed : ℕ) :
    let start := Instance.initial env definition exports authority shadows
    let i := execute env start es
    FiltersHold env (execute env start (es ++ [⟨.setupFilters, elapsed⟩])) ↔
      ∀ m, env.isShadow m = false → ¬Removed env i m → ¬Named env i.names m →
        ¬Named env definition.monitorsNames m → ¬Selects env start.channel m →
          ¬Entered env start es m ∧ ¬Matches env i.monitorsPatterns m ∧
            ¬HasProperty env i.monitorsProperties m := by
  intro start i
  have hsta : Settled env start := settled_initial env definition exports authority shadows
  have hcon : Continues start i := continues_execute env start es
  have hdef : i.channel.definition = definition := hcon.definition
  rw [execute_concat, filtersHold_step_iff env (settled_execute env hsta es), hdef]
  refine forall_congr' fun m => forall_congr' fun hsha => forall_congr' fun hkee =>
    forall_congr' fun _ => forall_congr' fun hnam => ?_
  rw [hcon.selects_iff]
  refine forall_congr' fun hsel => and_congr (not_congr ?_) Iff.rfl
  -- there are only shadows on the channel at the start
  have hout : m ∉ start.channel.channelMachines := by
    intro hmem
    have hsha' := (Finset.mem_filter.mp hmem).2
    rw [hsha] at hsha'
    cases hsha'
  refine mem_execute_iff env hsta hout hnam (fun hign => hkee (.inr ?_)) hsel es
  rw [hdef]
  exact hign

def onePump : Environment Unit ℕ where
  machines := [()]
  nodup := by decide
  find s := if s = "pump" then some () else none
  name _ := "pump"
  isShadow _ := false
  hasExports _ := false
  listens _ _ := false
  hasProperty _ _ := false
  pattern _ := none

def plainDefinition : Definition ℕ := ⟨false, [], [], [], [], [], [], [], 0⟩

def monitorRemoved : List (Event ℕ) :=
  [⟨.addMonitor "pump", 1⟩, ⟨.setupFilters, 1⟩, ⟨.removeMonitor "pump", 1⟩, ⟨.setupFilters, 1⟩]

theorem removed_monitor_stays : ¬FiltersHold onePump
      (execute onePump (Instance.initial onePump plainDefinition false 0 ∅) monitorRemoved) := by
  intro h
  obtain ⟨hfre, -⟩ := h () rfl
  exact absurd hfre (by decide)

end Clockwork.ChannelFilters
