import Clockwork.Library.Registers
import Clockwork.Library.Runs

namespace Clockwork.ChannelMachines

open Registers Runs List Option Register

structure Definition (V : Type) where
  monitorsExports : Bool
  monitorLinked : List String
  monitorsPatterns : List String
  monitorsProperties : List (String × V)
  ignoresPatterns : List String
  monitorsNames : List String
  updatesNames : List String
  sharesNames : List String
  authority : ℕ

structure Settings where
  monitorsExports : Bool
  ignoresPatterns : List String
  monitorsNames : List String

structure Channel (M V : Type) where
  definition : Definition V
  settings : Settings
  channelMachines : Finset M
  lastModified : ℕ
  lastChecked : ℕ
  authority : ℕ

structure Environment (M V : Type) where
  machines : List M
  nodup : machines.Nodup
  find : String → Option M
  name : M → String
  isShadow : M → Bool
  hasExports : M → Bool
  listens : M → Option M → Bool
  hasProperty : M → String × V → Bool
  pattern : String → Option (String → Bool)

structure World (M V : Type) where
  published : M → ℤ
  channels : List (Channel M V)
  ownerChannel : M → Option ℕ

section Functions

variable {M V : Type} [DecidableEq M] (env : Environment M V)

def Environment.matching (pattern : String) : List M :=
  match env.pattern pattern with
  | some test => env.machines.filter fun m => test (env.name m)
  | none => []

def processIgnoresPatternList (patterns : List String) (r : Register M) : Register M :=
  patterns.foldl (fun r pattern => (env.matching pattern).foldl Register.leave r) r

/-- The machines with exports are published whether they are on the channel or not. -/
def monitorExports (r : Register M) : Register M :=
  (env.machines.filter env.hasExports).foldl Register.force r

def monitorLinked (names : List String) (r : Register M) : Register M :=
  names.foldl
    (fun r name => (env.machines.filter fun m => env.listens m (env.find name)).foldl
      Register.enter r) r

def monitorPatterns (patterns : List String) (r : Register M) : Register M :=
  patterns.foldl (fun r pattern => (env.matching pattern).foldl Register.enter r) r

def monitorProperties (items : List (String × V)) (r : Register M) : Register M :=
  items.foldl
    (fun r item => (env.machines.filter fun m => env.hasProperty m item).foldl Register.enter r) r

def monitorNames (names : List String) (r : Register M) : Register M :=
  (names.filterMap env.find).foldl Register.enter r

def Channel.exports (c : Channel M V) : Bool :=
  c.definition.monitorsExports || c.settings.monitorsExports

def Channel.filters (c : Channel M V) (r : Register M) : Register M :=
  let r := monitorLinked env c.definition.monitorLinked r
  let r := monitorPatterns env c.definition.monitorsPatterns r
  let r := monitorProperties env c.definition.monitorsProperties r
  let r := processIgnoresPatternList env c.definition.ignoresPatterns r
  let r := monitorNames env c.definition.monitorsNames r
  let r := processIgnoresPatternList env c.settings.ignoresPatterns r
  monitorNames env c.settings.monitorsNames r

def Channel.setupFilters (now : ℕ) (published : M → ℤ) (c : Channel M V) : (M → ℤ) × Channel M V :=
  if c.lastModified < c.lastChecked then (published, c)
  else
    let r : Register M := ⟨published, c.channelMachines⟩
    let r := if c.exports then monitorExports env r else r
    let r := c.filters env r
    (r.count, { c with channelMachines := r.members, lastChecked := now })

/-- A shadow is published each time, another machine when it joins the channel. -/
def Channel.updated (c : Channel M V) : List M := c.definition.updatesNames.filterMap env.find

def Channel.shared (c : Channel M V) : List M := c.definition.sharesNames.filterMap env.find

/-- `setupShadows`. The time of the last modification changes with every machine that is added;
a shadow is added in any case. -/
def Channel.setupShadows (now : ℕ) (published : M → ℤ) (c : Channel M V) : (M → ℤ) × Channel M V :=
  let r : Register M := ⟨published, c.channelMachines⟩
  let r := (c.updated env).foldl (Register.join env.isShadow) r
  let r := ((c.shared env).filter fun m => !env.isShadow m).foldl Register.enter r
  let modified := (c.updated env).any env.isShadow || r.members ≠ c.channelMachines
  (r.count, { c with
    channelMachines := r.members
    lastModified := if modified then now else c.lastModified })

/-- The shadows that `enableShadows` adds to the channel. `client` is the authority of the
communications manager if the channel is a client; `authority` is that of the channel which owns
a shadow. -/
def Channel.enabled (client : Option ℕ) (authority : M → ℕ) (c : Channel M V) : List M :=
  let own := client.getD c.authority
  ((c.updated env).filter fun m => env.isShadow m &&
      (client.isSome && own == authority m || c.definition.authority == authority m)) ++
    (c.shared env).filter fun m => env.isShadow m && own == authority m

def Channel.enableShadows (now : ℕ) (client : Option ℕ) (authority : M → ℕ)
    (c : Channel M V) : Channel M V :=
  let r : Register M := (c.enabled env client authority).foldl Register.link
    ⟨fun _ => 0, c.channelMachines⟩
  { c with
    channelMachines := r.members
    lastModified := if r.members ≠ c.channelMachines then now else c.lastModified
    authority := client.getD c.authority }

/-- What happens to the channels, with the times of `modified()` and `checked()`. -/
inductive Event (M V : Type) where
  | new (definition : Definition V) (authority : ℕ)
  | create (env : Environment M V) (definition : Definition V) (authority now checked : ℕ)
  | setupFilters (env : Environment M V) (i : ℕ) (now : ℕ)
  | setupShadows (env : Environment M V) (i : ℕ) (now : ℕ)
  | enableShadows (env : Environment M V) (i : ℕ) (now : ℕ) (client : Option ℕ)
  | processIgnores (env : Environment M V) (i : ℕ) (patterns : List String)
  | configure (i : ℕ) (settings : Settings) (now : ℕ)

variable (M) in
def Channel.new (definition : Definition V) (authority : ℕ) : Channel M V :=
  ⟨definition, ⟨false, [], []⟩, ∅, 0, 0, authority⟩

variable (M) in
def Channel.created (definition : Definition V) (authority now : ℕ) : Channel M V :=
  { Channel.new M definition authority with
    settings := ⟨definition.monitorsExports, [], []⟩
    lastModified := now }

def World.start : World M V := ⟨fun _ => 0, [], fun _ => none⟩

variable (w : World M V)

def World.change (i : ℕ) (f : (M → ℤ) → Channel M V → (M → ℤ) × Channel M V) : World M V :=
  match w.channels[i]? with
  | none => w
  | some c =>
    let (published, c) := f w.published c
    { w with published := published, channels := w.channels.set i c }

def World.own (i : ℕ) (shadows : List M) : World M V :=
  { w with ownerChannel := fun m => if m ∈ shadows then some i else w.ownerChannel m }

def World.updatedShadows (i : ℕ) : List M :=
  match w.channels[i]? with
  | none => []
  | some c => (c.updated env).filter env.isShadow

def World.machineAuthority (m : M) : Option ℕ := do
  let i ← w.ownerChannel m
  let c ← w.channels[i]?
  return c.definition.authority

/-- Every shadow that `enableShadows` looks at has an owner; without one the pointer is null. -/
def World.owned (i : ℕ) : Bool :=
  match w.channels[i]? with
  | none => true
  | some c => (c.updated env ++ c.shared env).all fun m =>
      !env.isShadow m || (w.machineAuthority m).isSome

def World.setup (i now : ℕ) : World M V :=
  (w.change i (Channel.setupShadows env now)).own i (w.updatedShadows env i)

def World.step : Event M V → Option (World M V)
  | .new definition authority =>
    some { w with channels := w.channels ++ [Channel.new M definition authority] }
  | .create env definition authority now checked =>
    let i := w.channels.length
    let w := { w with channels := w.channels ++ [Channel.created M definition authority now] }
    some ((w.setup env i now).change i (Channel.setupFilters env checked))
  | .setupFilters env i now => some (w.change i (Channel.setupFilters env now))
  | .setupShadows env i now => some (w.setup env i now)
  | .enableShadows env i now client =>
    if w.owned env i then
      some (w.change i fun published c =>
        (published, c.enableShadows env now client fun m => (w.machineAuthority m).getD 0))
    else none
  | .processIgnores env i patterns => some (w.change i fun published c =>
      let r := processIgnoresPatternList env patterns ⟨published, c.channelMachines⟩
      (r.count, { c with channelMachines := r.members }))
  | .configure i settings now => some (w.change i fun published c =>
      (published, { c with settings := settings, lastModified := now }))

/-- Each machine is published as often as there are channels with it. -/
def World.Published : Prop :=
  Tallied w.published (w.channels.map Channel.channelMachines)

end Functions

open World

variable {M V : Type}

theorem change_append (published : M → ℤ) (channels : List (Channel M V)) (c : Channel M V)
    (owner : M → Option ℕ) (f : (M → ℤ) → Channel M V → (M → ℤ) × Channel M V) :
    change ⟨published, channels ++ [c], owner⟩ channels.length f =
      ⟨(f published c).1, channels ++ [(f published c).2], owner⟩ := by
  unfold change
  simp

variable [DecidableEq M] (env : Environment M V)

theorem surplus_processIgnoresPatternList (patterns : List String) (r : Register M) :
    (processIgnoresPatternList env patterns r).surplus = r.surplus := by
  apply surplus_foldl
  intro r pattern
  exact surplus_foldl surplus_leave _ r

variable (c : Channel M V) (r : Register M) (x : M)

open Clockwork.ChannelMachines.Channel

theorem surplus_filters : (c.filters env r).surplus = r.surplus := by
  have hloo {α : Type} (machines : α → List M) (items : List α) (r : Register M) :
      (items.foldl (fun r item => (machines item).foldl enter r) r).surplus =
        r.surplus := by
    apply surplus_foldl
    intro r item
    exact surplus_foldl surplus_enter _ r
  have hnam (names : List String) (r : Register M) :
      (monitorNames env names r).surplus = r.surplus := surplus_foldl surplus_enter _ r
  unfold filters
  rw [hnam, surplus_processIgnoresPatternList, hnam, surplus_processIgnoresPatternList]
  unfold monitorProperties monitorPatterns monitorLinked
  rw [hloo, hloo, hloo]

theorem monitorExports_eq : monitorExports env r =
      (env.machines.filter env.hasExports).foldl (join fun _ => true) r := rfl

theorem surplus_monitorExports_iff : (monitorExports env r).surplus = r.surplus ↔
      ∀ m ∈ env.machines, env.hasExports m = true → m ∉ r.members := by
  rw [monitorExports_eq, surplus_foldl_join_iff, filter_eq_self.mpr fun _ _ => rfl]
  have hnod := env.nodup.filter env.hasExports
  simp only [hnod, true_and, mem_filter, and_imp, forall_const]

def Channel.filtered (c : Channel M V) (r : Register M) : Register M :=
  c.filters env (if c.exports then monitorExports env r else r)

theorem setupFilters_of_le (now : ℕ) (published : M → ℤ) {c : Channel M V}
    (h : c.lastChecked ≤ c.lastModified) :
    c.setupFilters env now published =
      ((c.filtered env ⟨published, c.channelMachines⟩).count, { c with
          channelMachines := (c.filtered env ⟨published, c.channelMachines⟩).members
          lastChecked := now }) := by
  unfold setupFilters
  rw [if_neg (not_lt.mpr h)]
  rfl

theorem surplus_filtered_iff : (c.filtered env r).surplus = r.surplus ↔
      (c.exports = true → ∀ m ∈ env.machines, env.hasExports m = true → m ∉ r.members) := by
  unfold filtered
  rw [surplus_filters]
  split_ifs with hexp
  · rw [surplus_monitorExports_iff]
    exact ⟨fun h _ => h, fun h => h hexp⟩
  · exact iff_of_true rfl fun h => absurd h hexp

theorem surplus_le_filtered : r.surplus x ≤ (c.filtered env r).surplus x := by
  unfold filtered
  rw [surplus_filters]
  split_ifs
  · rw [monitorExports_eq]
    exact surplus_foldl_join_le _ _ r x
  · exact le_refl _

def Channel.shadowed (c : Channel M V) (r : Register M) : Register M :=
  ((c.shared env).filter fun m => !env.isShadow m).foldl Register.enter
    ((c.updated env).foldl (Register.join env.isShadow) r)

theorem surplus_shadowed_iff : (c.shadowed env r).surplus = r.surplus ↔
      ((c.updated env).filter env.isShadow).Nodup ∧
        ∀ m ∈ c.updated env, env.isShadow m = true → m ∉ r.members := by
  unfold shadowed
  rw [surplus_foldl surplus_enter]
  exact surplus_foldl_join_iff _ _ r

theorem surplus_le_shadowed : r.surplus x ≤ (c.shadowed env r).surplus x := by
  unfold shadowed
  rw [surplus_foldl surplus_enter]
  exact surplus_foldl_join_le _ _ r x

theorem mem_shadowed : x ∈ (c.shadowed env r).members ↔
      x ∈ c.updated env ∨ x ∈ c.shared env ∧ env.isShadow x = false ∨ x ∈ r.members := by
  have hent (ms : List M) (r : Register M) :
      ms.foldl enter r = ms.foldl (join fun _ => false) r := rfl
  unfold shadowed
  rw [hent, members_foldl_join, members_foldl_join, mem_filter]
  simp only [Bool.not_eq_eq_eq_not, Bool.not_true]
  tauto

/-- The event keeps the counters right: machines with exports and shadows are new to the channel
where they are counted in any case, and the shadows that are enabled are on it. -/
def World.Balanced (w : World M V) : Event M V → Prop
  | .new _ _ => True
  | .create env definition authority now _ =>
    let c : Channel M V := Channel.created M definition authority now
    ((c.updated env).filter env.isShadow).Nodup ∧
      (definition.monitorsExports = true → ∀ m ∈ env.machines, env.hasExports m = true →
        m ∉ c.updated env ∧ (m ∈ c.shared env → env.isShadow m = true))
  | .setupFilters env i _ => ∀ c, w.channels[i]? = some c → c.lastChecked ≤ c.lastModified →
      c.exports = true → ∀ m ∈ env.machines, env.hasExports m = true → m ∉ c.channelMachines
  | .setupShadows env i _ => ∀ c, w.channels[i]? = some c →
      ((c.updated env).filter env.isShadow).Nodup ∧
        ∀ m ∈ c.updated env, env.isShadow m = true → m ∉ c.channelMachines
  | .enableShadows env i _ client => ∀ c, w.channels[i]? = some c →
      ∀ m ∈ c.enabled env client fun m => (w.machineAuthority m).getD 0, m ∈ c.channelMachines
  | .processIgnores _ _ _ => True
  | .configure _ _ _ => True

variable {w : World M V}

theorem published_change_iff (hw : w.Published) {i : ℕ}
    {f : (M → ℤ) → Channel M V → (M → ℤ) × Channel M V} :
    (w.change i f).Published ↔ ∀ c, w.channels[i]? = some c →
      (⟨(f w.published c).1, (f w.published c).2.channelMachines⟩ : Register M).surplus =
        (⟨w.published, c.channelMachines⟩ : Register M).surplus := by
  unfold change
  cases hi : w.channels[i]? with
  | none => exact iff_of_true hw nofun
  | some c =>
    have hset : (w.channels.map channelMachines)[i]? = some c.channelMachines := by
      rw [getElem?_map, hi]
      rfl
    unfold World.Published
    rw [map_set, tallied_set_iff hw hset]
    exact ⟨fun h c' hc' => some.inj hc' ▸ h, fun h => h c rfl⟩

theorem step_create (w : World M V) (definition : Definition V) (authority now checked : ℕ) :
    let c : Channel M V := created M definition authority now
    ∃ c' owner, w.step (.create env definition authority now checked) =
        some ⟨(c.filtered env (c.shadowed env ⟨w.published, ∅⟩)).count, w.channels ++ [c'], owner⟩ ∧
      c'.channelMachines = (c.filtered env (c.shadowed env ⟨w.published, ∅⟩)).members := by
  intro c
  have hset : setup env { w with channels := w.channels ++ [c] } w.channels.length now =
      ⟨(c.setupShadows env now w.published).1,
        w.channels ++ [(c.setupShadows env now w.published).2],
        (setup env { w with channels := w.channels ++ [c] } w.channels.length
          now).ownerChannel⟩ := by
    unfold setup
    rw [change_append]
    rfl
  let c₁ := (c.setupShadows env now w.published).2
  refine ⟨{ c₁ with
    channelMachines := (c.filtered env (c.shadowed env ⟨w.published, ∅⟩)).members
    lastChecked := checked },
    (setup env { w with channels := w.channels ++ [c] } w.channels.length now).ownerChannel,
    ?_, rfl⟩
  unfold step
  dsimp only
  rw [hset, change_append, setupFilters_of_le env checked _ (Nat.zero_le _)]
  rfl

theorem published_create_iff (hw : w.Published) (definition : Definition V)
    (authority now checked : ℕ) {t : World M V}
    (h : w.step (.create env definition authority now checked) = some t) :
    t.Published ↔ w.Balanced (.create env definition authority now checked) := by
  obtain ⟨c', owner, hste, hmac⟩ := step_create env w definition authority now checked
  obtain rfl := some.inj (h.symm.trans hste)
  unfold World.Published World.Balanced
  dsimp only at hmac ⊢
  rw [map_append, map_singleton, hmac, tallied_append_iff hw]
  generalize hc : created M definition authority now = c
  have hexp : c.exports = definition.monitorsExports := by
    rw [← hc]
    exact Bool.or_self _
  have hbot : (c.filtered env (c.shadowed env ⟨w.published, ∅⟩)).surplus =
        (⟨w.published, ∅⟩ : Register M).surplus ↔
      (c.shadowed env ⟨w.published, ∅⟩).surplus = (⟨w.published, ∅⟩ : Register M).surplus ∧
        (c.filtered env (c.shadowed env ⟨w.published, ∅⟩)).surplus =
          (c.shadowed env ⟨w.published, ∅⟩).surplus := by
    -- neither function lowers a surplus
    refine ⟨fun heq => ?_, fun heq => heq.2.trans heq.1⟩
    have hfir : (c.shadowed env ⟨w.published, ∅⟩).surplus =
        (⟨w.published, ∅⟩ : Register M).surplus := by
      funext x
      apply le_antisymm
      · exact (surplus_le_filtered env c _ x).trans (congrFun heq x).le
      · exact surplus_le_shadowed env c _ x
    exact ⟨hfir, heq.trans hfir.symm⟩
  refine hbot.trans (and_congr ?_ ?_)
  · rw [surplus_shadowed_iff]
    simp
  · rw [surplus_filtered_iff, hexp]
    refine forall_congr' fun _ => forall_congr' fun m => forall_congr' fun _ =>
      forall_congr' fun _ => ?_
    rw [mem_shadowed]
    simp

theorem published_step_iff (hw : w.Published) {e : Event M V} {t : World M V}
    (h : w.step e = some t) : t.Published ↔ w.Balanced e := by
  cases e with
  | new definition authority =>
    cases h
    refine iff_of_true ?_ trivial
    unfold World.Published
    rw [map_append, map_singleton, tallied_append_iff hw]
    rfl
  | create env definition authority now checked =>
    exact published_create_iff env hw definition authority now checked h
  | setupFilters env i now =>
    cases h
    rw [published_change_iff hw]
    refine forall_congr' fun c => forall_congr' fun _ => ?_
    by_cases hski : c.lastModified < c.lastChecked
    · rw [setupFilters, if_pos hski]
      exact iff_of_true rfl fun hle => absurd hski (not_lt.mpr hle)
    · rw [forall_prop_of_true (not_lt.mp hski), setupFilters_of_le env now _ (not_lt.mp hski)]
      exact surplus_filtered_iff env c ⟨w.published, c.channelMachines⟩
  | setupShadows env i now =>
    cases h
    have hown : (w.setup env i now).Published ↔
        (w.change i (setupShadows env now)).Published := Iff.rfl
    rw [hown, published_change_iff hw]
    refine forall_congr' fun c => forall_congr' fun _ => ?_
    exact surplus_shadowed_iff env c ⟨w.published, c.channelMachines⟩
  | enableShadows env i now client =>
    have howe : w.owned env i = true := by
      by_contra hnot
      rw [step, if_neg hnot] at h
      cases h
    rw [step, if_pos howe] at h
    cases h
    rw [published_change_iff hw]
    refine forall_congr' fun c => forall_congr' fun _ => ?_
    rw [← surplus_foldl_link_iff _ ⟨w.published, c.channelMachines⟩]
    have hlin (ms : List M) : ms.foldl link ⟨w.published, c.channelMachines⟩ =
        ⟨w.published, (ms.foldl link ⟨fun _ => 0, c.channelMachines⟩).members⟩ := by
      ext x
      · rw [count_foldl_link]
      · rw [members_foldl_link, members_foldl_link]
    rw [hlin]
    rfl
  | processIgnores env i patterns =>
    cases h
    rw [published_change_iff hw]
    refine iff_of_true (fun c _ => ?_) trivial
    exact surplus_processIgnoresPatternList env patterns ⟨w.published, c.channelMachines⟩
  | configure i settings now =>
    cases h
    rw [published_change_iff hw]
    exact iff_of_true (fun c _ => rfl) trivial

/-- Each machine is published as often as there are channels with it after every event of a run,
exactly if each event keeps the counters right. -/
theorem run_published_iff (events : List (Event M V)) (t : World M V) :
    Run (Guarded (fun w e t => w.step e = some t) fun _ _ t => t.Published) World.start events t ↔
      Run (Guarded (fun w e t => w.step e = some t) fun w e _ => w.Balanced e)
        World.start events t := by
  apply run_guarded_congr (I := World.Published)
  · intro w e t hw hste
    exact published_step_iff hw hste
  · intro w e t _ _ ht
    exact ht
  · intro m
    rfl

def oneExport : Environment ℕ ℕ where
  machines := [0]
  nodup := by decide
  find _ := none
  name _ := "pump"
  isShadow _ := false
  hasExports _ := true
  listens _ _ := false
  hasProperty _ _ := false
  pattern _ := none

def exportsDefinition : Definition ℕ := ⟨true, [], [], [], [], [], [], [], 0⟩

def monitorAdded : List (Event ℕ ℕ) :=
  [.create oneExport exportsDefinition 7 1 2, .configure 0 ⟨true, [], ["valve"]⟩ 3,
    .setupFilters oneExport 0 4]

theorem published_twice :
    ∃ t, Run (fun w e t => w.step e = some t) World.start monitorAdded t ∧ ¬t.Published := by
  refine ⟨_, .cons rfl (.cons rfl (.cons rfl (.nil _))), fun h => ?_⟩
  exact absurd (h 0) (by decide)

end Clockwork.ChannelMachines
