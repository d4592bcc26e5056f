import Clockwork.Library.Runs
import Clockwork.Parameter

namespace Clockwork.ListState

open Runs Option

variable {F M : Type}

/-- A `LIST` machine that has its class and needs no authority. -/
structure ListMachine (F M : Type) where
  parameters : List (Parameter F M)
  currentState : String
  enabled : Bool
  needsCheck : ℕ

def ListMachine.new (parameters : List (Parameter F M)) : ListMachine F M :=
  ⟨parameters, "undefined", false, 0⟩

def ListMachine.setNeedsCheck (s : ListMachine F M) : ListMachine F M :=
  if s.enabled then { s with needsCheck := s.needsCheck + 1 } else s

def ListMachine.expected (s : ListMachine F M) : String :=
  if s.parameters.isEmpty then "empty" else "nonempty"

variable (leave : ListMachine F M → Option (ListMachine F M))

/-- While the list is enabled the dependent machines run their handlers for the state that it
leaves, which may work on the list. -/
def ListMachine.leaveState (s : ListMachine F M) : Option (ListMachine F M) :=
  if s.enabled && s.currentState != "undefined" then leave s else some s

/-- `setState`; the list's own handler for the new state asks for a check. -/
def ListMachine.setState (state : String) (s : ListMachine F M) : Option (ListMachine F M) :=
  if s.currentState = state then some s
  else (s.leaveState leave).map fun s => { s with currentState := state }.setNeedsCheck

def ListMachine.removed (s : ListMachine F M) : Option (ListMachine F M) :=
  if s.parameters.isEmpty then s.setState leave "empty" else some s

/-- What changes a list. The changes in a list of changes are made by handlers for the state that
the list leaves. Handlers for the state that it enters run when the state is set, so that their
changes are the next ones. -/
inductive Change (F M : Type) where
  | addParameter (p : Parameter F M) (position : Int) (before : Bool) (leaving : List (Change F M))
  | removeParameter (which : Int) (leaving : List (Change F M))
  | takeFirst
  | takeLast
  | takeItem (index : Int)
  | clear
  | enable (leaving : List (Change F M))

/-- What `TAKE` and `CLEAR` leave of the members, if they do anything. -/
def Change.takes (ps : List (Parameter F M)) : Change F M → Option (List (Parameter F M))
  | .takeFirst => if ps = [] then none else some ps.tail
  | .takeLast => if ps = [] then none else some ps.dropLast
  | .takeItem index =>
    if 0 ≤ index ∧ index < ps.length then some (ps.eraseIdx index.toNat) else none
  | .clear => some []
  | _ => none

/-- `TAKE` and `CLEAR` leave the state to the next check. -/
def ListMachine.take (s : ListMachine F M) (ps : Option (List (Parameter F M))) : ListMachine F M :=
  match ps with
  | some ps => { s with parameters := ps }.setNeedsCheck
  | none => s

mutual

def Change.run : Change F M → ListMachine F M → Option (ListMachine F M)
  | .addParameter p position before leaving, s =>
    (Parameter.insert s.parameters p position before).bind fun ps =>
      ({ s with parameters := ps }.setState (runAll leaving) "nonempty").map
        ListMachine.setNeedsCheck
  | .removeParameter which leaving, s =>
    if which < 0 ∨ s.parameters.length ≤ which then some s
    else
      ({ s with parameters := s.parameters.eraseIdx which.toNat }.removed (runAll leaving)).map
        ListMachine.setNeedsCheck
  | .takeFirst, s => some (s.take (Change.takes s.parameters .takeFirst))
  | .takeLast, s => some (s.take (Change.takes s.parameters .takeLast))
  | .takeItem index, s => some (s.take (Change.takes s.parameters (.takeItem index)))
  | .clear, s => some (s.take (Change.takes s.parameters .clear))
  | .enable leaving, s =>
    ({ s with enabled := true }.setState (runAll leaving) s.expected).map
      ListMachine.setNeedsCheck

def runAll : List (Change F M) → ListMachine F M → Option (ListMachine F M)
  | [], s => some s
  | c :: cs, s => (c.run s).bind (runAll cs)

end

inductive Operation (F M : Type) where
  | change (c : Change F M)
  /-- `checkStableStates` on the list; `busy` if it executes a command or has mail -/
  | check (busy : Bool) (leaving : List (Change F M))

def Operation.run : Operation F M → ListMachine F M → Option (ListMachine F M)
  | .change c, s => c.run s
  | .check busy leaving, s =>
    if busy || !s.enabled then some s
    else { s with needsCheck := 0 }.setState (runAll leaving) s.expected

/-- The state tells whether there are members, or the list is to be checked. -/
def ListMachine.Reflects (s : ListMachine F M) : Prop :=
  s.currentState = s.expected ∨ s.needsCheck ≠ 0

/-- What happens to a list that is enabled leaves it as it is or asks for a check. -/
structure Follows (s t : ListMachine F M) : Prop where
  enabled : t.enabled = true
  marked : t = s ∨ t.needsCheck ≠ 0

variable {s t : ListMachine F M} {leave : ListMachine F M → Option (ListMachine F M)}

theorem Follows.refl (h : s.enabled = true) : Follows s s := ⟨h, .inl rfl⟩

theorem Follows.trans {s t u : ListMachine F M} (h₁ : Follows s t) (h₂ : Follows t u) :
    Follows s u := by
  refine ⟨h₂.enabled, ?_⟩
  rcases h₂.marked with rfl | hu
  · exact h₁.marked
  · exact .inr hu

open ListMachine

theorem marked_setNeedsCheck (h : s.enabled = true) :
    s.setNeedsCheck.enabled = true ∧ s.setNeedsCheck.needsCheck ≠ 0 := by
  unfold setNeedsCheck
  rw [if_pos h]
  exact ⟨h, Nat.succ_ne_zero _⟩

theorem follows_setNeedsCheck (s : ListMachine F M) (h : t.enabled = true) :
    Follows s t.setNeedsCheck := ⟨(marked_setNeedsCheck h).1, .inr (marked_setNeedsCheck h).2⟩

section

variable (hlea : ∀ s t, s.enabled = true → leave s = some t → Follows s t)

include hlea

theorem setState_of_enabled
    {state : String} (hs : s.enabled = true) (h : s.setState leave state = some t) :
    t.enabled = true ∧ (t = s ∧ s.currentState = state ∨ t.needsCheck ≠ 0) := by
  unfold setState at h
  split_ifs at h with hsam
  · cases h
    exact ⟨hs, .inl ⟨rfl, hsam⟩⟩
  · obtain ⟨u, hu, rfl⟩ := map_eq_some_iff.mp h
    have hfol : Follows s u := by
      unfold leaveState at hu
      split_ifs at hu
      · exact hlea s u hs hu
      · cases hu
        exact .refl hs
    obtain ⟨hena, hmar⟩ :=
      marked_setNeedsCheck (s := { u with currentState := state }) hfol.enabled
    exact ⟨hena, .inr hmar⟩

theorem follows_setState
    {state : String} (hs : s.enabled = true) (h : s.setState leave state = some t) :
    Follows s t := by
  obtain ⟨hena, hmar⟩ := setState_of_enabled hlea hs h
  exact ⟨hena, hmar.imp_left And.left⟩

theorem follows_removed (hs : s.enabled = true) (h : s.removed leave = some t) : Follows s t := by
  unfold removed at h
  split_ifs at h
  · exact follows_setState hlea hs h
  · cases h
    exact .refl hs

end

theorem follows_take (hs : s.enabled = true) (ps : Option (List (Parameter F M))) :
    Follows s (s.take ps) := by
  cases ps with
  | none => exact .refl hs
  | some ps => exact follows_setNeedsCheck s hs

mutual

open Change

theorem follows_run : ∀ (c : Change F M) (s t : ListMachine F M), s.enabled = true →
    c.run s = some t → Follows s t
  | .addParameter p position before leaving, s, t, hs, h => by
    unfold run at h
    obtain ⟨ps, _, h⟩ := bind_eq_some_iff.mp h
    obtain ⟨u, hu, rfl⟩ := map_eq_some_iff.mp h
    have hset := follows_setState (follows_runAll leaving) (by exact hs) hu
    exact follows_setNeedsCheck s hset.enabled
  | .removeParameter which leaving, s, t, hs, h => by
    unfold run at h
    split_ifs at h
    · cases h
      exact .refl hs
    · obtain ⟨u, hu, rfl⟩ := map_eq_some_iff.mp h
      have hset := follows_removed (follows_runAll leaving) (by exact hs) hu
      exact follows_setNeedsCheck s hset.enabled
  | .takeFirst, s, t, hs, h => by
    unfold run at h
    exact some.inj h ▸ follows_take hs _
  | .takeLast, s, t, hs, h => by
    unfold run at h
    exact some.inj h ▸ follows_take hs _
  | .takeItem index, s, t, hs, h => by
    unfold run at h
    exact some.inj h ▸ follows_take hs _
  | .clear, s, t, hs, h => by
    unfold run at h
    exact some.inj h ▸ follows_take hs _
  | .enable leaving, s, t, hs, h => by
    unfold run at h
    obtain ⟨u, hu, rfl⟩ := map_eq_some_iff.mp h
    have hset := follows_setState (follows_runAll leaving) (by rfl) hu
    exact follows_setNeedsCheck s hset.enabled

theorem follows_runAll : ∀ (cs : List (Change F M)) (s t : ListMachine F M), s.enabled = true →
    runAll cs s = some t → Follows s t
  | [], s, t, hs, h => by
    unfold runAll at h
    exact some.inj h ▸ .refl hs
  | c :: cs, s, t, hs, h => by
    unfold runAll at h
    obtain ⟨u, hu, ht⟩ := bind_eq_some_iff.mp h
    have hfir := follows_run c s u hs hu
    exact hfir.trans (follows_runAll cs u t hfir.enabled ht)

end

theorem Follows.reflects (h : Follows s t) (hs : s.Reflects) : t.Reflects := by
  rcases h.marked with rfl | hmar
  · exact hs
  · exact .inr hmar

open Operation

theorem reflects_check {busy : Bool} {leaving : List (Change F M)} (hs : s.Reflects)
    (h : (check busy leaving).run s = some t) : t.Reflects := by
  by_cases hski : (busy || !s.enabled) = true
  · rw [run, if_pos hski] at h
    cases h
    exact hs
  · rw [run, if_neg hski] at h
    have hena : s.enabled = true := by
      simp only [Bool.or_eq_true, Bool.not_eq_true', not_or, Bool.not_eq_false] at hski
      exact hski.2
    obtain ⟨_, ⟨rfl, hsam⟩ | hmar⟩ :=
      setState_of_enabled (follows_runAll leaving) (by exact hena) h
    · exact .inl hsam
    · exact .inr hmar

theorem setNeedsCheck_of_disabled (h : s.enabled = false) : s.setNeedsCheck = s := by
  unfold setNeedsCheck
  rw [h]
  rfl

theorem setState_of_disabled (h : s.enabled = false) (state : String) :
    s.setState leave state = some { s with currentState := state } := by
  unfold setState leaveState
  split_ifs with hsam hlea
  · rw [← hsam]
  · simp [h] at hlea
  · rw [map_some, setNeedsCheck_of_disabled (by exact h)]

theorem insert_ne_nil {ps qs : List (Parameter F M)} {p : Parameter F M} {position : Int}
    {before : Bool} (h : Parameter.insert ps p position before = some qs) : qs ≠ [] := by
  have hins (i : ℕ) (hi : i ≤ ps.length) : ps.insertIdx i p ≠ [] := by
    apply List.ne_nil_of_length_pos
    rw [List.length_insertIdx_of_le_length hi]
    omega
  unfold Parameter.insert at h
  dsimp only at h
  split_ifs at h
  all_goals
    cases h
    first
      | exact List.append_ne_nil_of_right_ne_nil _ (List.cons_ne_nil _ _)
      | exact hins _ (by omega)

/-- `TAKE` and `CLEAR` do not take the last member of a list that is disabled and is not to be
checked. -/
def Operation.Careful (s : ListMachine F M) : Operation F M → Prop
  | .change c => c.takes s.parameters = some [] →
      s.enabled = true ∨ s.needsCheck ≠ 0 ∨ s.parameters = []
  | .check _ _ => True

theorem reflects_removed {i : ℕ} (hs : s.Reflects) (hdis : s.enabled = false)
    (h : { s with parameters := s.parameters.eraseIdx i }.removed leave = some t) :
    t.enabled = false ∧ t.Reflects := by
  unfold removed at h
  split_ifs at h with hemp
  · rw [setState_of_disabled (by exact hdis)] at h
    cases h
    refine ⟨hdis, .inl ?_⟩
    exact (if_pos hemp).symm
  · cases h
    refine ⟨hdis, hs.imp_left fun hsta => ?_⟩
    have hmem : s.parameters.isEmpty = false := by
      cases hps : s.parameters with
      | nil => simp [hps] at hemp
      | cons p rest => rfl
    rw [expected, hmem] at hsta
    exact hsta.trans (if_neg hemp).symm

theorem takes_nil {c : Change F M} {ps : List (Parameter F M)} (h : c.takes [] = some ps) :
    ps = [] := by
  cases c with
  | clear => exact (some.inj h).symm
  | takeItem index =>
    have hout : ¬(0 ≤ index ∧ index < ([] : List (Parameter F M)).length) := by
      rw [List.length_nil]
      omega
    rw [Change.takes, if_neg hout] at h
    cases h
  | addParameter p position before leaving => cases h
  | removeParameter which leaving => cases h
  | takeFirst => cases h
  | takeLast => cases h
  | enable leaving => cases h

theorem reflects_take_iff (hs : s.Reflects) (hena : s.enabled = false) (c : Change F M) :
    (s.take (c.takes s.parameters)).Reflects ↔ (change c).Careful s := by
  show _ ↔ (c.takes s.parameters = some [] →
    s.enabled = true ∨ s.needsCheck ≠ 0 ∨ s.parameters = [])
  cases htak : c.takes s.parameters with
  | none => exact iff_of_true hs nofun
  | some ps =>
    have htae : s.take (some ps) = { s with parameters := ps } := by
      exact setNeedsCheck_of_disabled hena
    rw [htae, hena]
    by_cases hche : s.needsCheck = 0
    · have hsta : s.currentState = s.expected := hs.resolve_right (not_not.mpr hche)
      unfold ListMachine.Reflects expected at *
      rw [hsta]
      cases hps : ps with
      | nil =>
        cases hpar : s.parameters with
        | nil => simp
        | cons p rest => simp [hche]
      | cons p rest =>
        have hne : s.parameters ≠ [] := by
          intro hnil
          rw [hnil] at htak
          rw [takes_nil htak] at hps
          cases hps
        simp [hne]
    · exact iff_of_true (.inr hche) fun _ => .inr (.inl hche)

/-- What is done to a list that is disabled sets its state, `TAKE` and `CLEAR` apart. -/
theorem reflects_change_iff {c : Change F M} (hs : s.Reflects) (hdis : s.enabled = false)
    (h : c.run s = some t) : t.Reflects ↔ (change c).Careful s := by
  cases c with
  | addParameter p position before leaving =>
    refine iff_of_true ?_ nofun
    obtain ⟨ps, hps, h⟩ := bind_eq_some_iff.mp h
    rw [setState_of_disabled (by exact hdis), map_some,
      setNeedsCheck_of_disabled (by exact hdis)] at h
    cases h
    left
    simp [expected, insert_ne_nil hps]
  | removeParameter which leaving =>
    refine iff_of_true ?_ nofun
    rw [Change.run] at h
    by_cases hout : which < 0 ∨ s.parameters.length ≤ which
    · rw [if_pos hout] at h
      cases h
      exact hs
    · rw [if_neg hout] at h
      obtain ⟨u, hu, rfl⟩ := map_eq_some_iff.mp h
      obtain ⟨hu, href⟩ := reflects_removed hs hdis hu
      rwa [setNeedsCheck_of_disabled hu]
  | takeFirst =>
    cases h
    exact reflects_take_iff hs hdis .takeFirst
  | takeLast =>
    cases h
    exact reflects_take_iff hs hdis .takeLast
  | takeItem index =>
    cases h
    exact reflects_take_iff hs hdis (.takeItem index)
  | clear =>
    cases h
    exact reflects_take_iff hs hdis .clear
  | enable leaving =>
    refine iff_of_true ?_ nofun
    obtain ⟨u, hu, rfl⟩ := map_eq_some_iff.mp h
    have hset := follows_setState (follows_runAll leaving) (by rfl) hu
    exact .inr (marked_setNeedsCheck hset.enabled).2

theorem reflects_run_iff {op : Operation F M} (hs : s.Reflects) (h : op.run s = some t) :
    t.Reflects ↔ op.Careful s := by
  cases op with
  | check busy leaving => exact iff_of_true (reflects_check hs h) trivial
  | change c =>
    by_cases hena : s.enabled = true
    · exact iff_of_true ((follows_run c s t hena h).reflects hs) fun _ => .inl hena
    · exact reflects_change_iff hs (by simpa using hena) h

def Step (s : ListMachine F M) (op : Operation F M) (t : ListMachine F M) : Prop :=
  op.run s = some t

/-- The state follows the members through a run exactly if it did at first and nothing takes the
last member while the list is disabled. -/
theorem run_reflects_iff (s t : ListMachine F M) (ops : List (Operation F M)) :
    s.Reflects ∧ Run (Guarded Step fun _ _ t => t.Reflects) s ops t ↔
      s.Reflects ∧ Run (Guarded Step fun s op _ => op.Careful s) s ops t := by
  apply and_congr_right
  intro hs
  apply run_guarded_congr (I := ListMachine.Reflects)
  · intro s op t hs hste
    exact reflects_run_iff hs hste
  · intro s op t _ _ ht
    exact ht
  · exact hs

def ListMachine.setInitialState (s : ListMachine F M) (leaving : List (Change F M)) :
    Option (ListMachine F M) :=
  (s.setState (runAll leaving) s.expected).map ListMachine.setNeedsCheck

/-- A list that is cleared before it is enabled stays nonempty. -/
theorem nonempty_after_clear :
    ∃ s t : ListMachine ℕ ℕ, (ListMachine.new []).setInitialState [] = some s ∧ s.Reflects ∧
      Run Step s [.change (.addParameter ⟨.string "a", "a", none⟩ (-1) false []),
        .change .clear] t ∧ t.parameters = [] ∧ t.currentState = "nonempty" ∧ ¬t.Reflects := by
  refine ⟨⟨[], "empty", false, 0⟩, ⟨[], "nonempty", false, 0⟩, by rfl, .inl rfl, ?_, rfl, rfl, ?_⟩
  · apply Run.cons (t := ⟨[⟨.string "a", "a", none⟩], "nonempty", false, 0⟩)
    · rfl
    · exact .cons (by rfl) (.nil _)
  · unfold ListMachine.Reflects
    simp [expected]

end Clockwork.ListState
