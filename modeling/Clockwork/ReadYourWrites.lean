import Clockwork.PropertyScopes

namespace Clockwork.Scopes

open Value

open Authority (Env Instance Route route setValue assign wasChanged filtered toVariable)
open PropertyMessage (Tokened stored assign_properties filtered_eq_none)

variable {F M : Type}

section Stored

theorem filtered_kind {env : Env F M} {y : M} {v u : Value F} (h : filtered env y v = some u) :
    u.kind = .integer := by
  unfold filtered at h
  split_ifs at h
  obtain ⟨f, -, rfl⟩ := Option.map_eq_some_iff.mp h
  rfl

variable [DecidableEq M] [Double F] {env : Env F M} {w : M → Instance F} {y : M} {q : String}

def Assignable (v : Value F) : Prop := v ≠ .empty ∧ Tokened v

def Recognised (prev : Value F) : Prop :=
  ∀ v, Assignable v → wasChanged prev v none = false → Value.Same v prev

structure Keeps (env : Env F M) (w : M → Instance F) (y : M) (q : String) : Prop where
  no_filter : (env.config y).filter = none
  no_output : ¬(q = "VALUE" ∧ (env.config y).hasIoInterface = true)
  recognised : Recognised ((w y).properties q)

omit [DecidableEq M] in
theorem stored_cases (env : Env F M) (y : M) (q : String) (v : Value F) :
    stored env y q v = v ∨ (stored env y q v).kind = .integer := by
  have hfil : (filtered env y v).getD v = v ∨ ((filtered env y v).getD v).kind = .integer := by
    cases hv : filtered env y v with
    | none => exact .inl rfl
    | some u => exact .inr (filtered_kind hv)
  unfold stored
  split_ifs
  · cases v.asInteger with
    | none => exact hfil
    | some i => exact .inr rfl
  · exact hfil

theorem assign_ne_empty {v : Value F} (hv : v ≠ .empty) :
    ((assign env w y q v) y).properties q ≠ .empty := by
  rw [assign_properties]
  split_ifs with hcha
  · rcases stored_cases env y q v with hsam | hkin
    · rwa [hsam]
    · intro hemp
      rw [hemp] at hkin
      cases hkin
  · -- a value is stored where there was none
    intro hemp
    rw [hemp] at hcha
    have hnul : v.isNull = false := by
      rw [← Bool.not_eq_true, isNull_iff]
      exact hv
    have hnul' : (empty : Value F).isNull = true := rfl
    cases hfil : filtered env y v <;>
      simp [wasChanged, hfil, hnul, hnul'] at hcha

theorem eq_prev_of_same (env : Env F M) {v : Value F} (hv : v.kind ≠ .symbol)
    (hsto : stored env y q v ≠ v)
    (h : Value.Same v (((assign env w y q v) y).properties q)) : (w y).properties q = v := by
  have heq := (same_iff_eq hv).mp h
  rw [assign_properties] at heq
  split_ifs at heq with hcha
  · exact absurd heq.symm hsto
  · exact heq.symm

theorem forall_same_assign_iff :
    (∀ v, Assignable v → Value.Same v (((assign env w y q v) y).properties q)) ↔
      Keeps env w y q := by
  constructor
  · intro h
    -- two texts cannot both have been there before
    have hfil : (env.config y).filter = none := by
      by_contra hsom
      obtain ⟨f, hf⟩ := Option.ne_none_iff_exists'.mp hsom
      have htex (s : String) (hs : (strtol s).2 = false) : (w y).properties q = .string s := by
        have hnum : (string s : Value F).asInteger = none :=
          if_neg (by simp [asIntegerInto, hs])
        apply eq_prev_of_same env (by simp [kind]) ?_
          (h (.string s) ⟨by simp, trivial⟩)
        simp [stored, hnum, filtered, kind, hf]
      have hfir := htex "a" (by decide)
      have hsec := htex "b" (by decide)
      rw [hfir] at hsec
      exact absurd (string.inj hsec) (by decide)
    refine ⟨hfil, ?_, ?_⟩
    · intro hout
      have hboo (b : Bool) : (w y).properties q = .bool b := by
        apply eq_prev_of_same env (by simp [kind]) ?_
          (h (.bool b) ⟨by simp, trivial⟩)
        have hnum : ∃ i, (bool b : Value F).asInteger = some i := ⟨_, rfl⟩
        obtain ⟨i, hi⟩ := hnum
        simp [stored, hout, hi]
      have htru := hboo true
      rw [hboo false] at htru
      cases htru
    · intro v hv hcha
      have hsam := h v hv
      rwa [assign_properties, filtered_eq_none hfil, if_neg (by simp [hcha])] at hsam
  · intro h v hv
    rw [assign_properties, filtered_eq_none h.no_filter]
    split_ifs with hcha
    · rw [stored, if_neg h.no_output, filtered_eq_none h.no_filter]
      exact .refl v
    · exact h.recognised v hv (by simpa using hcha)

end Stored

section Ways

variable (p : Program F M)

structure Uncovered (x : M) (n : String) : Prop where
  no_parameter : (p.machine x).parameter n = none
  not_timer : n ≠ "TIMER"
  not_keyword : p.keywords.st n = none

variable {p} in
theorem uncovered_iff {x : M} {n : String} (h : (p.machine x).parameter n = none) :
    Uncovered p x n ↔ ¬(n = "TIMER" ∨ p.keywords.existsName n = true) := by
  constructor
  · intro hunc
    simp [hunc.not_timer, SymbolTable.existsName, hunc.not_keyword]
  · intro hnot
    rw [not_or] at hnot
    exact ⟨h, hnot.1, by simpa [SymbolTable.existsName] using hnot.2⟩

variable [Double F]

/-- A search for the name takes the step that a request for it takes. -/
def Follows (x : M) (n : String) : Route M → Prop
  | .reply _ => False
  | .assign => Uncovered p x n
  | .forward m _ =>
    splitDot n = none →
      (p.machine x).parameter n = none ∧
        ((p.machine x).globalReferences n = none →
          Uncovered p x n ∧ locateInherited p.toProgram x n = none ∧
            (p.machine m).classToken.holdsValue = true)

def FollowsAll (w : M → Instance F) : ℕ → M → String → Prop
  | 0, _, _ => False
  | depth + 1, x, n =>
    Follows p x n (route p.env w x n 0) ∧
      ∀ m r, route p.env w x n 0 = .forward m r → FollowsAll w depth m r

variable {p} {w w' : M → Instance F} {x y m : M} {n q r : String}

section

variable (hspl : splitDot n = none)

include hspl

theorem locate_of_parameter {v : Value F} (hpar : (p.machine x).parameter n = some v) (fuel : ℕ) :
    locate (p.inWorld w) fuel x n = some (.parameter x n) := by
  rw [locate_of_no_dot _ hspl, locatePlain, parameter_inWorld, hpar]

theorem locate_of_reference (hpar : (p.machine x).parameter n = none)
    (href : (p.machine x).globalReferences n = some (some m)) (fuel : ℕ) :
    locate (p.inWorld w) fuel x n = locateValue (p.inWorld w) fuel m := by
  rw [locate_of_no_dot _ hspl, locatePlain, parameter_inWorld, hpar, globalReferences_inWorld, href]

theorem locate_of_own (hpar : (p.machine x).parameter n = none)
    (href : (p.machine x).globalReferences n = none) (fuel : ℕ) : locate (p.inWorld w) fuel x n =
      locateOwn (p.inWorld w) (locateValue (p.inWorld w) fuel) x n := by
  rw [locate_of_no_dot _ hspl, locatePlain, parameter_inWorld, hpar, globalReferences_inWorld, href]

theorem locate_of_machine (href : (p.machine x).globalReferences n = none)
    (huns : ((w x).properties n).isNull = true) (hloo : (p.machine x).lookup n = some m)
    (hunc : Uncovered p x n) (hinh : locateInherited p.toProgram x n = none)
    (hhol : (p.machine m).classToken.holdsValue = true) (fuel : ℕ) :
    locate (p.inWorld w) fuel x n = locateValue (p.inWorld w) fuel m := by
  rw [locate_of_own hspl hunc.no_parameter href, locateOwn_inWorld,
    if_neg ((uncovered_iff hunc.no_parameter).mp hunc), if_pos huns, locateUnset, hinh, hloo]
  exact if_pos hhol

theorem of_locate_machine (href : (p.machine x).globalReferences n = none)
    (huns : ((w x).properties n).isNull = true) (hloo : (p.machine x).lookup n = some m)
    {fuel : ℕ} (h : locate (p.inWorld w) fuel x n = some (.property y q)) :
    Uncovered p x n ∧ locateInherited p.toProgram x n = none ∧
      (p.machine m).classToken.holdsValue = true := by
  have hpar : (p.machine x).parameter n = none := by
    rw [Option.eq_none_iff_forall_ne_some]
    intro v hv
    simp [locate_of_parameter hspl hv] at h
  rw [locate_of_own hspl hpar href, locateOwn_inWorld] at h
  by_cases hcom : n = "TIMER" ∨ p.keywords.existsName n = true
  · simp [hcom] at h
  · rw [if_neg hcom, if_pos huns, locateUnset] at h
    refine ⟨(uncovered_iff hpar).mpr hcom, ?_⟩
    cases hinh : locateInherited p.toProgram x n with
    | some place =>
      rw [hinh] at h
      exact absurd (hinh.trans h) (locateInherited_ne_property p.toProgram x y n q)
    | none =>
      refine ⟨rfl, ?_⟩
      by_contra hhol
      simp [hinh, hloo, hhol] at h

end

theorem locate_property_iff (hspl : splitDot q = none)
    (href : (p.machine y).globalReferences q = none)
    (hset : ((w y).properties q).isNull = false) (fuel : ℕ) :
    locate (p.inWorld w) fuel y q = some (.property y q) ↔ Uncovered p y q := by
  cases hpar : (p.machine y).parameter q with
  | some v =>
    have hcov : ¬Uncovered p y q := fun h => by simp [h.no_parameter] at hpar
    simp [locate_of_parameter hspl hpar, hcov]
  | none =>
    rw [locate_of_own hspl hpar href, locateOwn_inWorld, uncovered_iff hpar]
    by_cases hcom : q = "TIMER" ∨ p.keywords.existsName q = true
    · simp [hcom]
    · simp [hcom, hset]

theorem locate_iff_followsAll {depth : ℕ} (hw : Wrote w w' y q)
    (h : arrive p.env depth w x n 0 = some (.stored y q)) {fuel : ℕ}
    (hfue : locate (p.inWorld w') fuel x n ≠ none) :
    locate (p.inWorld w') fuel x n = some (.property y q) ↔ FollowsAll p w depth x n := by
  induction depth generalizing x n fuel with
  | zero => cases h
  | succ depth ih =>
    rw [arrive] at h
    rw [FollowsAll]
    have hrou := routed p.env w x n 0
    generalize route p.env w x n 0 = way at h hrou ⊢
    -- the search in another machine has one call less
    have hval {m : M} (h : arrive p.env depth w m "VALUE" 0 = some (.stored y q))
        (hfue : locateValue (p.inWorld w') fuel m ≠ none) :
        locateValue (p.inWorld w') fuel m = some (.property y q) ↔
          FollowsAll p w depth m "VALUE" := by
      cases fuel with
      | zero => exact absurd rfl hfue
      | succ fuel =>
        have hloc := locate_of_no_dot (p.inWorld w') (by decide : splitDot "VALUE" = none) fuel m
        rw [locateValue, ← hloc] at hfue ⊢
        exact ih h hfue
    cases hrou with
    | reply result => cases h
    | dotted hspl hloo =>
      rw [locate_of_dot (p.inWorld w') hspl hloo] at hfue ⊢
      simp [Follows, hspl, ih h hfue]
    | @reference m hspl href =>
      cases hpar : (p.machine x).parameter n with
      | some v => simp [locate_of_parameter hspl hpar, Follows, hspl, hpar]
      | none =>
        have href' : (p.machine x).globalReferences n = some (some m) := href
        rw [locate_of_reference hspl hpar href'] at hfue ⊢
        simp [Follows, hpar, href', hval h hfue]
    | @machine m hspl href huns hne hloo =>
      have href' : (p.machine x).globalReferences n = none := href
      have hloo' : (p.machine x).lookup n = some m := hloo
      have huns' : ((w' x).properties n).isNull = true := by
        rw [hw.others x n (by simp [arrive_value h, hne]), huns]
        rfl
      have hfol : Follows p x n (.forward m "VALUE") ↔
          Uncovered p x n ∧ locateInherited p.toProgram x n = none ∧
            (p.machine m).classToken.holdsValue = true := by
        simp only [Follows, hspl, href', forall_true_left]
        exact ⟨fun h => h.2, fun h => ⟨h.1.no_parameter, h⟩⟩
      rw [hfol]
      constructor
      · intro hloc
        have hcon := of_locate_machine hspl href' huns' hloo' hloc
        rw [locate_of_machine hspl href' huns' hloo' hcon.1 hcon.2.1 hcon.2.2]
          at hfue hloc
        simpa [hcon] using (hval h hfue).mp hloc
      · intro hcon
        obtain ⟨⟨hunc, hinh, hhol⟩, hres⟩ := hcon
        rw [locate_of_machine hspl href' huns' hloo' hunc hinh hhol]
          at hfue ⊢
        exact (hval h hfue).mpr (hres m "VALUE" rfl)
    | own hspl href =>
      cases h
      have hset : ((w' y).properties q).isNull = false := by
        simpa using mt (isNull_iff _).mp hw.set
      simpa [Follows] using locate_property_iff hspl href hset fuel

end Ways

section ReadsBack

theorem exists_not_same (u : Value F) : ∃ v, Assignable v ∧ ¬Value.Same v u := by
  by_cases h : Value.Same (.integer 0) u
  · refine ⟨.integer 1, ⟨by simp, trivial⟩, fun h' => ?_⟩
    have heq := (same_iff_eq (by simp [kind])).mp (h'.trans h.symm)
    exact absurd (integer.inj heq) (by decide)
  · exact ⟨.integer 0, ⟨by simp, trivial⟩, h⟩

variable [DecidableEq M] [Double F] (p : Program F M) (fuel depth : ℕ)

def ReadsBack (w : M → Instance F) (x : M) (name : String) (v : Value F) : Prop :=
  (setValue p.env depth w x name v 0).1 = true →
    ∃ u, Resolve.getValue (p.inWorld (setValue p.env depth w x name v 0).2) fuel x name = some u ∧
      Value.Same v u

variable {p fuel depth} {w : M → Instance F} {x : M} {name : String} {place : Place M}

/-- Every value is read back exactly if the request is refused, or it is stored in a property that
keeps it and that a search for the name is led to. -/
theorem readsBack_iff {arrival : Arrival M}
    (hlocate : locate (p.inWorld w) fuel x name = some place)
    (harrive : arrive p.env depth w x name 0 = some arrival) :
    (∀ v, Assignable v → ReadsBack p fuel depth w x name v) ↔
      (arrival ≠ .reply false → ∃ y q, arrival = .stored y q ∧ FollowsAll p w depth x name ∧
        Keeps p.env w y q) := by
  have hset (v : Value F) := setValue_of_arrive harrive v
  simp only [ReadsBack, hset, getValue_eq]
  cases arrival with
  | reply result =>
    cases result with
    | false => simp [Arrival.deliver]
    | true =>
      -- the value is what it was before
      refine iff_of_false (fun h => ?_) (by simp)
      obtain ⟨v, hv, hnot⟩ := exists_not_same (place.read (p.inWorld w))
      obtain ⟨u, hu, hsam⟩ := h v hv rfl
      rw [Arrival.deliver, hlocate] at hu
      cases hu
      exact hnot hsam
  | stored y q =>
    have hwro {v : Value F} (hv : Assignable v) : Wrote w (assign p.env w y q v) y q :=
      wrote_assign (assign_ne_empty hv.1)
    have hfue {v : Value F} (hv : Assignable v) :
        locate (p.inWorld (assign p.env w y q v)) fuel x name ≠ none := by
      rcases locate_of_wrote p (hwro hv) fuel x name with hsam | hnew
      · simp [hsam, hlocate]
      · simp [hnew]
    by_cases hfol : FollowsAll p w depth x name
    · have hloc {v : Value F} (hv : Assignable v) :=
        (locate_iff_followsAll (hwro hv) harrive (hfue hv)).mpr hfol
      have hrea (v : Value F) (hv : Assignable v) :
          (∃ u, (locate (p.inWorld (assign p.env w y q v)) fuel x name).map
              (Place.read (p.inWorld (assign p.env w y q v))) = some u ∧ Value.Same v u) ↔
            Value.Same v (((assign p.env w y q v) y).properties q) := by
        rw [hloc hv, Option.map_some, read_of_locate p (hloc hv)]
        simp
      simp only [Arrival.deliver, forall_const, ne_eq, reduceCtorEq, not_false_eq_true]
      refine (forall₂_congr hrea).trans ?_
      rw [forall_same_assign_iff]
      simp [hfol]
    · -- the search ends at another place, which has one value for all requests
      refine iff_of_false (fun h => ?_) (by simp [hfol])
      obtain ⟨v, hv, hnot⟩ := exists_not_same (place.read (p.inWorld w))
      obtain ⟨u, hu, hsam⟩ := h v hv rfl
      have hoth : locate (p.inWorld (assign p.env w y q v)) fuel x name ≠
          some (.property y q) := by
        rwa [ne_eq, locate_iff_followsAll (hwro hv) harrive (hfue hv)]
      have hloc : locate (p.inWorld (assign p.env w y q v)) fuel x name = some place := by
        rcases locate_of_wrote p (hwro hv) fuel x name with hsam | hnew
        · exact hsam.trans hlocate
        · exact absurd hnew hoth
      have hpla : place ≠ .property y q := by
        rintro rfl
        exact hoth hloc
      rw [Arrival.deliver, hloc, Option.map_some, read_of_wrote p (hwro hv) hpla] at hu
      cases hu
      exact hnot hsam

end ReadsBack

def panel (token : Resolve.ClassToken) : Program ℚ Bool where
  machine x :=
    { classToken := if x then .other else token
      classParameters := []
      parameters := []
      globalReferences := fun _ => none
      properties := .empty
      classProperties := .empty
      lookup := fun n => if n = "lamp" then some false else none
      lookupState := fun _ => none
      currentStateVal := .empty
      currentNameValue := .empty
      currentValueHolder := .empty
      timerVal := .integer 0 }
  globals := .empty
  keywords := .initial
  getKeyValue _ := .empty
  name x := if x then "panel" else "lamp"
  expectedAuthority _ := 0
  isShadow _ := false
  channelConnected _ := false
  filter _ := none
  hasIoInterface _ := false
  value_not_keyword := rfl

def noProperties : Bool → Instance ℚ := fun _ => ⟨"", fun _ => .empty⟩

theorem splitDot_lamp : splitDot "lamp" = none := by decide

/-- The `VALUE` of a `VARIABLE` is read as it was written. -/
theorem readsBack_variable :
    locate ((panel .tokVariable).inWorld noProperties) 1 true "lamp" = some .null ∧
      arrive (panel .tokVariable).env 2 noProperties true "lamp" 0 = some (.stored false "VALUE") ∧
      ∀ v, Assignable v → ReadsBack (panel .tokVariable) 1 2 noProperties true "lamp" v := by
  have hloc : locate ((panel .tokVariable).inWorld noProperties) 1 true "lamp" = some .null :=
    (locate_of_no_dot _ splitDot_lamp 1 true).trans rfl
  refine ⟨hloc, rfl, (readsBack_iff hloc rfl).mpr fun _ => ⟨false, "VALUE", rfl, ?_, ?_⟩⟩
  · have hunc (x : Bool) (n : String) (h : n = "lamp" ∨ n = "VALUE") :
        Uncovered (panel .tokVariable) x n := by
      rcases h with rfl | rfl <;> cases x <;> exact ⟨rfl, by decide, rfl⟩
    refine ⟨fun _ => ⟨rfl, fun _ => ⟨hunc _ _ (.inl rfl), rfl, rfl⟩⟩, ?_⟩
    rintro m r hrou
    obtain ⟨rfl, rfl⟩ : m = false ∧ r = "VALUE" := by
      cases hrou
      exact ⟨rfl, rfl⟩
    exact ⟨hunc _ _ (.inr rfl), fun _ _ h => by cases h⟩
  · refine ⟨rfl, by decide, fun v hv hcha => ?_⟩
    have hnul : v.isNull = false := by
      rw [← Bool.not_eq_true, isNull_iff]
      exact hv.1
    have hemp : (empty : Value ℚ).isNull = true := rfl
    simp [wasChanged, noProperties, hnul, hemp] at hcha

/-- The `VALUE` of a machine of another class is set and not read. -/
theorem flag_not_readsBack :
    (setValue (panel .other).env 2 noProperties true "lamp" (.integer 5) 0).1 = true ∧
      Resolve.getValue ((panel .other).inWorld
        (setValue (panel .other).env 2 noProperties true "lamp" (.integer 5) 0).2) 1 true "lamp" =
          some .empty ∧ ¬ReadsBack (panel .other) 1 2 noProperties true "lamp" (.integer 5) := by
  have hget : Resolve.getValue ((panel .other).inWorld
      (setValue (panel .other).env 2 noProperties true "lamp" (.integer 5) 0).2) 1 true "lamp" =
        some .empty :=
    (Resolve.getValue_of_no_dot _ splitDot_lamp 1 true).trans rfl
  refine ⟨rfl, hget, fun h => ?_⟩
  obtain ⟨u, hu, hsam⟩ := h rfl
  rw [hget] at hu
  cases hu
  cases hsam

end Clockwork.Scopes
