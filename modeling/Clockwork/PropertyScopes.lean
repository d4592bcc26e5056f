import Clockwork.PropertyAssign
import Clockwork.Resolve

namespace Clockwork.Scopes

open Authority Resolve SymbolTable

open Authority (Instance Env Config Route route setValue)
open PropertyMessage (route_forward assign_properties_of_ne)

variable {F M : Type}

/-- A program, with what `setValue` reads of the machines besides. The properties of the instances
are not those of `machine` but those of a world. -/
structure Program (F M : Type) extends Resolve.Program F M where
  name : M → String
  expectedAuthority : M → UInt64
  isShadow : M → Bool
  channelConnected : M → Bool
  filter : M → Option (Value F → Int64)
  hasIoInterface : M → Bool
  value_not_keyword : keywords.st "VALUE" = none

def table (properties : String → Value F) : SymbolTable F :=
  SymbolTable.empty.load fun n => if (properties n).isNull then none else some (properties n)

def Program.inWorld (p : Program F M) (w : M → Instance F) : Resolve.Program F M :=
  { p.toProgram with
    machine := fun x => { p.machine x with properties := table (w x).properties } }

/-- The program as `setValue` sees it, which uses neither states nor outputs and reads no value. -/
def Program.env (p : Program F M) : Env F M where
  config x :=
    { name := p.name x
      expectedAuthority := p.expectedAuthority x
      isShadow := p.isShadow x
      channelConnected := p.channelConnected x
      isConstant := (p.machine x).classToken = .tokConstant
      states := []
      globalReferences := (p.machine x).globalReferences
      filter := p.filter x
      hasIoInterface := p.hasIoInterface x }
  lookup x := (p.machine x).lookup
  find _ := none
  getValue _ _ _ := .empty
  output _ _ := none

inductive Place (M : Type) where
  | parameter (x : M) (name : String)
  | property (x : M) (name : String)
  | classProperty (x : M) (name : String)
  | global (name : String)
  | computed (x : M) (name : String)
  | null
deriving DecidableEq, Repr

section Reading

variable [Double F] (prog : Resolve.Program F M)

def Place.read : Place M → Value F
  | .parameter x n => ((prog.machine x).parameter n).getD .empty
  | .property x n => Resolve.property prog x n
  | .classProperty x n => (prog.machine x).classProperties.lookupName prog.keywords n
  | .global n => prog.globals.lookupName prog.keywords n
  | .computed x n => if n = "TIMER" then (prog.machine x).timerVal else prog.getKeyValue n
  | .null => .empty

def locateInherited (x : M) (name : String) : Option (Place M) :=
  if (prog.machine x).classProperties.existsName name then some (.classProperty x name)
  else if prog.globals.existsName name then some (.global name)
  else none

variable (value : M → Option (Place M))

/-- The place of a name that is no property of the instance; `value` is where another machine has
its `VALUE`. -/
def locateUnset (x : M) (name : String) : Option (Place M) :=
  match locateInherited prog x name with
  | some place => some place
  | none =>
    match (prog.machine x).lookup name with
    | some m => if (prog.machine m).classToken.holdsValue then value m else some .null
    | none => some .null

def locateOwn (x : M) (name : String) : Option (Place M) :=
  if name = "TIMER" then some (.computed x name)
  else if prog.keywords.existsName name then some (.computed x name)
  else if (Resolve.property prog x name).eq .empty then locateUnset prog value x name
  else some (.property x name)

def locatePlain (x : M) (name : String) : Option (Place M) :=
  match (prog.machine x).parameter name with
  | some _ => some (.parameter x name)
  | none =>
    match (prog.machine x).globalReferences name with
    | some (some m) => value m
    | _ => locateOwn prog value x name

def locateValue : ℕ → M → Option (Place M)
  | 0, _ => none
  | fuel + 1, m => locatePlain prog (locateValue fuel) m "VALUE"

def locate (fuel : ℕ) (x : M) (name : String) : Option (Place M) :=
  match _h : splitDot name with
  | some (first, rest) =>
    match (prog.machine x).lookup first with
    | some other => locate fuel other rest
    | none => some .null
  | none => locatePlain prog (locateValue prog fuel) x name
termination_by name.length
decreasing_by exact (splitDot_length _h).2

theorem locate_of_no_dot {name : String} (h : splitDot name = none) (fuel : ℕ) (x : M) :
    locate prog fuel x name = locatePlain prog (locateValue prog fuel) x name := by
  rw [locate]
  split <;> simp_all

theorem locate_of_dot {name first rest : String} (h : splitDot name = some (first, rest)) {x y : M}
    (hy : (prog.machine x).lookup first = some y) (fuel : ℕ) :
    locate prog fuel x name = locate prog fuel y rest := by
  rw [locate]
  split <;> simp_all

theorem inherited_eq (x : M) (name : String) :
    inherited? prog x name = (locateInherited prog x name).map (Place.read prog) := by
  unfold inherited? locateInherited
  split_ifs <;> rfl

omit [Double F] in
theorem locateInherited_ne_property (x y : M) (name q : String) :
    locateInherited prog x name ≠ some (.property y q) := by
  unfold locateInherited
  split_ifs <;> simp

variable {place : M → Option (Place M)}

theorem getPlain_eq {value : M → Option (Value F)}
    (h : ∀ m, value m = (place m).map (Place.read prog)) (x : M) (name : String) :
    getPlain prog value x name = (locatePlain prog place x name).map (Place.read prog) := by
  have hown : getOwn prog value x name =
      (locateOwn prog place x name).map (Place.read prog) := by
    unfold getOwn locateOwn locateUnset
    rw [inherited_eq]
    split_ifs with htim hkey
    · simp [Place.read, htim]
    · simp [Place.read, htim]
    · cases locateInherited prog x name with
      | some place => rfl
      | none =>
        cases (prog.machine x).lookup name with
        | none => rfl
        | some m =>
          dsimp only
          split_ifs
          · exact h m
          · rfl
    · rfl
  unfold getPlain locatePlain
  cases hpar : (prog.machine x).parameter name with
  | some v => simp [Place.read, hpar]
  | none =>
    rcases (prog.machine x).globalReferences name with _ | _ | m
    · exact hown
    · exact hown
    · exact h m

theorem valueOf_eq (fuel : ℕ) (m : M) :
    valueOf prog fuel m = (locateValue prog fuel m).map (Place.read prog) := by
  induction fuel generalizing m with
  | zero => rfl
  | succ fuel ih => exact getPlain_eq prog ih m "VALUE"

theorem getValue_eq (fuel : ℕ) (x : M) (name : String) :
    getValue prog fuel x name = (locate prog fuel x name).map (Place.read prog) := by
  fun_induction locate prog fuel x name with
  | case1 x name first rest hspl other hoth ih =>
    rw [getValue]
    split <;> simp_all
  | case2 x name first rest hspl hoth =>
    rw [getValue]
    split <;> simp_all [Place.read]
  | case3 x name hspl =>
    rw [getValue_of_no_dot prog hspl]
    exact getPlain_eq prog (valueOf_eq prog fuel) x name

theorem locatePlain_property {y : M} {q : String}
    (h : ∀ m, place m = some (.property y q) → prog.keywords.st q = none) {x : M} {name : String}
    (hpla : locatePlain prog place x name = some (.property y q)) : prog.keywords.st q = none := by
  have hown (hpla : locateOwn prog place x name = some (.property y q)) :
      prog.keywords.st q = none := by
    unfold locateOwn locateUnset at hpla
    split_ifs at hpla with htim hkey hnul
    · cases hpla
    · cases hpla
    · cases hinh : locateInherited prog x name with
      | some place =>
        rw [hinh] at hpla
        exact absurd (hinh.trans hpla) (locateInherited_ne_property prog x y name q)
      | none =>
        rw [hinh] at hpla
        cases hloo : (prog.machine x).lookup name with
        | none => simp [hloo] at hpla
        | some m =>
          simp only [hloo] at hpla
          split_ifs at hpla
          · exact h m hpla
          · cases hpla
    · cases hpla
      simpa [existsName] using hkey
  unfold locatePlain at hpla
  cases hpar : (prog.machine x).parameter name with
  | some v => simp [hpar] at hpla
  | none =>
    rw [hpar] at hpla
    rcases hglo : (prog.machine x).globalReferences name with _ | _ | m
    · rw [hglo] at hpla
      exact hown hpla
    · rw [hglo] at hpla
      exact hown hpla
    · rw [hglo] at hpla
      exact h m hpla

theorem locateValue_property {fuel : ℕ} {m y : M} {q : String}
    (h : locateValue prog fuel m = some (.property y q)) : prog.keywords.st q = none := by
  induction fuel generalizing m with
  | zero => cases h
  | succ fuel ih => exact locatePlain_property prog (fun _ => ih) h

theorem locate_property {fuel : ℕ} {x y : M} {name q : String}
    (h : locate prog fuel x name = some (.property y q)) : prog.keywords.st q = none := by
  fun_induction locate prog fuel x name with
  | case1 x name first rest hspl other hoth ih => exact ih h
  | case2 x name first rest hspl hoth => cases h
  | case3 x name hspl => exact locatePlain_property prog (fun _ => locateValue_property prog) h

end Reading

/-- How a request ends: with an answer, or at a property of a machine. -/
inductive Arrival (M : Type) where
  | reply (result : Bool)
  | stored (x : M) (property : String)
deriving DecidableEq, Repr

def arrive (env : Env F M) :
    ℕ → (M → Instance F) → M → String → UInt64 → Option (Arrival M)
  | 0, _, _, _, _ => none
  | depth + 1, w, x, property, authority =>
    match route env w x property authority with
    | .reply result => some (.reply result)
    | .forward y prop => arrive env depth w y prop 0
    | .assign => some (.stored x property)

section Writing

variable {env : Env F M} {w w' : M → Instance F} {x y : M} {n q : String} {a : UInt64}

def Arrival.deliver [DecidableEq M] [Double F] (env : Env F M) (w : M → Instance F) (v : Value F) :
    Arrival M → Bool × (M → Instance F)
  | .reply result => (result, w)
  | .stored y q => (true, Authority.assign env w y q v)

variable {depth : ℕ}

theorem setValue_of_arrive [DecidableEq M] [Double F] {arrival : Arrival M}
    (h : arrive env depth w x n a = some arrival) (v : Value F) :
    setValue env depth w x n v a = arrival.deliver env w v := by
  induction depth generalizing x n a with
  | zero => cases h
  | succ depth ih =>
    rw [arrive] at h
    rw [setValue]
    cases hrou : route env w x n a with
    | reply result =>
      rw [hrou] at h
      cases h
      rfl
    | forward z r =>
      rw [hrou] at h
      exact ih h
    | assign =>
      rw [hrou] at h
      cases h
      rfl

structure Wrote (w w' : M → Instance F) (y : M) (q : String) : Prop where
  others : ∀ x n, (x, n) ≠ (y, q) → (w' x).properties n = (w x).properties n
  set : (w' y).properties q ≠ .empty

theorem isNull_iff (v : Value F) : v.isNull = true ↔ v = .empty := by
  cases v <;> simp [Value.isNull]

def unset (env : Env F M) (x : M) (n : String) : Route M :=
  match env.lookup x n with
  | some y => Authority.toVariable env y
  | none => .assign

/-- A request does not depend on the properties, unless its name is taken for a machine where there
is no property of that name. -/
theorem route_cases (env : Env F M) (x : M) (n : String) (a : UInt64) :
    (∀ w w', route env w x n a = route env w' x n a) ∨ n ≠ "VALUE" ∧ ∀ w, route env w x n a =
          if ((w x).properties n).isNull then unset env x n else .assign := by
  by_cases hemp : n = ""
  · left
    intro w w'
    simp [route, hemp]
  cases hspl : splitDot n with
  | some parts =>
    left
    intro w w'
    simp [route, hemp, hspl]
  | none =>
    by_cases haut : env.expected x ≠ 0 ∧ a = 0
    · left
      intro w w'
      simp [route, hemp, hspl, haut]
    by_cases htra : n = "TRACEABLE"
    · left
      intro w w'
      simp [route, haut, htra]
    cases hglo : (env.config x).globalReferences n with
    | some reference =>
      left
      intro w w'
      simp only [route, hemp, hspl, haut, htra, hglo, if_false]
      cases reference <;> rfl
    | none =>
      by_cases hown : n = "VALUE" ∨ n = (env.config x).name
      · left
        intro w w'
        have hown' : ¬(n ≠ "VALUE" ∧ n ≠ (env.config x).name) := by tauto
        simp [route, hemp, hspl, haut, htra, hglo, hown']
      · rw [not_or] at hown
        refine .inr ⟨hown.1, fun w => ?_⟩
        simp only [route, hemp, hspl, haut, htra, hglo, hown, if_false,
          not_false_eq_true, ne_eq, and_true]
        rfl

inductive Routed (env : Env F M) (w : M → Instance F) (x : M) (n : String) : Route M → Prop
  | reply (result : Bool) : Routed env w x n (.reply result)
  | dotted {first rest : String} {y : M} (split : splitDot n = some (first, rest))
      (lookup : env.lookup x first = some y) : Routed env w x n (.forward y rest)
  | reference {y : M} (split : splitDot n = none)
      (reference : (env.config x).globalReferences n = some (some y)) :
      Routed env w x n (.forward y "VALUE")
  | machine {y : M} (split : splitDot n = none)
      (reference : (env.config x).globalReferences n = none)
      (unset : (w x).properties n = .empty) (ne : n ≠ "VALUE") (lookup : env.lookup x n = some y) :
      Routed env w x n (.forward y "VALUE")
  | own (split : splitDot n = none) (reference : (env.config x).globalReferences n = none) :
      Routed env w x n .assign

theorem routed (env : Env F M) (w : M → Instance F) (x : M) (n : String) (a : UInt64) :
    Routed env w x n (route env w x n a) := by
  have hvar {y : M} (h : Routed env w x n (.forward y "VALUE")) :
      Routed env w x n (toVariable env y) := by
    unfold toVariable
    split_ifs
    · exact .reply false
    · exact h
  unfold route
  split
  · exact .reply false
  split
  · next first rest hspl =>
    split
    · next y hloo =>
      split
      · exact .reply false
      · exact .dotted hspl hloo
    · exact .reply false
  next hspl =>
  split
  · exact .reply _
  split
  · exact .reply true
  split
  · next y href => exact hvar (.reference hspl href)
  · exact .reply false
  next href =>
  split
  · next huns =>
    split
    · next y hloo =>
      exact hvar
        (.machine hspl href ((isNull_iff _).mp huns.1) huns.2.1 hloo)
    · exact .own hspl href
  · exact .own hspl href

theorem unset_forward {env : Env F M} {x z : M} {n r : String} (h : unset env x n = .forward z r) :
    r = "VALUE" := by
  unfold unset toVariable at h
  cases hloo : env.lookup x n with
  | none => simp [hloo] at h
  | some y =>
    simp only [hloo] at h
    split_ifs at h
    cases h
    rfl

theorem arrive_value (h : arrive env depth w x "VALUE" a = some (.stored y q)) : q = "VALUE" := by
  induction depth generalizing x a with
  | zero => cases h
  | succ depth ih =>
    rw [arrive] at h
    cases hrou : route env w x "VALUE" a with
    | reply result =>
      rw [hrou] at h
      cases h
    | forward z r =>
      rw [hrou] at h
      rcases route_forward hrou with ⟨first, hspl⟩ | rfl
      · cases hspl
      · exact ih h
    | assign =>
      rw [hrou] at h
      cases h
      rfl

theorem arrive_of_wrote (hw : Wrote w w' y q) (h : arrive env depth w x n a = some (.stored y q)) :
    arrive env depth w' x n a = some (.stored y q) := by
  induction depth generalizing x n a with
  | zero => cases h
  | succ depth ih =>
    rw [arrive] at h ⊢
    cases hrou : route env w x n a with
    | reply result =>
      rw [hrou] at h
      cases h
    | forward z r =>
      rw [hrou] at h
      have hrou' : route env w' x n a = .forward z r := by
        rcases route_cases env x n a with hsam | ⟨hn, huns⟩
        · rw [hsam w' w, hrou]
        · -- the request ends at a `VALUE`, and that is not the name
          rw [huns] at hrou ⊢
          split_ifs at hrou with hnul
          have hr := unset_forward hrou
          subst hr
          have hne : (x, n) ≠ (y, q) := by simp [arrive_value h, hn]
          rw [hw.others x n hne, if_pos hnul, hrou]
      rw [hrou']
      exact ih h
    | assign =>
      rw [hrou] at h
      cases h
      have hrou' : route env w' y q a = .assign := by
        rcases route_cases env y q a with hsam | ⟨-, huns⟩
        · rw [hsam w' w, hrou]
        · rw [huns, if_neg (mt (isNull_iff _).mp hw.set)]
      rw [hrou']

end Writing

section ReadWrite

variable (p : Program F M)

@[simp] theorem keywords_inWorld (w : M → Instance F) : (p.inWorld w).keywords = p.keywords := rfl

@[simp] theorem parameter_inWorld (w : M → Instance F) (x : M) (n : String) :
    ((p.inWorld w).machine x).parameter n = (p.machine x).parameter n := rfl

@[simp] theorem globalReferences_inWorld (w : M → Instance F) (x : M) :
    ((p.inWorld w).machine x).globalReferences = (p.machine x).globalReferences := rfl

theorem locateUnset_inWorld (w : M → Instance F) (place : M → Option (Place M)) (x : M)
    (n : String) : locateUnset (p.inWorld w) place x n = locateUnset p.toProgram place x n := rfl

variable [Double F] {w w' : M → Instance F} {y : M} {q : String} {n : String}

theorem property_congr {x : M} (h : (w' x).properties n = (w x).properties n) :
    property (p.inWorld w') x n = property (p.inWorld w) x n := by
  simp [property, Program.inWorld, lookupName, table, load, h]

theorem property_inWorld (w : M → Instance F) (x : M) (h : p.keywords.st n = none) :
    property (p.inWorld w) x n = (w x).properties n := by
  have hloo : property (p.inWorld w) x n =
      ((table (w x).properties).st n).getD .empty :=
    lookupName_of_not_keyword p.keywords h _
  rw [hloo]
  cases hv : (w x).properties n <;>
    simp [table, load, empty, Value.isNull, hv]

theorem locateOwn_inWorld (w : M → Instance F) (place : M → Option (Place M)) (x : M) (n : String) :
    locateOwn (p.inWorld w) place x n =
      if n = "TIMER" ∨ p.keywords.existsName n then some (.computed x n)
      else if ((w x).properties n).isNull then locateUnset p.toProgram place x n
      else some (.property x n) := by
  unfold locateOwn
  rw [locateUnset_inWorld, keywords_inWorld]
  by_cases htim : n = "TIMER"
  · simp [htim]
  · by_cases hkey : p.keywords.existsName n = true
    · simp [hkey]
    · have hst : p.keywords.st n = none := by simpa [existsName] using hkey
      have hnul : (((w x).properties n).eq .empty = true) = (((w x).properties n).isNull = true) :=
        propext ((Value.eq_empty_iff _).trans (isNull_iff _).symm)
      simp only [htim, hkey, property_inWorld p w x hst, hnul, if_false]
      rfl

theorem read_of_locate {fuel : ℕ} {x : M}
    (h : locate (p.inWorld w) fuel x n = some (.property y q)) :
    (Place.property y q).read (p.inWorld w) = (w y).properties q :=
  property_inWorld p w y (locate_property (p.inWorld w) h)

section

variable (hw : Wrote w w' y q)

include hw

theorem read_of_wrote {place : Place M} (h : place ≠ .property y q) :
    place.read (p.inWorld w') = place.read (p.inWorld w) := by
  cases place with
  | property x n => exact property_congr p (hw.others x n (by simpa using h))
  | _ => rfl

theorem locatePlain_of_wrote {place place' : M → Option (Place M)}
    (h : ∀ m, place' m = place m ∨ place' m = some (.property y q)) (x : M) (n : String) :
    locatePlain (p.inWorld w') place' x n = locatePlain (p.inWorld w) place x n ∨
      locatePlain (p.inWorld w') place' x n = some (.property y q) := by
  have huns : locateUnset p.toProgram place' x n = locateUnset p.toProgram place x n ∨
      locateUnset p.toProgram place' x n = some (.property y q) := by
    unfold locateUnset
    cases locateInherited p.toProgram x n with
    | some v => exact .inl rfl
    | none =>
      cases (p.machine x).lookup n with
      | none => exact .inl rfl
      | some m =>
        dsimp only
        split_ifs
        · exact h m
        · exact .inl rfl
  have hown : locateOwn (p.inWorld w') place' x n = locateOwn (p.inWorld w) place x n ∨
      locateOwn (p.inWorld w') place' x n = some (.property y q) := by
    rw [locateOwn_inWorld, locateOwn_inWorld]
    by_cases hcom : n = "TIMER" ∨ p.keywords.existsName n = true
    · rw [if_pos hcom, if_pos hcom]
      exact .inl rfl
    rw [if_neg hcom, if_neg hcom]
    by_cases hxn : (x, n) = (y, q)
    · -- the property that was written is found
      cases hxn
      rw [if_neg (mt (isNull_iff _).mp hw.set)]
      exact .inr rfl
    · rw [hw.others x n hxn]
      split_ifs
      · exact huns
      · exact .inl rfl
  simp only [locatePlain, parameter_inWorld, globalReferences_inWorld]
  cases (p.machine x).parameter n with
  | some v => exact .inl rfl
  | none =>
    rcases (p.machine x).globalReferences n with _ | _ | m
    · exact hown
    · exact hown
    · exact h m

theorem locateValue_of_wrote (fuel : ℕ) (m : M) :
    locateValue (p.inWorld w') fuel m = locateValue (p.inWorld w) fuel m ∨
      locateValue (p.inWorld w') fuel m = some (.property y q) := by
  induction fuel generalizing m with
  | zero => exact .inl rfl
  | succ fuel ih => exact locatePlain_of_wrote p hw ih m "VALUE"

theorem locate_of_wrote (fuel : ℕ) (x : M) (n : String) :
    locate (p.inWorld w') fuel x n = locate (p.inWorld w) fuel x n ∨
      locate (p.inWorld w') fuel x n = some (.property y q) := by
  fun_induction locate (p.inWorld w) fuel x n with
  | case1 x name first rest hspl other hoth ih =>
    have hoth' : ((p.inWorld w').machine x).lookup first = some other := hoth
    rwa [locate_of_dot (p.inWorld w') hspl hoth']
  | case2 x name first rest hspl hoth =>
    have hoth' : ((p.inWorld w').machine x).lookup first = none := hoth
    left
    rw [locate]
    split <;> simp_all
  | case3 x name hspl =>
    rw [locate_of_no_dot (p.inWorld w') hspl]
    exact locatePlain_of_wrote p hw (locateValue_of_wrote p hw fuel) x name

end

end ReadWrite

theorem wrote_assign [DecidableEq M] [Double F] {env : Env F M} {w : M → Instance F} {y : M}
    {q : String} {v : Value F} (h : ((assign env w y q v) y).properties q ≠ .empty) :
    Wrote w (assign env w y q v) y q := by
  refine ⟨fun x n hne => ?_, h⟩
  by_cases hx : x = y
  · subst hx
    exact assign_properties_of_ne (by simpa using hne) v
  · exact congrArg (Instance.properties · n) (assign_of_ne hx q v)

end Clockwork.Scopes
