import Clockwork.Names
import Clockwork.SymbolTable

namespace Clockwork.Resolve

open SymbolTable

open SymbolTable (Keywords)

variable {F M : Type}

inductive ClassToken where
  | tokVariable | tokConstant | tokList | tokReference | other
deriving DecidableEq, Repr

def ClassToken.holdsValue : ClassToken → Bool
  | .tokVariable | .tokConstant => true
  | _ => false

structure Machine (F M : Type) where
  classToken : ClassToken
  classParameters : List (Value F)
  parameters : List (Value F)
  /-- the names the class declares as globals, with the machine of each if there is one -/
  globalReferences : String → Option (Option M)
  properties : SymbolTable F
  classProperties : SymbolTable F
  lookup : String → Option M
  lookupState : Value F → Option (Value F)
  currentStateVal : Value F
  currentNameValue : Value F
  currentValueHolder : Value F
  timerVal : Value F

structure Program (F M : Type) where
  machine : M → Machine F M
  globals : SymbolTable F
  keywords : Keywords F
  getKeyValue : String → Value F

def Machine.parameter (mi : Machine F M) (name : String) : Option (Value F) :=
  if mi.classToken.holdsValue then
    (mi.classParameters.zip mi.parameters).findSome? fun (c, v) =>
      match c with
      | .symbol s _ => if s = name then some v else none
      | _ => none
  else none

section Search

variable [Double F] (prog : Program F M)

def property (x : M) (name : String) : Value F :=
  (prog.machine x).properties.lookupName prog.keywords name

/-- The value of a global: its property `VALUE`, or else its state. -/
def globalValue (m : M) : Value F :=
  if (property prog m "VALUE").eq .empty then (prog.machine m).currentStateVal
  else property prog m "VALUE"

def machineValue (m : M) : Value F :=
  match (prog.machine m).classToken with
  | .tokVariable | .tokConstant => property prog m "VALUE"
  | .tokList | .tokReference => (prog.machine m).currentNameValue
  | .other => (prog.machine m).currentValueHolder

/-- What `resolve` looks at after the parameters and the global references. -/
def resolveOwn (x : M) (name : String) : Value F :=
  match (prog.machine x).lookupState (.ofString name) with
  | some v => v
  | none =>
    if prog.keywords.isKeyword (.ofString name) then prog.getKeyValue name
    -- The address of the class property is compared with that of `SymbolTable::Null`, which no
    -- lookup returns, so that neither the class property nor a global symbol is used.
    else if (property prog x name).eq .empty then
      match (prog.machine x).lookup name with
      | some m => machineValue prog m
      | none => .empty
    else property prog x name

def resolvePlain (x : M) (name : String) : Value F :=
  if name = "TIMER" then (prog.machine x).timerVal
  else
    match (prog.machine x).parameter name with
    | some v => v
    | none =>
      match (prog.machine x).globalReferences name with
      | some (some m) => globalValue prog m
      | _ => resolveOwn prog x name

def resolve (x : M) (name : String) : Value F :=
  match _h : splitDot name with
  | some (first, rest) =>
    match (prog.machine x).lookup first with
    | some other => resolve other rest
    | none => .empty
  | none => resolvePlain prog x name
termination_by name.length
decreasing_by exact (splitDot_length _h).2

def inherited? (x : M) (name : String) : Option (Value F) :=
  if (prog.machine x).classProperties.existsName name then
    some ((prog.machine x).classProperties.lookupName prog.keywords name)
  else if prog.globals.existsName name then some (prog.globals.lookupName prog.keywords name)
  else none

variable (value : M → Option (Value F))

/-- What `getValue` looks at after the parameters and the global references; `value` is
`getValue("VALUE")` of another machine. -/
def getOwn (x : M) (name : String) : Option (Value F) :=
  if name = "TIMER" then some (prog.machine x).timerVal
  else if prog.keywords.existsName name then some (prog.getKeyValue name)
  else if (property prog x name).eq .empty then
    match inherited? prog x name with
    | some v => some v
    | none =>
      match (prog.machine x).lookup name with
      | some m => if (prog.machine m).classToken.holdsValue then value m else some .empty
      | none => some .empty
  else some (property prog x name)

def getPlain (x : M) (name : String) : Option (Value F) :=
  match (prog.machine x).parameter name with
  | some v => some v
  | none =>
    match (prog.machine x).globalReferences name with
    | some (some m) => value m
    | _ => getOwn prog value x name

/-- `getValue("VALUE")`, with a bound on its recursion through other machines. -/
def valueOf : ℕ → M → Option (Value F)
  | 0, _ => none
  | fuel + 1, m => getPlain prog (valueOf fuel) m "VALUE"

def getValue (fuel : ℕ) (x : M) (name : String) : Option (Value F) :=
  match _h : splitDot name with
  | some (first, rest) =>
    match (prog.machine x).lookup first with
    | some other => getValue fuel other rest
    | none => some .empty
  | none => getPlain prog (valueOf prog fuel) x name
termination_by name.length
decreasing_by exact (splitDot_length _h).2

def target (x : M) (name : String) : Option (M × String) :=
  match _h : splitDot name with
  | some (first, rest) =>
    match (prog.machine x).lookup first with
    | some other => target other rest
    | none => none
  | none => some (x, name)
termination_by name.length
decreasing_by exact (splitDot_length _h).2

/-- The classes `VARIABLE` and `CONSTANT` as they are predefined, and `VALUE` is no keyword. -/
structure Predefined : Prop where
  keyword : prog.keywords.st "VALUE" = none
  parameter : ∀ m, (prog.machine m).classToken.holdsValue = true →
    (prog.machine m).classParameters = [.ofString "VAL_PARAM1"]
  globalReferences : ∀ m, (prog.machine m).classToken.holdsValue = true →
    (prog.machine m).globalReferences "VALUE" = none
  classProperties : ∀ m, (prog.machine m).classToken.holdsValue = true →
    (prog.machine m).classProperties.existsName "VALUE" = false

/-- The name ends at one that is no state and no keyword, and only denotes a machine if that is a
global reference to a `VARIABLE` or `CONSTANT`. -/
def NamesProperty (x : M) (name : String) : Prop :=
  ∀ y n, target prog x name = some (y, n) →
    (prog.machine y).lookupState (.ofString n) = none ∧ prog.keywords.st n = none ∧
      (∀ m, (prog.machine y).globalReferences n = some (some m) →
        (prog.machine m).classToken.holdsValue = true) ∧
      ((∀ m, (prog.machine y).globalReferences n ≠ some (some m)) →
        (prog.machine y).lookup n = none)

/-- `getValue` returns what `resolve` does. -/
def Agrees (x : M) (name : String) : Prop :=
  ∃ fuel, getValue prog fuel x name = some (resolve prog x name)

def namedValue (m : M) : Option M :=
  ((prog.machine m).lookup "VALUE").filter fun other => (prog.machine other).classToken.holdsValue

/-- The `VALUE` of a `VARIABLE` or `CONSTANT`: its own, or else that of a global symbol with this
name, or else the `VALUE` of a machine with this name. -/
inductive HasValue : M → Value F → Prop
  | own {m : M} (hpro : property prog m "VALUE" ≠ .empty) : HasValue m (property prog m "VALUE")
  | global {m : M} (hpro : property prog m "VALUE" = .empty)
      (h : prog.globals.existsName "VALUE" = true) :
      HasValue m (prog.globals.lookupName prog.keywords "VALUE")
  | named {m other : M} {v : Value F} (hpro : property prog m "VALUE" = .empty)
      (h : prog.globals.existsName "VALUE" = false) (hnam : namedValue prog m = some other)
      (hv : HasValue other v) : HasValue m v
  | null {m : M} (hpro : property prog m "VALUE" = .empty)
      (h : prog.globals.existsName "VALUE" = false) (hnam : namedValue prog m = none) :
      HasValue m .empty

/-- The scope that defines the name has one value for both searches. -/
def SameScope (x : M) (n : String) : Prop :=
  match (prog.machine x).parameter n with
  | some v => n = "TIMER" → v = (prog.machine x).timerVal
  | none =>
    match (prog.machine x).globalReferences n with
    | some (some m) =>
      (property prog m "VALUE" ≠ .empty →
        n = "TIMER" → property prog m "VALUE" = (prog.machine x).timerVal) ∧
      (property prog m "VALUE" = .empty → HasValue prog m
        (if n = "TIMER" then (prog.machine x).timerVal else (prog.machine m).currentStateVal))
    | _ => n = "TIMER" ∨ property prog x n ≠ .empty ∨ (inherited? prog x n).getD .empty = .empty

variable {name : String} {x : M} {n : String}

omit [Double F] in
theorem isKeyword_ofString (h : prog.keywords.st n = none) :
    prog.keywords.isKeyword (.ofString n) = false := by
  have htok := prog.keywords.named n h
  unfold Value.ofString
  split_ifs with hemp
  · subst hemp
    simp [Keywords.isKeyword, token, existsToken, existsName, h]
  all_goals
    simp [Keywords.isKeyword, token, existsToken, existsName, h, htok]

theorem resolveOwn_eq (hsta : (prog.machine x).lookupState (.ofString n) = none)
    (hkey : prog.keywords.st n = none) (hloo : (prog.machine x).lookup n = none) :
    resolveOwn prog x n = property prog x n := by
  simp only [resolveOwn, hsta, isKeyword_ofString prog hkey, hloo, Bool.false_eq_true, if_false]
  split_ifs with h
  · exact ((Value.eq_empty_iff _).mp h).symm
  · rfl

theorem getOwn_eq (hkey : prog.keywords.st n = none) (hloo : (prog.machine x).lookup n = none) :
    getOwn prog value x n = some (if n = "TIMER" then (prog.machine x).timerVal
        else if (property prog x n).eq .empty then (inherited? prog x n).getD .empty
        else property prog x n) := by
  simp only [getOwn, existsName, hkey, hloo, Option.isSome_none, Bool.false_eq_true, if_false]
  split_ifs
  · rfl
  · cases inherited? prog x n <;> rfl
  · rfl

theorem getOwn_agrees_iff (hsta : (prog.machine x).lookupState (.ofString n) = none)
    (hkey : prog.keywords.st n = none) (hloo : (prog.machine x).lookup n = none)
    (value : M → Option (Value F)) : getOwn prog value x n =
        some (if n = "TIMER" then (prog.machine x).timerVal else resolveOwn prog x n) ↔
      n = "TIMER" ∨ property prog x n ≠ .empty ∨ (inherited? prog x n).getD .empty = .empty := by
  rw [getOwn_eq prog value hkey hloo, resolveOwn_eq prog hsta hkey hloo, Option.some.injEq]
  by_cases htim : n = "TIMER"
  · simp [htim]
  · by_cases hpro : property prog x n = .empty
    · have hnul : (Value.empty : Value F).eq .empty := (Value.eq_empty_iff _).mpr rfl
      simp [htim, hpro, hnul]
    · have hnul : ¬(property prog x n).eq .empty := mt (Value.eq_empty_iff _).mp hpro
      simp [htim, hpro, hnul]

section Predefined

variable {prog} (h : Predefined prog) {m : M}
  (hm : (prog.machine m).classToken.holdsValue = true)

include h hm

theorem Predefined.valueOf_succ (fuel : ℕ) :
    valueOf prog (fuel + 1) m = getOwn prog (valueOf prog fuel) m "VALUE" := by
  have hpar : (prog.machine m).parameter "VALUE" = none := by
    rw [Machine.parameter, if_pos hm, h.parameter m hm]
    cases (prog.machine m).parameters <;> rfl
  rw [valueOf, getPlain, hpar, h.globalReferences m hm]

theorem Predefined.valueOf_of_property (hpro : property prog m "VALUE" ≠ .empty) (fuel : ℕ) :
    valueOf prog (fuel + 1) m = some (property prog m "VALUE") := by
  simp [h.valueOf_succ hm, getOwn, existsName, h.keyword, Value.eq_empty_iff, hpro]

theorem Predefined.valueOf_of_null (hpro : property prog m "VALUE" = .empty) (fuel : ℕ) :
    valueOf prog (fuel + 1) m = if prog.globals.existsName "VALUE" then
        some (prog.globals.lookupName prog.keywords "VALUE")
      else (namedValue prog m).elim (some .empty) (valueOf prog fuel) := by
  have hkey : prog.keywords.existsName "VALUE" = false := by rw [existsName, h.keyword]; rfl
  have hnul : (property prog m "VALUE").eq .empty = true := (Value.eq_empty_iff _).mpr hpro
  rw [h.valueOf_succ hm, getOwn, if_neg (by decide), hkey, if_neg Bool.false_ne_true, if_pos hnul,
    inherited?, h.classProperties m hm, if_neg Bool.false_ne_true, namedValue]
  split_ifs
  · rfl
  · cases (prog.machine m).lookup "VALUE" with
    | none => rfl
    | some other =>
      rw [Option.filter_some]
      dsimp only
      split_ifs <;> rfl

/-- `getValue("VALUE")` of a `VARIABLE` or `CONSTANT` -/
theorem Predefined.value_iff (v : Value F) :
    (∃ fuel, valueOf prog fuel m = some v) ↔ HasValue prog m v := by
  have hhol {m other : M} (hnam : namedValue prog m = some other) :
      (prog.machine other).classToken.holdsValue = true :=
    (Option.filter_eq_some_iff.mp hnam).2
  constructor
  · rintro ⟨fuel, hval⟩
    induction fuel generalizing m with
    | zero => cases hval
    | succ fuel ih =>
      by_cases hpro : property prog m "VALUE" = .empty
      · rw [h.valueOf_of_null hm hpro] at hval
        split_ifs at hval with hglo
        · cases hval
          exact .global hpro hglo
        have hglo := eq_false_of_ne_true hglo
        cases hnam : namedValue prog m with
        | none =>
          rw [hnam] at hval
          cases hval
          exact .null hpro hglo hnam
        | some other =>
          rw [hnam] at hval
          exact .named hpro hglo hnam (ih (hhol hnam) hval)
      · rw [h.valueOf_of_property hm hpro] at hval
        cases hval
        exact .own hpro
  · intro hval
    induction hval with
    | own hpro => exact ⟨1, h.valueOf_of_property hm hpro 0⟩
    | global hpro hglo => exact ⟨1, by rw [h.valueOf_of_null hm hpro, if_pos hglo]⟩
    | named hpro hglo hnam _ ih =>
      obtain ⟨fuel, hval⟩ := ih (hhol hnam)
      refine ⟨fuel + 1, ?_⟩
      rw [h.valueOf_of_null hm hpro, hglo, hnam]
      exact hval
    | null hpro hglo hnam =>
      refine ⟨1, ?_⟩
      rw [h.valueOf_of_null hm hpro, hglo, hnam]
      rfl

end Predefined

theorem getPlain_agrees_iff (hpre : Predefined prog)
    (hsta : (prog.machine x).lookupState (.ofString n) = none)
    (hkey : prog.keywords.st n = none)
    (hglo : ∀ m, (prog.machine x).globalReferences n = some (some m) →
      (prog.machine m).classToken.holdsValue = true)
    (hloo : (∀ m, (prog.machine x).globalReferences n ≠ some (some m)) →
      (prog.machine x).lookup n = none) :
    (∃ fuel, getPlain prog (valueOf prog fuel) x n = some (resolvePlain prog x n)) ↔
      SameScope prog x n := by
  unfold SameScope getPlain resolvePlain
  cases hpar : (prog.machine x).parameter n with
  | some v =>
    by_cases htim : n = "TIMER"
    · simp [htim]
    · simp [htim]
  | none =>
    rcases href : (prog.machine x).globalReferences n with _ | _ | m
    · have hnon := hloo (by simp [href])
      simp only [getOwn_agrees_iff prog hsta hkey hnon, exists_const]
    · have hnon := hloo (by simp [href])
      simp only [getOwn_agrees_iff prog hsta hkey hnon, exists_const]
    · simp only [hpre.value_iff (hglo m href)]
      by_cases hval : property prog m "VALUE" = .empty
      · simp [globalValue, Value.eq_empty_iff, hval]
      · have hown {v : Value F} : HasValue prog m v ↔ property prog m "VALUE" = v :=
          ⟨fun h => by cases h <;> simp_all, fun h => h ▸ .own hval⟩
        by_cases htim : n = "TIMER"
        · simp [htim, hval, hown]
        · simp [htim, globalValue, Value.eq_empty_iff, hval, hown]

section

variable (h : splitDot name = none)

include h

theorem resolve_of_no_dot (x : M) : resolve prog x name = resolvePlain prog x name := by
  rw [resolve]
  split <;> simp_all

theorem getValue_of_no_dot (fuel : ℕ) (x : M) :
    getValue prog fuel x name = getPlain prog (valueOf prog fuel) x name := by
  rw [getValue]
  split <;> simp_all

omit [Double F] in
theorem target_of_no_dot (x : M) : target prog x name = some (x, name) := by
  rw [target]
  split <;> simp_all

end

/-- `resolve` and `getValue` agree on a property exactly if the scope that defines it at the end of
the name has one value for both. -/
theorem readersAgree_iff (hpre : Predefined prog) (x : M) (name : String)
    (h : NamesProperty prog x name) :
    Agrees prog x name ↔ ∀ y n, target prog x name = some (y, n) → SameScope prog y n := by
  unfold Agrees NamesProperty at *
  fun_induction target prog x name with
  | case1 x name first rest hspl other hoth ih =>
    have hres : resolve prog x name = resolve prog other rest := by
      rw [resolve]
      split <;> simp_all
    have hget (fuel : ℕ) : getValue prog fuel x name = getValue prog fuel other rest := by
      rw [getValue]
      split <;> simp_all
    simp only [hres, hget]
    exact ih h
  | case2 x name first rest hspl hoth =>
    have hres : resolve prog x name = .empty := by
      rw [resolve]
      split <;> simp_all
    have hget (fuel : ℕ) : getValue prog fuel x name = some .empty := by
      rw [getValue]
      split <;> simp_all
    simp only [hres, hget, exists_const, true_iff]
    exact fun _ _ h => absurd h (by simp)
  | case3 x name hspl =>
    obtain ⟨hsta, hkey, hglo, hloo⟩ := h x name rfl
    have hpla := getPlain_agrees_iff prog hpre hsta hkey hglo hloo
    simp only [resolve_of_no_dot prog hspl, getValue_of_no_dot prog hspl, hpla]
    constructor
    · intro hsam y n heq
      cases heq
      exact hsam
    · intro hall
      exact hall x name rfl

end Search

def plainMachine (properties classProperties : SymbolTable ℚ) : Machine ℚ Unit where
  classToken := .other
  classParameters := []
  parameters := []
  globalReferences _ := none
  properties := properties
  classProperties := classProperties
  lookup _ := none
  lookupState _ := none
  currentStateVal := .empty
  currentNameValue := .empty
  currentValueHolder := .empty
  timerVal := .integer 0

def plainProgram (properties classProperties : SymbolTable ℚ) : Program ℚ Unit where
  machine _ := plainMachine properties classProperties
  globals := .empty
  keywords := .initial
  getKeyValue _ := .empty

def speedFive : SymbolTable ℚ := (SymbolTable.empty.add "speed" (.integer 5) .replace).1

def speedNull : SymbolTable ℚ := (SymbolTable.empty.add "speed" .empty .replace).1

theorem splitDot_speed : splitDot "speed" = none := by decide

variable (properties classProperties : SymbolTable ℚ)

theorem predefined_plainProgram : Predefined (plainProgram properties classProperties) :=
  ⟨rfl, fun _ h => absurd h Bool.false_ne_true, fun _ h => absurd h Bool.false_ne_true,
    fun _ h => absurd h Bool.false_ne_true⟩

theorem namesProperty_speed :
    NamesProperty (plainProgram properties classProperties) () "speed" := by
  intro y n h
  rw [target_of_no_dot _ splitDot_speed] at h
  cases h
  exact ⟨rfl, rfl, fun m h => absurd h (Option.some_ne_none _).symm, fun _ => rfl⟩

/-- An instance property is the same for both. -/
theorem agrees_instance_property : NamesProperty (plainProgram speedFive .empty) () "speed" ∧
      Agrees (plainProgram speedFive .empty) () "speed" := by
  have hnam := namesProperty_speed speedFive .empty
  have hpre := predefined_plainProgram speedFive .empty
  refine ⟨hnam, (readersAgree_iff _ hpre () "speed" hnam).mpr fun y n h => ?_⟩
  rw [target_of_no_dot _ splitDot_speed] at h
  cases h
  exact .inr (.inl (by decide))

/-- Where the machine's own property is `NULL`, that of the class is found by `getValue` and not by
`resolve`. -/
theorem not_agrees_class_property : Predefined (plainProgram speedNull speedFive) ∧
    NamesProperty (plainProgram speedNull speedFive) () "speed" ∧
      ¬Agrees (plainProgram speedNull speedFive) () "speed" := by
  refine ⟨predefined_plainProgram _ _, namesProperty_speed speedNull speedFive, ?_⟩
  rintro ⟨fuel, h⟩
  rw [getValue_of_no_dot _ splitDot_speed, resolve_of_no_dot _ splitDot_speed] at h
  have hfiv : some (.integer 5 : Value ℚ) = some .empty := h
  cases hfiv

end Clockwork.Resolve
