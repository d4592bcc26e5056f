import Clockwork.LookupCache
import Clockwork.PropertyScopes

namespace Clockwork.ValueCache

open Option Function

open Lookup (Bindings)
open Scopes (Place locate locatePlain locateOwn locateUnset locateValue locateInherited)
open SymbolTable (Keywords)

variable {F M ι : Type}

inductive Pointer (M : Type) where
  | to (place : Place M)
  | dangling
deriving DecidableEq, Repr

inductive Answer (M : Type) where
  | asserts
  | returns (p : Pointer M)
deriving DecidableEq, Repr

section Mutable

variable [Double F] (prog : Resolve.Program F M)

/-- What `getMutableValue` looks at after the parameters and the global references; `value` is
`getMutableValue("VALUE")` of another machine. -/
def mutableOwn (value : M → Option (Answer M)) (x : M) (name : String) : Option (Answer M) :=
  if name = "TIMER" then some .asserts
  else if prog.keywords.existsName name then some .asserts
  else if (Resolve.property prog x name).eq .empty then
    if (prog.machine x).classProperties.existsName name then some .asserts
    else if prog.globals.existsName name then some (.returns (.to (.global name)))
    else
      match (prog.machine x).lookup name with
      | some m =>
        if (prog.machine m).classToken.holdsValue then value m else some (.returns (.to .null))
      | none => some (.returns (.to .null))
  else some (.returns (.to (.property x name)))

def mutablePlain (value : M → Option (Answer M)) (x : M) (name : String) : Option (Answer M) :=
  match (prog.machine x).parameter name with
  | some _ => some (.returns (.to (.parameter x name)))
  | none =>
    match (prog.machine x).globalReferences name with
    | some (some m) => value m
    | _ => mutableOwn prog value x name

/-- `getMutableValue("VALUE")`, with a bound on its recursion through other machines. -/
def mutableValue : ℕ → M → Option (Answer M)
  | 0, _ => none
  | fuel + 1, m => mutablePlain prog (mutableValue fuel) m "VALUE"

def getMutableValue (fuel : ℕ) (x : M) (name : String) : Option (Answer M) :=
  match _h : splitDot name with
  | some (first, rest) =>
    match (prog.machine x).lookup first with
    | some other => getMutableValue fuel other rest
    | none => some (.returns (.to .null))
  | none => mutablePlain prog (mutableValue prog fuel) x name
termination_by name.length
decreasing_by exact (splitDot_length _h).2

def isMutable : Place M → Bool
  | .computed _ _ | .classProperty _ _ => false
  | _ => true

def answer (place : Place M) : Answer M :=
  if isMutable place then .returns (.to place) else .asserts

theorem mutablePlain_eq {value : M → Option (Answer M)} {place : M → Option (Place M)}
    (h : ∀ m, value m = (place m).map answer) (x : M) (name : String) :
    mutablePlain prog value x name = (locatePlain prog place x name).map answer := by
  have hown : mutableOwn prog value x name = (locateOwn prog place x name).map answer := by
    unfold mutableOwn locateOwn locateUnset locateInherited
    split_ifs
    · rfl
    · rfl
    · rfl
    · rfl
    · cases (prog.machine x).lookup name with
      | none => rfl
      | some m =>
        dsimp only
        split_ifs
        · exact h m
        · rfl
    · rfl
  unfold mutablePlain locatePlain
  cases (prog.machine x).parameter name with
  | some v => rfl
  | none =>
    rcases (prog.machine x).globalReferences name with _ | _ | m
    · exact hown
    · exact hown
    · exact h m

theorem mutableValue_eq (fuel : ℕ) (m : M) :
    mutableValue prog fuel m = (locateValue prog fuel m).map answer := by
  induction fuel generalizing m with
  | zero => rfl
  | succ fuel ih => exact mutablePlain_eq prog ih m "VALUE"

/-- `getMutableValue` goes the way of `getValue`, and asserts that what it finds can be changed. -/
theorem getMutableValue_eq (fuel : ℕ) (x : M) (name : String) :
    getMutableValue prog fuel x name = (locate prog fuel x name).map answer := by
  fun_induction locate prog fuel x name with
  | case1 x name first rest hspl other hoth ih =>
    rw [getMutableValue]
    split <;> simp_all
  | case2 x name first rest hspl hoth =>
    rw [getMutableValue]
    split <;> simp_all [answer, isMutable]
  | case3 x name hspl =>
    have hpla : getMutableValue prog fuel x name =
        mutablePlain prog (mutableValue prog fuel) x name := by
      rw [getMutableValue]
      split <;> simp_all
    rw [hpla]
    exact mutablePlain_eq prog (mutableValue_eq prog fuel) x name

end Mutable

structure Held (M : Type) where
  owner : M
  text : String
  cachedMachine : Option M
  cachedValue : Option (Pointer M)
deriving DecidableEq, Repr

structure Program (F M : Type) where
  names : Lookup.Program F M
  symbolValue : (M → String → Value F) → (M → Bindings F M) → M → Value F → Value F
  classToken : M → Resolve.ClassToken
  globalReferences : M → String → Option (Option M)
  classProperties : M → SymbolTable F
  globals : SymbolTable F
  keywords : Keywords F

structure State (F M ι : Type) where
  bindings : M → Bindings F M
  properties : M → String → Value F
  held : ι → Option (Held M)

inductive Event (F M ι : Type) where
  | names (e : Lookup.Event F M)
  | setProperty (x : M) (name : String) (v : Value F)
  | hold (j : ι) (x : M) (text : String)
  | lookup (i : ι)
  | getValue (i : ι)
  | copy (i j : ι) (x : M)
  | assign (i j : ι)

def Event.origin [DecidableEq ι] (e : Event F M ι) (k : ι) : ι :=
  match e with
  | .copy i j _ => if k = j then i else k
  | .assign i j => if k = j then i else k
  | _ => k

section Held

variable [DecidableEq M]

def Program.namesIn (p : Program F M) (properties : M → String → Value F) : Lookup.Program F M :=
  { p.names with getValue := p.symbolValue properties }

def Program.resolve (p : Program F M) (s : State F M ι) : Resolve.Program F M where
  machine x :=
    { classToken := p.classToken x
      classParameters := (p.names.classParameters x).map Parameter.val
      parameters := (s.bindings x).parameters.map Parameter.val
      globalReferences := p.globalReferences x
      properties := Scopes.table (s.properties x)
      classProperties := p.classProperties x
      lookup := fun n => (Lookup.lookup p.names s.bindings x n).1
      lookupState := fun _ => none
      currentStateVal := .empty
      currentNameValue := .empty
      currentValueHolder := .empty
      timerVal := .empty }
  globals := p.globals
  keywords := p.keywords
  getKeyValue _ := .empty

def movedBy (w : M → Bindings F M) : Lookup.Event F M → Option M
  | .addParameter x _ _ _ _ _ => some x
  | .removeParameter x which =>
    if which < 0 ∨ (w x).parameters.length ≤ which then none else some x
  | _ => none

def Held.lose (moved : Option M) (h : Held M) : Held M :=
  match h.cachedValue with
  | some (.to (.parameter x _)) =>
    if moved = some x then { h with cachedValue := some .dangling } else h
  | _ => h

namespace State

variable (p : Program F M) (s : State F M ι)

def lookupText (h : Held M) : Option M := (Lookup.lookup p.names s.bindings h.owner h.text).1

def lookupHeld (h : Held M) : Option M :=
  match h.cachedMachine with
  | some m => some m
  | none => s.lookupText p h

/-- The names that `lookup(Value &)` leaves in the caches of the machines. -/
def rememberHeld (h : Held M) : M → Bindings F M :=
  match h.cachedMachine with
  | some _ => s.bindings
  | none => (Lookup.lookup p.names s.bindings h.owner h.text).2

variable [Double F] (fuel : ℕ)

def findText (h : Held M) : Option (Place M) := locate (p.resolve s) fuel h.owner h.text

def getHeld (h : Held M) : Option (Answer M) :=
  match h.cachedValue with
  | some v => some (.returns v)
  | none => getMutableValue (p.resolve s) fuel h.owner h.text

end State

/-- What `getValue(Value &)` keeps of its answer. -/
def Pointer.kept : Pointer M → Option (Pointer M)
  | .to .null => none
  | v => some v

variable [DecidableEq ι] [Double F]

inductive Step (p : Program F M) (fuel : ℕ) : State F M ι → Event F M ι → State F M ι → Prop
  | names {s : State F M ι} {e : Lookup.Event F M} {w : M → Bindings F M}
      (h : Lookup.Step (p.namesIn s.properties) s.bindings e w) :
      Step p fuel s (.names e)
        { s with
          bindings := w
          held := fun i => (s.held i).map (Held.lose (movedBy s.bindings e)) }
  | setProperty (s : State F M ι) (x : M) (name : String) (v : Value F) :
      Step p fuel s (.setProperty x name v)
        { s with
          properties := Function.update s.properties x
            (Function.update (s.properties x) name v) }
  | hold (s : State F M ι) (j : ι) (x : M) (text : String) :
      Step p fuel s (.hold j x text)
        { s with held := Function.update s.held j (some ⟨x, text, none, none⟩) }
  | lookup {s : State F M ι} {i : ι} {h : Held M} (hi : s.held i = some h) :
      Step p fuel s (.lookup i)
        { s with
          bindings := s.rememberHeld p h
          held := Function.update s.held i (some { h with cachedMachine := s.lookupHeld p h }) }
  | getValue {s : State F M ι} {i : ι} {h : Held M} {v : Pointer M} (hi : s.held i = some h)
      (hv : s.getHeld p fuel h = some (.returns v)) :
      Step p fuel s (.getValue i)
        { s with held := Function.update s.held i (some { h with cachedValue := v.kept }) }
  | copy {s : State F M ι} {i : ι} {h : Held M} (hi : s.held i = some h) (j : ι) (x : M) :
      Step p fuel s (.copy i j x)
        { s with held := Function.update s.held j (some ⟨x, h.text, h.cachedMachine, none⟩) }
  | assign {s : State F M ι} {i j : ι} {h h' : Held M} (hi : s.held i = some h)
      (hj : s.held j = some h') :
      Step p fuel s (.assign i j)
        { s with held := Function.update s.held j (some { h with owner := h'.owner }) }

/-- Both uses of each held value give what its text gives. -/
def Transparent (p : Program F M) (fuel : ℕ) (s : State F M ι) : Prop :=
  ∀ i h, s.held i = some h →
    s.lookupHeld p h = s.lookupText p h ∧
      s.getHeld p fuel h = (s.findText p fuel h).map fun place => .returns (.to place)

/-- A step gives no other meaning to a text whose meaning is cached. -/
structure Keeps (p : Program F M) (fuel : ℕ) (s : State F M ι) (e : Event F M ι)
    (t : State F M ι) : Prop where
  machine : ∀ i h h', s.held (e.origin i) = some h → t.held i = some h' →
    h'.cachedMachine ≠ none → t.lookupText p h' = s.lookupText p h
  value : ∀ i h h', s.held (e.origin i) = some h → t.held i = some h' →
    h'.cachedValue ≠ none → t.findText p fuel h' = s.findText p fuel h
  pointer : ∀ i h', t.held i = some h' → h'.cachedValue ≠ some .dangling
  mutable : ∀ i h', t.held i = some h' → h'.cachedValue = none →
    ∀ place, t.findText p fuel h' = some place → isMutable place = true

/-- What is cached is what the text gives. -/
def Sound (p : Program F M) (fuel : ℕ) (s : State F M ι) : Prop :=
  ∀ i h, s.held i = some h →
    (∀ m, h.cachedMachine = some m → s.lookupText p h = some m) ∧
      ∀ v, h.cachedValue = some v → ∃ place, v = .to place ∧ s.findText p fuel h = some place

variable {p : Program F M} {fuel : ℕ} {s t : State F M ι} {e : Event F M ι}

open State

omit [DecidableEq ι] in
theorem getHeld_of_uncached {h : Held M} (hnon : h.cachedValue = none) :
    s.getHeld p fuel h = (s.findText p fuel h).map answer := by
  rw [getHeld, hnon]
  exact getMutableValue_eq _ fuel h.owner h.text

structure Origin (p : Program F M) (fuel : ℕ) (s : State F M ι) (h h' : Held M) : Prop where
  machine : ∀ m, h'.cachedMachine = some m → h.cachedMachine = some m ∨ s.lookupText p h = some m
  value : ∀ v, h'.cachedValue = some v →
    v = .dangling ∨ h.cachedValue = some v ∨
      ∃ place, v = .to place ∧ s.findText p fuel h = some place

omit [DecidableEq ι] in
theorem Origin.same {h h' : Held M} (hmac : h'.cachedMachine = h.cachedMachine)
    (hval : h'.cachedValue = none ∨ h'.cachedValue = h.cachedValue) : Origin p fuel s h h' := by
  refine ⟨fun m hm => .inl (hmac ▸ hm), fun v hv => ?_⟩
  rcases hval with hnon | hsam
  · rw [hnon] at hv
    cases hv
  · exact .inr (.inl (hsam ▸ hv))

omit [DecidableEq ι] in
theorem origin_lose (moved : Option M) (h : Held M) : Origin p fuel s h (h.lose moved) := by
  unfold Held.lose
  split
  · split_ifs
    · exact ⟨fun m hm => .inl hm, fun v hv => .inl (some.inj hv).symm⟩
    · exact .same rfl (.inr rfl)
  · exact .same rfl (.inr rfl)

omit [DecidableEq ι] in
theorem origin_lookup (h : Held M) :
    Origin p fuel s h { h with cachedMachine := s.lookupHeld p h } := by
  refine ⟨fun m hm => ?_, fun v hv => .inr (.inl hv)⟩
  have hloo : s.lookupHeld p h = some m := hm
  unfold lookupHeld at hloo
  cases hcac : h.cachedMachine with
  | some m' =>
    rw [hcac] at hloo
    exact .inl hloo
  | none =>
    rw [hcac] at hloo
    exact .inr hloo

omit [DecidableEq ι] in
theorem origin_getValue {h : Held M} {v : Pointer M} (hv : s.getHeld p fuel h = some (.returns v)) :
    Origin p fuel s h { h with cachedValue := v.kept } := by
  refine ⟨fun m hm => .inl hm, fun u hu => ?_⟩
  have hkep : v.kept = some u := hu
  obtain rfl : v = u := by
    unfold Pointer.kept at hkep
    split at hkep
    · cases hkep
    · exact some.inj hkep
  cases hcac : h.cachedValue with
  | some v' =>
    rw [getHeld, hcac] at hv
    cases hv
    exact .inr (.inl rfl)
  | none =>
    rw [getHeld_of_uncached hcac] at hv
    obtain ⟨place, hpla, hans⟩ := map_eq_some_iff.mp hv
    unfold answer at hans
    split_ifs at hans
    cases hans
    exact .inr (.inr ⟨place, rfl, hpla⟩)

omit [DecidableEq M] [Double F] in
theorem update_cases {f : ι → Option (Held M)} {i j : ι} {h h' : Held M}
    (hi : update f j (some h) i = some h') : i = j ∧ h' = h ∨ i ≠ j ∧ f i = some h' := by
  by_cases hij : i = j
  · subst hij
    rw [update_self] at hi
    exact .inl ⟨rfl, (some.inj hi).symm⟩
  · rw [update_of_ne hij] at hi
    exact .inr ⟨hij, hi⟩

theorem step_origin (hste : Step p fuel s e t) {i : ι} {h' : Held M} (hi : t.held i = some h') :
    h'.cachedMachine = none ∧ h'.cachedValue = none ∨
      ∃ h, s.held (e.origin i) = some h ∧ Origin p fuel s h h' := by
  have hoth (hi : s.held i = some h') : ∃ h, s.held i = some h ∧ Origin p fuel s h h' :=
    ⟨h', hi, .same rfl (.inr rfl)⟩
  cases hste with
  | names hnam =>
    obtain ⟨h, hh, rfl⟩ := map_eq_some_iff.mp hi
    exact .inr ⟨h, hh, origin_lose _ h⟩
  | setProperty x name v => exact .inr (hoth hi)
  | hold j x text =>
    rcases update_cases hi with ⟨-, rfl⟩ | ⟨-, hi⟩
    · exact .inl ⟨rfl, rfl⟩
    · exact .inr (hoth hi)
  | lookup hj =>
    right
    rcases update_cases hi with ⟨rfl, rfl⟩ | ⟨-, hi⟩
    · exact ⟨_, hj, origin_lookup _⟩
    · exact hoth hi
  | getValue hj hv =>
    right
    rcases update_cases hi with ⟨rfl, rfl⟩ | ⟨-, hi⟩
    · exact ⟨_, hj, origin_getValue hv⟩
    · exact hoth hi
  | @copy k h hk j x =>
    right
    rcases update_cases hi with ⟨rfl, rfl⟩ | ⟨hij, hi⟩
    · exact ⟨h, by simpa [Event.origin] using hk, .same rfl (.inl rfl)⟩
    · simpa [Event.origin, hij] using hoth hi
  | @assign k j h h₀ hk hj =>
    right
    rcases update_cases hi with ⟨rfl, rfl⟩ | ⟨hij, hi⟩
    · exact ⟨h, by simpa [Event.origin] using hk, .same rfl (.inr rfl)⟩
    · simpa [Event.origin, hij] using hoth hi

theorem Sound.cached (hsou : Sound p fuel s) (hste : Step p fuel s e t) {i : ι} {h' : Held M}
    (hi : t.held i = some h') : h'.cachedMachine = none ∧ h'.cachedValue = none ∨
      ∃ h, s.held (e.origin i) = some h ∧
        (∀ m, h'.cachedMachine = some m → s.lookupText p h = some m) ∧
        ∀ v, h'.cachedValue = some v →
          v = .dangling ∨ ∃ place, v = .to place ∧ s.findText p fuel h = some place := by
  rcases step_origin hste hi with hnew | ⟨h, hh, hori⟩
  · exact .inl hnew
  · refine .inr ⟨h, hh, fun m hm => ?_, fun v hv => ?_⟩
    · rcases hori.machine m hm with hold | hfou
      · exact (hsou _ h hh).1 m hold
      · exact hfou
    · rcases hori.value v hv with hlos | hold | hfou
      · exact .inl hlos
      · exact .inr ((hsou _ h hh).2 v hold)
      · exact .inr hfou

omit [DecidableEq ι] in
theorem transparent_iff_sound :
    Transparent p fuel s ↔ Sound p fuel s ∧ ∀ i h, s.held i = some h → h.cachedValue = none →
      ∀ place, s.findText p fuel h = some place → isMutable place = true := by
  constructor
  · intro htra
    refine ⟨fun i h hi => ?_, fun i h hi hnon place hpla => ?_⟩
    · obtain ⟨hloo, hget⟩ := htra i h hi
      refine ⟨fun m hm => ?_, fun v hv => ?_⟩
      · rw [← hloo, lookupHeld, hm]
      · rw [getHeld, hv] at hget
        obtain ⟨place, hpla, hsam⟩ := map_eq_some_iff.mp hget.symm
        cases hsam
        exact ⟨place, rfl, hpla⟩
    · have hget := (htra i h hi).2
      rw [getHeld_of_uncached hnon, hpla, map_some, map_some] at hget
      by_contra hmut
      rw [answer, if_neg hmut] at hget
      cases hget
  · rintro ⟨hsou, hmut⟩ i h hi
    obtain ⟨hmac, hval⟩ := hsou i h hi
    constructor
    · unfold lookupHeld
      cases hcac : h.cachedMachine with
      | none => rfl
      | some m => exact (hmac m hcac).symm
    · cases hcac : h.cachedValue with
      | some v =>
        obtain ⟨place, rfl, hpla⟩ := hval v hcac
        rw [getHeld, hcac, hpla]
        rfl
      | none =>
        rw [getHeld_of_uncached hcac]
        cases hpla : s.findText p fuel h with
        | none => rfl
        | some place => simp [answer, hmut i h hi hcac place hpla]

theorem transparent_iff_keeps (hsou : Sound p fuel s) (hste : Step p fuel s e t) :
    Transparent p fuel t ↔ Keeps p fuel s e t := by
  rw [transparent_iff_sound]
  constructor
  · rintro ⟨hsou', hmut⟩
    refine ⟨fun i h h' hh hi hcac => ?_, fun i h h' hh hi hcac => ?_, fun i h' hi hlos => ?_, hmut⟩
    · obtain ⟨m, hm⟩ := ne_none_iff_exists'.mp hcac
      rcases hsou.cached hste hi with hnew | ⟨h₀, hh₀, hmac, -⟩
      · exact absurd hnew.1 hcac
      · obtain rfl := some.inj (hh.symm.trans hh₀)
        rw [hmac m hm, (hsou' i h' hi).1 m hm]
    · obtain ⟨v, hv⟩ := ne_none_iff_exists'.mp hcac
      rcases hsou.cached hste hi with hnew | ⟨h₀, hh₀, -, hval⟩
      · exact absurd hnew.2 hcac
      · obtain rfl := some.inj (hh.symm.trans hh₀)
        obtain ⟨place, rfl, hpla⟩ := (hsou' i h' hi).2 v hv
        rcases hval _ hv with hlos | ⟨place', hsam, hpla'⟩
        · cases hlos
        · cases hsam
          rw [hpla, hpla']
    · obtain ⟨place, hsam, -⟩ := (hsou' i h' hi).2 _ hlos
      cases hsam
  · intro hkee
    refine ⟨fun i h' hi => ⟨fun m hm => ?_, fun v hv => ?_⟩, hkee.mutable⟩
    · rcases hsou.cached hste hi with hnew | ⟨h, hh, hmac, -⟩
      · rw [hnew.1] at hm
        cases hm
      · rw [hkee.machine i h h' hh hi (by simp [hm]), hmac m hm]
    · rcases hsou.cached hste hi with hnew | ⟨h, hh, -, hval⟩
      · rw [hnew.2] at hv
        cases hv
      · rcases hval v hv with rfl | ⟨place, rfl, hpla⟩
        · exact absurd hv (hkee.pointer i h' hi)
        · exact ⟨place, rfl, by rw [hkee.value i h h' hh hi (by simp [hv]), hpla]⟩

def State.unused (s : State F M ι) : State F M ι :=
  { s with held := fun i => (s.held i).map fun h => ⟨h.owner, h.text, none, none⟩ }

/-- The runs in which every held value is right in every state are those in which no step gives
another meaning to a text that a value has cached, moves the parameters a value points to, or
leaves a text to be found that only `getValue` of the text finds. -/
theorem held_transparent_run_iff (s t : State F M ι) (es : List (Event F M ι)) :
    Runs.Run (Runs.Guarded (Step p fuel) fun _ _ t => Transparent p fuel t) s.unused es t ↔
      Runs.Run (Runs.Guarded (Step p fuel) (Keeps p fuel)) s.unused es t := by
  refine Runs.run_guarded_congr (I := Sound p fuel) ?_ ?_ ?_
  · intro s e t hs hste
    exact transparent_iff_keeps hs hste
  · intro s e t hs hste ht
    exact (transparent_iff_sound.mp ht).1
  · intro i h hi
    obtain ⟨h₀, -, rfl⟩ := map_eq_some_iff.mp hi
    exact ⟨fun _ hm => absurd hm (by simp), fun _ hv => absurd hv (by simp)⟩

omit [DecidableEq ι] in
theorem Transparent.read_eq (h : Transparent p fuel s) {i : ι} {x : Held M} (hi : s.held i = some x)
    {place : Place M} (hx : s.getHeld p fuel x = some (.returns (.to place))) :
    Resolve.getValue (p.resolve s) fuel x.owner x.text = some (place.read (p.resolve s)) := by
  have hget := (h i x hi).2
  rw [hx] at hget
  obtain ⟨place', hpla', hsam⟩ := map_eq_some_iff.mp hget.symm
  cases hsam
  have hloc : locate (p.resolve s) fuel x.owner x.text = some place := hpla'
  rw [Scopes.getValue_eq, hloc, map_some]

end Held

/-- A machine `gauge`, and a `VARIABLE` with the name of its property `limit`. -/
def gauge : Program ℚ Bool where
  names :=
    { name := fun x => if x then "limit" else "gauge"
      fullName := fun x => if x then "limit" else "gauge"
      owner := fun _ => none
      isCondition := fun _ => false
      classParameters := fun _ => []
      machines := fun n => if n = "limit" then some true else none
      getValue := fun _ _ v => v }
  symbolValue _ _ _ v := v
  classToken x := if x then .tokVariable else .other
  globalReferences _ _ := none
  classProperties _ := .empty
  globals := .empty
  keywords := .initial

def gaugeWith (limit : Value ℚ) (held : Held Bool) : State ℚ Bool Unit where
  bindings _ := ⟨[], [], fun _ => none⟩
  properties x n :=
    if x then if n = "VALUE" then .integer 7 else .empty
    else if n = "limit" then limit else .empty
  held _ := some held

theorem splitDot_limit : splitDot "limit" = none := by decide

/-- The property was read through the value; once it is `NULL`, the text is the variable and the
value still gives the property. -/
theorem cached_property_hides_variable :
    let unused : Held Bool := ⟨false, "limit", none, none⟩
    let used : Held Bool := ⟨false, "limit", none, some (.to (.property false "limit"))⟩
    let s := gaugeWith (.integer 5) unused
    let t := gaugeWith .empty used
    Runs.Run (Step gauge 1) s [.getValue (), .setProperty false "limit" .empty] t ∧
      t.getHeld gauge 1 used = some (.returns (.to (.property false "limit"))) ∧
      (Place.property false "limit").read (gauge.resolve t) = .empty ∧
      Resolve.getValue (gauge.resolve t) 1 false "limit" = some (.integer 7) ∧
      ¬Transparent gauge 1 t := by
  intro unused used s t
  have hfou : getMutableValue (gauge.resolve s) 1 false "limit" =
      some (.returns (.to (.property false "limit"))) := by
    rw [getMutableValue_eq, Scopes.locate_of_no_dot _ splitDot_limit]
    rfl
  have hpro : update s.properties false (update (s.properties false) "limit" .empty) =
      t.properties := by
    funext x n
    cases x with
    | true => rfl
    | false => by_cases hn : n = "limit" <;> simp [s, t, gaugeWith, hn]
  have hloo : ((gauge.resolve t).machine false).lookup "limit" = some true := by
    change (Lookup.lookup gauge.names t.bindings false "limit").1 = _
    rw [Lookup.lookup_plain rfl splitDot_limit]
    rfl
  have hget : Resolve.getValue (gauge.resolve t) 1 false "limit" = some (.integer 7) := by
    rw [Resolve.getValue_of_no_dot _ splitDot_limit, Resolve.getPlain, Resolve.getOwn, hloo]
    rfl
  refine ⟨?_, rfl, rfl, hget, fun h => ?_⟩
  · have hfir : Step gauge 1 s (.getValue ()) { s with held := t.held } :=
      .getValue (p := gauge) (s := s) (i := ()) (h := unused) rfl hfou
    have hsec : Step gauge 1 { s with held := t.held } (.setProperty false "limit" .empty) _ :=
      .setProperty _ false "limit" .empty
    rw [hpro] at hsec
    exact .cons hfir (.cons hsec (.nil _))
  · have hrea := h.read_eq (i := ()) (x := used) rfl rfl
    rw [hget] at hrea
    have hnul : some (.integer 7 : Value ℚ) = some .empty := hrea
    cases hnul

end Clockwork.ValueCache
