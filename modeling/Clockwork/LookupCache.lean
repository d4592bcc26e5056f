import Clockwork.Lookup

namespace Clockwork.Lookup

open Option Function

variable {F M : Type} {prog : Program F M} {w w' : M → Bindings F M}

def SameConfig (w w' : M → Bindings F M) : Prop :=
  ∀ x, (w' x).locals = (w x).locals ∧ (w' x).parameters = (w x).parameters

theorem SameConfig.search_eq (h : SameConfig w w') (x : M) (name : String) :
    search prog w' x name = search prog w x name := by
  unfold search
  rw [(h x).1, (h x).2]

theorem SameConfig.trans {w'' : M → Bindings F M} (h : SameConfig w w') (h' : SameConfig w' w'') :
    SameConfig w w'' := fun x => ⟨(h' x).1.trans (h x).1, (h' x).2.trans (h x).2⟩

theorem uncached_plain {x : M} {name : String} (h : splitDot name = none) :
    uncached prog w x name = search prog w x name := by
  rw [uncached]
  split
  · rename_i hspl
    rw [h] at hspl
    cases hspl
  · rfl

theorem uncached_dotted {x : M} {name first rest : String}
    (h : splitDot name = some (first, rest)) :
    uncached prog w x name = (uncached prog w x first).bind (uncached prog w · rest) := by
  rw [uncached]
  split
  · rename_i hspl
    rw [h] at hspl
    cases hspl
    cases uncached prog w x first <;> rfl
  · rename_i hspl
    rw [h] at hspl
    cases hspl

theorem SameConfig.uncached_eq (h : SameConfig w w') (x : M) (name : String) :
    uncached prog w' x name = uncached prog w x name := by
  fun_induction uncached prog w x name with
  | case1 x name first rest hspl y hfir ihfirst ihrest =>
    rw [uncached_dotted hspl, ihfirst, hfir, bind_some, ihrest]
  | case2 x name first rest hspl hfir ihfirst =>
    rw [uncached_dotted hspl, ihfirst, hfir, bind_none]
  | case3 x name hspl => rw [uncached_plain hspl, h.search_eq]

section Caches

variable [DecidableEq M] {m x y : M} {name k : String}

theorem lookup_cached (h : (w x).localisedNames name = some m) :
    lookup prog w x name = (some m, w) := by
  rw [lookup, h]

theorem lookup_plain (hmis : (w x).localisedNames name = none) (hspl : splitDot name = none) :
    lookup prog w x name = (search prog w x name, remember w x name (search prog w x name)) := by
  rw [lookup, hmis]
  simp only
  split
  · rename_i h
    rw [hspl] at h
    cases h
  · rfl

theorem remember_spec (w : M → Bindings F M) (x : M) (name : String) (found : Option M) :
    SameConfig w (remember w x name found) ∧ ∀ y k m,
      (remember w x name found y).localisedNames k = some m →
      (w y).localisedNames k = some m ∨ (y = x ∧ k = name ∧ found = some m) := by
  cases found with
  | none => exact ⟨fun _ => ⟨rfl, rfl⟩, fun _ _ _ h => .inl h⟩
  | some m' =>
    refine ⟨fun y => ?_, fun y k m h => ?_⟩
    · by_cases hy : y = x
      · subst hy
        simp [remember]
      · simp [remember, hy]
    · by_cases hy : y = x
      · subst hy
        by_cases hk : k = name
        · subst hk
          exact .inr ⟨rfl, rfl, by simpa [remember] using h⟩
        · exact .inl (by simpa [remember, hk] using h)
      · exact .inl (by simpa [remember, hy] using h)

theorem lookup_frame (prog : Program F M) (w : M → Bindings F M) (x : M) (name : String) :
    SameConfig w (lookup prog w x name).2 ∧ ∀ y k m,
      ((lookup prog w x name).2 y).localisedNames k = some m →
      (w y).localisedNames k = some m ∨ (splitDot k = none ∧ search prog w y k = some m) := by
  fun_induction lookup prog w x name with
  | case1 w x name m hm => exact ⟨fun _ => ⟨rfl, rfl⟩, fun _ _ _ h => .inl h⟩
  | case2 w x name hmis first rest hspl y w' hfir ihfirst ihrest =>
    rw [hfir] at ihfirst
    refine ⟨ihfirst.1.trans ihrest.1, fun z k m h => ?_⟩
    rcases ihrest.2 z k m h with hold | ⟨hk, hfou⟩
    · exact ihfirst.2 z k m hold
    · exact .inr ⟨hk, by rwa [ihfirst.1.search_eq] at hfou⟩
  | case3 w x name hmis first rest hspl w' hfir ihfirst =>
    rw [hfir] at ihfirst
    exact ihfirst
  | case4 w x name hmis hspl =>
    refine ⟨(remember_spec _ _ _ _).1, fun y k m h => ?_⟩
    rcases (remember_spec _ _ _ _).2 y k m h with hold | ⟨rfl, rfl, hfou⟩
    · exact .inl hold
    · exact .inr ⟨hspl, hfou⟩

/-- What is cached is what the search finds now, and no dotted name is cached. -/
def Consistent (prog : Program F M) (w : M → Bindings F M) : Prop :=
  ∀ x name m, (w x).localisedNames name = some m →
    splitDot name = none ∧ search prog w x name = some m

theorem Consistent.lookup (h : Consistent prog w) (x : M) (name : String) :
    Consistent prog (lookup prog w x name).2 := by
  obtain ⟨hcon, hnew⟩ := lookup_frame prog w x name
  intro y k m hm
  rw [hcon.search_eq]
  rcases hnew y k m hm with hold | hfou
  · exact h y k m hold
  · exact hfou

theorem Consistent.lookup_eq (h : Consistent prog w) (x : M) (name : String) :
    (Lookup.lookup prog w x name).1 = uncached prog w x name := by
  fun_induction Lookup.lookup prog w x name with
  | case1 w x name m hm =>
    obtain ⟨hspl, hfou⟩ := h x name m hm
    rw [uncached_plain hspl, hfou]
  | case2 w x name hmis first rest hspl y w' hfir ihfirst ihrest =>
    have hcon := (lookup_frame prog w x first).1
    have hcos := h.lookup x first
    have hy := ihfirst h
    rw [hfir] at hcon hcos hy
    rw [ihrest hcos, hcon.uncached_eq, uncached_dotted hspl, ← hy, bind_some]
  | case3 w x name hmis first rest hspl w' hfir ihfirst =>
    have hy := ihfirst h
    rw [hfir] at hy
    rw [uncached_dotted hspl, ← hy, bind_none]
  | case4 w x name hmis hspl => rw [uncached_plain hspl]

theorem localisedNames_update {b : Bindings F M} (h : b.localisedNames = (w x).localisedNames)
    (y : M) : (update w x b y).localisedNames = (w y).localisedNames := by
  by_cases hy : y = x
  · subst hy
    rw [update_self, h]
  · rw [update_of_ne hy]

theorem localisedNames_setLocals (x y : M) (ls : List (Parameter F M)) :
    (setLocals w x ls y).localisedNames = (w y).localisedNames :=
  localisedNames_update (b := { w x with locals := ls }) rfl y

theorem localisedNames_setParameters (x y : M) (ps : List (Parameter F M)) :
    (setParameters w x ps y).localisedNames = (w y).localisedNames :=
  localisedNames_update (b := { w x with parameters := ps }) rfl y

theorem localisedNames_forget (h : (forget w x name y).localisedNames k = some m) :
    (w y).localisedNames k = some m := by
  by_cases hy : y = x
  · subst hy
    by_cases hk : k = name
    · subst hk
      simp [forget] at h
    · simpa [forget, hk] using h
  · simpa [forget, hy] using h

theorem localisedNames_forgetLocal {p : Parameter F M}
    (h : (forgetLocal prog w x p y).localisedNames k = some m) :
    (w y).localisedNames k = some m := by
  unfold forgetLocal at h
  cases hp : p.machine with
  | none =>
    rw [hp] at h
    exact localisedNames_forget h
  | some m' =>
    rw [hp] at h
    exact localisedNames_forget (localisedNames_forget h)

theorem makeParameter_frame (w : M → Bindings F M) (x : M) (param : Value F) (cached mi : Option M)
    (h : ((makeParameter prog w x param cached mi).2 y).localisedNames k = some m) :
    (w y).localisedNames k = some m ∨ (splitDot k = none ∧ search prog w y k = some m) := by
  cases mi with
  | some m' => exact .inl h
  | none =>
    unfold makeParameter at h
    simp only at h
    split at h
    · cases cached with
      | some m' => exact .inl h
      | none =>
        have hfra := (lookup_frame prog w x (sValue param)).2 y k m
        cases hr : lookup prog w x (sValue param) with
        | mk found w' =>
          rw [hr] at hfra
          simp only [hr] at h
          cases found with
          | some m' => exact hfra h
          | none => exact hfra h
    · exact .inl h

theorem search_addLocal_none {param : Value F}
    (h : search prog (setLocals w x ((w x).locals ++ [⟨param, "", none⟩])) y name = some m) :
    search prog w y name = some m := by
  by_cases hy : y = x
  · subst hy
    unfold search at h ⊢
    simp only [setLocals, update_self, List.find?_append] at h
    split
    · rename_i hsel
      rwa [if_pos hsel] at h
    · rename_i hsel
      rw [if_neg hsel] at h
      split
      · rename_i hown
        rwa [if_pos hown] at h
      · rename_i hown
        rw [if_neg hown] at h
        cases hfin : (w y).locals.find? (fun p => isSymbol p.val name) with
        | some p => simpa [hfin] using h
        | none =>
          -- the new local is last, so it is found only where no other local was
          by_cases hp : isSymbol param name
          · simp [hfin, hp] at h
          · simpa [hfin, hp] using h
  · unfold search at h ⊢
    rwa [setLocals, update_of_ne hy] at h

theorem step_origin {e : Event F M} (hste : Step prog w e w')
    (h : (w' y).localisedNames k = some m) :
    (w y).localisedNames k = some m ∨ (splitDot k = none ∧ search prog w y k = some m) := by
  cases hste with
  | lookup x name => exact (lookup_frame prog w x name).2 y k m h
  | addLocal x param mi =>
    unfold addLocal at h
    split at h
    -- without a machine the name is looked up after the local is in place
    · rename_i hnon
      rw [hnon.1] at h
      rcases (lookup_frame prog _ x _).2 y k m h with hold | ⟨hk, hfou⟩
      · rw [localisedNames_setLocals] at hold
        exact .inl hold
      · exact .inr ⟨hk, search_addLocal_none hfou⟩
    · rw [localisedNames_setLocals] at h
      exact .inl h
  | removeLocal x index =>
    unfold removeLocal at h
    cases hp : (w x).locals[index]? with
    | none =>
      rw [hp] at h
      exact .inl h
    | some p =>
      rw [hp] at h
      rw [localisedNames_setLocals] at h
      exact .inl (localisedNames_forgetLocal h)
  | addParameter hadd =>
    obtain ⟨ps, -, rfl⟩ := map_eq_some_iff.mp hadd
    rw [localisedNames_setParameters] at h
    exact makeParameter_frame w _ _ _ _ h
  | removeParameter x which =>
    unfold removeParameter at h
    split at h
    · exact .inl h
    · rw [localisedNames_setParameters] at h
      exact .inl h

/-- Every lookup finds what the search without caches finds. -/
def Transparent (prog : Program F M) (w : M → Bindings F M) : Prop :=
  ∀ x name, (lookup prog w x name).1 = uncached prog w x name

/-- A step leaves the names alone that are in a cache after it. -/
def KeepsCached (prog : Program F M) (w : M → Bindings F M) (_ : Event F M)
    (w' : M → Bindings F M) : Prop :=
  ∀ x name, (w' x).localisedNames name ≠ none → search prog w' x name = search prog w x name

theorem transparent_iff_keepsCached {e : Event F M} (hcon : Consistent prog w)
    (hste : Step prog w e w') : (Transparent prog w' ↔ KeepsCached prog w e w') ∧
      (Transparent prog w' → Consistent prog w') := by
  have hori : ∀ y k m, (w' y).localisedNames k = some m →
      splitDot k = none ∧ search prog w y k = some m := by
    intro y k m h
    rcases step_origin hste h with hold | hfou
    · exact hcon y k m hold
    · exact hfou
  have htra : Transparent prog w' → Consistent prog w' := by
    intro ht y k m h
    have hk := (hori y k m h).1
    have hloo := ht y k
    rw [lookup_cached h, uncached_plain hk] at hloo
    exact ⟨hk, hloo.symm⟩
  refine ⟨⟨?_, ?_⟩, htra⟩
  -- a name in the cache is looked up there, so both searches have to agree on it
  · intro ht y k hcac
    obtain ⟨m, h⟩ := ne_none_iff_exists'.mp hcac
    rw [(htra ht y k m h).2, (hori y k m h).2]
  · intro hkee
    have hcon' : Consistent prog w' := by
      intro y k m h
      obtain ⟨hk, hfou⟩ := hori y k m h
      refine ⟨hk, ?_⟩
      rw [hkee y k (by simp [h]), hfou]
    exact hcon'.lookup_eq

def uncachedStart (w : M → Bindings F M) : M → Bindings F M :=
  fun x => { w x with localisedNames := fun _ => none }

/-- The runs in which every lookup is right in every state are those in which no step
gives another meaning to a name that is in a cache. -/
theorem transparent_run_iff (w w' : M → Bindings F M) (es : List (Event F M)) :
    Runs.Run (Runs.Guarded (Step prog) fun _ _ t => Transparent prog t) (uncachedStart w) es w' ↔
      Runs.Run (Runs.Guarded (Step prog) (KeepsCached prog)) (uncachedStart w) es w' := by
  refine Runs.run_guarded_congr (I := Consistent prog) ?_ ?_ ?_
  · intro s e t hs hste
    exact (transparent_iff_keepsCached hs hste).1
  · intro s e t hs hste ht
    exact (transparent_iff_keepsCached hs hste).2 ht
  · intro x name m h
    cases h

end Caches

def twoMachines : Program ℚ Bool where
  name x := if x then "m" else "valve"
  fullName x := if x then "m" else "valve"
  owner _ := none
  isCondition _ := false
  classParameters _ := []
  machines name := if name = "valve" then some false else none
  getValue _ _ v := v

def noBindings : Bool → Bindings ℚ Bool := fun _ => ⟨[], [], fun _ => none⟩

/-- After `valve` was looked up, a local of that name is not found. -/
theorem local_not_found :
    let s := (lookup twoMachines noBindings true "valve").2
    let t := addLocal twoMachines s true (.symbol "valve" none) (some true)
    (lookup twoMachines t true "valve").1 = some false ∧
      uncached twoMachines t true "valve" = some true := by
  have hspl : splitDot "valve" = none := by decide
  intro s t
  have hs : s = remember noBindings true "valve" (some false) := by
    rw [show s = (lookup twoMachines noBindings true "valve").2 from rfl, lookup_plain rfl hspl]
    rfl
  have ht : (t true).localisedNames "valve" = some false := by
    rw [show t = setLocals s true _ from rfl, hs]
    rfl
  refine ⟨?_, ?_⟩
  · rw [lookup_cached ht]
  · rw [uncached_plain hspl, show t = setLocals s true _ from rfl, hs]
    rfl

end Clockwork.Lookup
