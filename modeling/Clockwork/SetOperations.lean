import Clockwork.Library.AppendNew
import Clockwork.Lookup

namespace Clockwork.SetOperations

open AppendNew Function

open Lookup (sValue)

variable {F M : Type}

structure Item (F M : Type) where
  val : Value F
  cachedMachine : Option M

structure Env (F M : Type) where
  lookup : M → String → Option M
  getValue : M → String → Value F

inductive Failure where
  | exception
  /-- `throw new SetOperationException()`, which `run` does not catch -/
  | pointer
deriving DecidableEq, Repr

namespace Env

variable (env : Env F M)

/-- `x->lookup(Value &)`. What it caches in the item is what a later search finds. -/
def find (x : M) (a : Item F M) : Option M :=
  match a.cachedMachine with
  | some m => some m
  | none =>
    match a.val with
    | .symbol s _ | .string s => env.lookup x s
    | _ => none

/-- What `addParameter` puts in the list. The handlers that run at once when the list becomes
`nonempty` are taken to leave the lists. -/
def entry (dest : M) (a : Item F M) : Item F M :=
  if a.val.kind = .symbol ∧ env.find dest a = none then ⟨env.getValue dest (sValue a.val), none⟩
  else a

variable [Double F]

def compareValues (a b : Value F) : Except Failure Bool :=
  if a.isNull ∨ b.isNull then .error .exception else .ok (a.eq b)

def compareSymbolAndValue (scope : M) (sym : Item F M) (prop : String) (b : Value F) :
    Except Failure Bool :=
  match env.find scope sym with
  | none => .error .pointer
  | some m => compareValues (env.getValue m prop) b

end Env

section Comparing

variable [Double F]

def includes (xs : List (Item F M)) (param : Value F) : Bool := xs.any fun x => x.val.eq param

def isPlain (v : Value F) : Bool := v.kind = .string ∨ v.kind = .integer

end Comparing

namespace Env

variable (env : Env F M) (owner : M)

section Union

variable [Double F] [DecidableEq M]

def unionStep (dest : M) (d : List (Item F M)) (a : Item F M) : Except Failure (List (Item F M)) :=
  if a.val.kind = .symbol then
    match env.find owner a with
    | none => .error .pointer
    | some m =>
      if includes d (env.getValue m (sValue a.val)) then .ok d
      -- the machine is cached in the value by now
      else .ok (d ++ [env.entry dest { a with cachedMachine := some m }])
  else if includes d a.val then .ok d
  else .ok (d ++ [env.entry dest a])

/-- `UnionSetOperation::doOperation`. The list that a loop goes through is not the one it adds
to. -/
def union (lists : M → List (Item F M)) (sourceA sourceB dest : M) :
    Except Failure (M → List (Item F M)) := do
  let d ← if sourceA = dest then .ok (lists dest)
    else (lists sourceA).foldlM (env.unionStep owner dest) (lists dest)
  let d ← if sourceB = dest then .ok d
    else (lists sourceB).foldlM (env.unionStep owner dest) d
  return Function.update lists dest d

end Union

def resolved (a : Item F M) : Item F M :=
  if a.val.kind = .symbol then { a with cachedMachine := env.find owner a } else a

/-- The item is a literal, or it denotes a machine. -/
def Denotes (a : Item F M) : Prop := a.val.kind = .symbol → env.find owner a ≠ none

variable {env owner} (a : Item F M)

theorem val_resolved : (env.resolved owner a).val = a.val := by
  unfold resolved
  split_ifs <;> rfl

variable {a : Item F M}

theorem cachedMachine_resolved (h : a.val.kind = .symbol) :
    (env.resolved owner a).cachedMachine = env.find owner a := by
  rw [resolved, if_pos h]

theorem entry_of_cached {m : M} (h : a.cachedMachine = some m) (dest : M) :
    env.entry dest a = a := by
  rw [entry]
  simp [find, h]

theorem find_resolved : env.find owner (env.resolved owner a) = env.find owner a := by
  unfold resolved
  split_ifs
  · cases hfin : env.find owner a with
    | some m => rfl
    | none =>
      have hcac : a.cachedMachine = none := by
        unfold find at hfin
        cases h : a.cachedMachine with
        | none => rfl
        | some m => simp [h] at hfin
      obtain ⟨val, cached⟩ := a
      cases hcac
      exact hfin
  · rfl

variable (env owner) [DecidableEq M]

def same [Double F] (d a : Item F M) : Bool :=
  if d.val.kind = .symbol ∧ a.val.kind = .symbol then env.find owner d = env.find owner a
  else if d.val.kind ≠ .symbol ∧ a.val.kind ≠ .symbol then d.val.eq a.val
  else false

def present [Double F] (d : List (Item F M)) (a : Item F M) : Bool := d.any (env.same owner · a)

def sources (lists : M → List (Item F M)) (sourceA sourceB dest : M) : List (Item F M) :=
  ((if sourceA = dest then [] else lists sourceA) ++
    if sourceB = dest then [] else lists sourceB).map (env.resolved owner)

def probed (a : Item F M) : Value F :=
  if a.val.kind = .symbol then
    match env.find owner a with
    | some m => env.getValue m (sValue a.val)
    | none => .empty
  else a.val

variable [Double F]

def tested (d : List (Item F M)) (a : Item F M) : Bool := includes d (env.probed owner a)

variable {env owner}

omit [DecidableEq M] [Double F] in
theorem probed_resolved : env.probed owner (env.resolved owner a) = env.probed owner a := by
  unfold probed
  rw [find_resolved, val_resolved]

omit [DecidableEq M] in
theorem unionStep_eq (h : env.Denotes owner a) (dest : M) (d : List (Item F M)) :
    env.unionStep owner dest d a =
      .ok (add (env.tested owner) d (env.resolved owner a)) := by
  unfold unionStep add tested
  rw [probed_resolved, probed]
  by_cases hkin : a.val.kind = .symbol
  · obtain ⟨m, hm⟩ := Option.ne_none_iff_exists'.mp (h hkin)
    simp only [hkin, hm, if_true]
    split_ifs
    · rfl
    · simp [entry_of_cached, resolved, hkin, hm]
  · simp only [hkin, if_false]
    split_ifs
    · rfl
    · simp [entry, resolved, hkin]

omit [DecidableEq M] in
theorem foldlM_unionStep {xs : List (Item F M)} (h : ∀ a ∈ xs, env.Denotes owner a) (dest : M)
    (d : List (Item F M)) : xs.foldlM (env.unionStep owner dest) d =
      .ok (addAll (env.tested owner) d (xs.map (env.resolved owner))) := by
  induction xs generalizing d with
  | nil => rfl
  | cons a xs ih =>
    rw [List.foldlM_cons, unionStep_eq (h a (by simp))]
    exact ih (fun b hb => h b (by simp [hb])) _

/-- The union is what it should be exactly if, at the turn of each item, the value that the code
looks for is found where the item itself is in the destination. -/
theorem union_iff {lists : M → List (Item F M)} {sourceA sourceB : M}
    (hA : ∀ a ∈ lists sourceA, env.Denotes owner a) (hB : ∀ b ∈ lists sourceB, env.Denotes owner b)
    (dest : M) : env.union owner lists sourceA sourceB dest = .ok (Function.update lists dest
          (AppendNew.addAll (env.present owner) (lists dest)
            (env.sources owner lists sourceA sourceB dest))) ↔
      ∀ before a after, env.sources owner lists sourceA sourceB dest = before ++ a :: after →
        env.tested owner (AppendNew.addAll (env.present owner) (lists dest) before) a =
          env.present owner (AppendNew.addAll (env.present owner) (lists dest) before) a := by
  have huni : env.union owner lists sourceA sourceB dest = .ok (update lists dest
      (addAll (env.tested owner) (lists dest)
        (env.sources owner lists sourceA sourceB dest))) := by
    unfold union sources
    by_cases hAd : sourceA = dest
    · by_cases hBd : sourceB = dest
      · simp [hAd, hBd, bind, Except.bind, pure, Except.pure]
      · simp [hAd, hBd, bind, Except.bind, pure, Except.pure, foldlM_unionStep hB]
    · by_cases hBd : sourceB = dest
      · simp [hAd, hBd, bind, Except.bind, pure, Except.pure, foldlM_unionStep hA]
      · simp [hAd, hBd, bind, Except.bind, pure, Except.pure, foldlM_unionStep hA,
          foldlM_unionStep hB]
  rw [huni, ← addAll_eq_iff]
  constructor
  · intro h
    have hdes := congrFun (Except.ok.inj h) dest
    simpa using hdes
  · intro h
    rw [h]

theorem tested_eq_present_of_literals {d : List (Item F M)}
    (hd : ∀ x ∈ d, x.val.kind ≠ .symbol) (ha : a.val.kind ≠ .symbol) :
    env.tested owner d a = env.present owner d a := by
  have hsam (x : Item F M) (hx : x ∈ d) : env.same owner x a = x.val.eq a.val := by
    simp [same, hd x hx, ha]
  rw [tested, probed, if_neg ha, includes, present]
  rw [Bool.eq_iff_iff, List.any_eq_true, List.any_eq_true]
  refine exists_congr fun x => and_congr_right fun hx => ?_
  rw [hsam x hx]

end Env

def oneFlag : Env ℚ String where
  lookup _ name := if name = "m" then some "m" else none
  getValue _ _ := .empty

def threeLists (a b d : List (Item ℚ String)) (x : String) : List (Item ℚ String) :=
  if x = "a" then a else if x = "b" then b else if x = "d" then d else []

/-- The numbers of two lists are taken up once. -/
theorem union_of_numbers :
    let five : Item ℚ String := ⟨.integer 5, none⟩
    let six : Item ℚ String := ⟨.integer 6, none⟩
    let lists := threeLists [five] [five, six] []
    (∀ a ∈ lists "a", oneFlag.Denotes "owner" a) ∧ (∀ b ∈ lists "b", oneFlag.Denotes "owner" b) ∧
      oneFlag.union "owner" lists "a" "b" "d" =
        .ok (update lists "d" (AppendNew.addAll (oneFlag.present "owner") []
          (oneFlag.sources "owner" lists "a" "b" "d"))) := by
  intro five six lists
  have hlit : ∀ a ∈ lists "a" ++ lists "b", a.val.kind ≠ .symbol := by
    have hlis : lists "a" ++ lists "b" = [five, five, six] := rfl
    rw [hlis]
    simp [five, six, Value.kind]
  have hA : ∀ a ∈ lists "a", oneFlag.Denotes "owner" a := fun a ha hsym =>
    absurd hsym (hlit a (by simp [ha]))
  have hB : ∀ b ∈ lists "b", oneFlag.Denotes "owner" b := fun b hb hsym =>
    absurd hsym (hlit b (by simp [hb]))
  refine ⟨hA, hB, (Env.union_iff hA hB "d").mpr fun before a after hspl => ?_⟩
  have hsou : ∀ x ∈ oneFlag.sources "owner" lists "a" "b" "d", x.val.kind ≠ .symbol := by
    intro x hx
    obtain ⟨y, hy, rfl⟩ := List.mem_map.mp hx
    rw [Env.val_resolved]
    exact hlit y hy
  apply Env.tested_eq_present_of_literals
  · intro x hx
    rcases mem_or_mem_of_mem_addAll hx with hdes | hbef
    · exact absurd hdes (by simp [lists, threeLists])
    · exact hsou x (by simp [hspl, hbef])
  · exact hsou a (by simp [hspl])

/-- A machine that is in the destination is added once more. -/
theorem machine_added_twice :
    let m : Item ℚ String := ⟨.symbol "m" (some "m"), none⟩
    let found : Item ℚ String := ⟨.symbol "m" (some "m"), some "m"⟩
    let lists := threeLists [m] [] [m]
    (∀ a ∈ lists "a", oneFlag.Denotes "owner" a) ∧ (∀ b ∈ lists "b", oneFlag.Denotes "owner" b) ∧
      oneFlag.present "owner" (lists "d") m = true ∧
      oneFlag.union "owner" lists "a" "b" "d" =
        .ok (update lists "d" [m, found]) ∧
      oneFlag.union "owner" lists "a" "b" "d" ≠
        .ok (update lists "d" (AppendNew.addAll (oneFlag.present "owner") (lists "d")
          (oneFlag.sources "owner" lists "a" "b" "d"))) := by
  intro m found lists
  have huni : oneFlag.union "owner" lists "a" "b" "d" =
      .ok (update lists "d" [m, found]) := rfl
  refine ⟨?_, ?_, by decide, huni, fun h => ?_⟩
  · intro a ha _
    obtain rfl : a = m := by simpa [lists, threeLists] using ha
    decide
  · intro b hb
    exact absurd hb (by simp [lists, threeLists])
  · rw [huni] at h
    have hdes : [m, found] = [m] := congrFun (Except.ok.inj h) "d"
    exact absurd (congrArg List.length hdes) (by decide)

end Clockwork.SetOperations
