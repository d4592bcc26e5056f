import Clockwork.ItemScopes
import Clockwork.Library.IndexLoop

namespace Clockwork.SetOperations

open List Function

open IndexLoop (Next loop)

variable {F M : Type}

structure Operation (F M : Type) where
  owner : M
  sourceA : M
  sourceB : M
  dest : M
  count : Value F
  propertyName : String
  condition : Option ((M → Scope F M) → Bool)
  removeSelected : Bool

inductive Side where
  | a
  | b
deriving DecidableEq, Repr

def Operation.source (op : Operation F M) : Side → M
  | .a => op.sourceA
  | .b => op.sourceB

structure Progress (F M : Type) where
  world : World F M
  addItem : Side → Bool
  numCopied : ℤ

variable [DecidableEq M]

namespace World

variable (w : World F M)

def append (x : M) (a : Item F M) : World F M :=
  { w with items := Function.update w.items x (w.items x ++ [a]) }

def removeParameter (x : M) (i : ℕ) : World F M :=
  { w with items := Function.update w.items x ((w.items x).eraseIdx i) }

def eraseItemName (x : M) : World F M :=
  { w with
    scopes := Function.update w.scopes x
      { w.scopes x with
        localisedNames := Function.update (w.scopes x).localisedNames "ITEM" none } }

def setListItem (x : M) (a : Item F M) (index : ℕ) (addItem : Bool) : World F M :=
  { w with
    scopes := Function.update w.scopes x
      { locals := bindLocal (w.scopes x).locals index addItem a
        localisedNames :=
          match a.cachedMachine with
          | some m => Function.update (w.scopes x).localisedNames "ITEM" (some m)
          | none => (w.scopes x).localisedNames } }

def unbind (x : M) (t : IndexTracker) (addItem : Bool) : World F M :=
  { w with
    scopes := Function.update w.scopes x
      { w.scopes x with locals := unbindLocal t addItem (w.scopes x).locals } }

end World

namespace Operation

variable (op : Operation F M)

def bind (t : Side → IndexTracker) (side : Side) (a : Item F M) (s : Progress F M) : Progress F M :=
  { s with
    world := s.world.setListItem (op.source side) a (t side).index (s.addItem side)
    addItem := Function.update s.addItem side false }

def bindSecond (t : Side → IndexTracker) (b : Item F M) (s : Progress F M) : Progress F M :=
  let s := op.bind t .b b s
  { s with world := (s.world.eraseItemName op.sourceA).eraseItemName op.sourceB }

def unbindBoth (t : Side → IndexTracker) (s : Progress F M) : World F M :=
  (s.world.unbind op.sourceA (t .a) (s.addItem .a)).unbind op.sourceB (t .b) (s.addItem .b)

variable [Double F]

/-- What a turn of the inner loop does where there is a condition. The second `Next` is how the
outer loop goes on. -/
def select (toCopy : ℤ) (i : ℕ) (a : Item F M) (isSelected : Bool) (s : Progress F M) :
    Next × Progress F M × Next :=
  let s :=
    if isSelected ∧ includes (s.world.items op.dest) a.val = false then
      { s with world := s.world.append op.dest a, numCopied := s.numCopied + 1 }
    else s
  let s :=
    if isSelected ∧ op.removeSelected then
      { s with world := s.world.removeParameter op.sourceA i }
    else s
  if toCopy ≤ s.numCopied then (.done, s, .done)
  else if isSelected ∧ op.removeSelected then (.done, s, .same)
  else if isSelected then (.done, s, .following)
  else (.following, s, .following)

def toCopy (w : World F M) : ℤ :=
  if op.count.eq (.integer (-1)) then (w.items op.sourceA).length
  else
    match op.count.asInteger with
    | some n => n.toInt
    | none => (w.items op.sourceA).length

def trackers (w : World F M) (side : Side) : IndexTracker :=
  indexTracker (w.scopes (op.source side)).locals

end Operation

namespace Env

theorem isPlain_of_symbol {v : Value F} (h : v.kind = .symbol) : isPlain v = false := by
  simp [isPlain, h]

variable [Double F] (env : Env F M) (op : Operation F M)

/-- The comparison without a condition: the entry that is appended, if the items match, and how
the inner loop goes on then. -/
def matchItems (a b : Item F M) (machineA machineB : M) :
    Except Failure (Option (Item F M × Next)) :=
  if a.val.kind = .symbol ∧ isPlain b.val then do
    if ← env.compareSymbolAndValue op.owner a op.propertyName b.val then
      return some (a, .done)
    else return none
  else if b.val.kind = .symbol ∧ isPlain a.val then do
    if ← env.compareSymbolAndValue op.owner b op.propertyName a.val then
      return some (a, .done)
    else return none
  else if op.propertyName.length ≠ 0 then
    let v1 := env.getValue machineA op.propertyName
    let v2 := env.getValue machineB op.propertyName
    .ok (if v1.ne .empty ∧ v1.eq v2 then some (a, .following) else none)
  else .ok (if a.val.eq b.val then some (env.entry op.dest a, .following) else none)

variable (t : Side → IndexTracker)

def secondTurn (toCopy : ℤ) (i : ℕ) (a : Item F M) (machineA : M)
    (s : Progress F M × Next) (_ : ℕ) (b : Item F M) :
    Option (Except Failure (Next × Progress F M × Next)) :=
  match env.find op.owner b with
  | none => some (.ok (.following, s))
  | some machineB =>
    let b := { b with cachedMachine := some machineB }
    let s := op.bindSecond t b s.1
    match op.condition with
    | some condition => some (.ok (op.select toCopy i a (condition s.world.scopes) s))
    | none =>
      match env.matchItems op a b machineA machineB with
      | .error f => some (.error f)
      | .ok none => some (.ok (.following, s, .following))
      | .ok (some (entry, next)) =>
        some (.ok (next, { s with world := s.world.append op.dest entry }, .following))

def firstTurn (toCopy : ℤ) (fuel : ℕ) (s : Progress F M) (i : ℕ)
    (a : Item F M) : Option (Except Failure (Next × Progress F M)) :=
  match env.find op.owner a with
  | none => some (.ok (.following, s))
  | some machineA =>
    let a := { a with cachedMachine := some machineA }
    (loop (fun s => s.1.world.items op.sourceB) (env.secondTurn op t toCopy i a machineA) fuel
      (op.bind t .a a s, .following) 0).map (Except.map fun s => (s.2, s.1))

def intersect (fuel : ℕ) (w : World F M) : Option (Except Failure (World F M)) :=
  let t := op.trackers w
  (loop (fun s => s.world.items op.sourceA) (env.firstTurn op t (op.toCopy w) fuel) fuel
    ⟨w, fun side => (t side).addItem, 0⟩ 0).map (Except.map (op.unbindBoth t))

def isCommon (a b : Item F M) : Bool :=
  if op.propertyName.length ≠ 0 then
    match env.find op.owner a, env.find op.owner b with
    | some m, some m' =>
      (env.getValue m op.propertyName).ne .empty &&
        (env.getValue m op.propertyName).eq (env.getValue m' op.propertyName)
    | _, _ => false
  else a.val.eq b.val

def intersection (w : World F M) : World F M :=
  { w with
    items := Function.update w.items op.dest (w.items op.dest ++
      ((w.items op.sourceA).filter fun a => (w.items op.sourceB).any (env.isCommon op a)).map
        (env.resolved op.owner)) }

def IsMachines (xs : List (Item F M)) : Prop :=
  ∀ a ∈ xs, a.val.kind = .symbol ∧ env.find op.owner a ≠ none

def visitSecond (a : Item F M) (s : Progress F M) (b : Item F M) : Progress F M :=
  let s := op.bindSecond t (env.resolved op.owner b) s
  if env.isCommon op a b then { s with world := s.world.append op.dest a } else s

def visitFirst (bs : List (Item F M)) (s : Progress F M) (a : Item F M) : Progress F M :=
  bs.foldl (env.visitSecond op t (env.resolved op.owner a))
    (op.bind t .a (env.resolved op.owner a) s)

variable {env op}

omit [DecidableEq M] [Double F] in
theorem resolved_of_find {owner : M} {a : Item F M} {m : M} (hkin : a.val.kind = .symbol)
    (hfin : env.find owner a = some m) :
    env.resolved owner a = { a with cachedMachine := some m } := by
  rw [resolved, if_pos hkin, hfin]

omit [DecidableEq M] in
theorem isCommon_resolved (a b : Item F M) :
    env.isCommon op (env.resolved op.owner a) b = env.isCommon op a b := by
  unfold isCommon
  rw [find_resolved, val_resolved]

omit [DecidableEq M] in
theorem matchItems_eq {a b : Item F M} {machineA machineB : M} (ha : a.val.kind = .symbol)
    (hb : b.val.kind = .symbol) (hA : env.find op.owner a = some machineA)
    (hB : env.find op.owner b = some machineB)
    (hcac : a.cachedMachine = some machineA) :
    env.matchItems op a { b with cachedMachine := some machineB } machineA machineB =
      .ok (if env.isCommon op a b then some (a, .following) else none) := by
  unfold matchItems isCommon
  rw [if_neg (by simp [isPlain_of_symbol hb]), if_neg (by simp [isPlain_of_symbol ha]), hA, hB,
    entry_of_cached hcac]
  split_ifs <;> simp_all

variable {t : Side → IndexTracker} {toCopy : ℤ} {a b : Item F M} {s : Progress F M}
  {as bs : List (Item F M)}

theorem secondTurn_eq (hcon : op.condition = none)
    {machineA : M} (ha : a.val.kind = .symbol) (hA : env.find op.owner a = some machineA)
    (hb : b.val.kind = .symbol) (hB : env.find op.owner b ≠ none) (i j : ℕ) :
    env.secondTurn op t toCopy i (env.resolved op.owner a) machineA (s, .following) j b =
      some (.ok (.following, env.visitSecond op t (env.resolved op.owner a) s b, .following)) := by
  obtain ⟨machineB, hfou⟩ := Option.ne_none_iff_exists'.mp hB
  have hmat : env.matchItems op (env.resolved op.owner a)
      { b with cachedMachine := some machineB } machineA machineB =
      .ok (if env.isCommon op (env.resolved op.owner a) b then
        some (env.resolved op.owner a, .following) else none) := by
    apply matchItems_eq _ hb _ hfou
    · rw [resolved_of_find ha hA]
    · rwa [val_resolved]
    · rwa [find_resolved]
  unfold secondTurn visitSecond
  rw [hfou, hcon, resolved_of_find hb hfou]
  dsimp only
  rw [hmat]
  split_ifs <;> rfl

omit [DecidableEq M] [Double F] in
theorem foldl_fst (f : Progress F M → Item F M → Progress F M) (bs : List (Item F M))
    (s : Progress F M × Next) : bs.foldl (fun s b => (f s.1 b, s.2)) s = (bs.foldl f s.1, s.2) := by
  induction bs generalizing s with
  | nil => rfl
  | cons b bs ih => exact ih (f s.1 b, s.2)

omit [Double F] in
@[simp] theorem items_bind (side : Side) : (op.bind t side a s).world.items = s.world.items := rfl

omit [Double F] in
@[simp] theorem items_bindSecond : (op.bindSecond t b s).world.items = s.world.items := rfl

omit [Double F] in
@[simp] theorem items_unbindBoth : (op.unbindBoth t s).items = s.world.items := rfl

theorem items_visitSecond : (env.visitSecond op t a s b).world.items =
      update s.world.items op.dest (s.world.items op.dest ++
        replicate (if env.isCommon op a b then 1 else 0) a) := by
  unfold visitSecond
  dsimp only
  split_ifs
  · rfl
  · simp

theorem items_foldl_visitSecond (a : Item F M) (s : Progress F M) (bs : List (Item F M)) :
    (bs.foldl (env.visitSecond op t a) s).world.items =
      update s.world.items op.dest (s.world.items op.dest ++
        replicate (bs.countP (env.isCommon op a)) a) := by
  induction bs generalizing s with
  | nil => simp
  | cons b bs ih =>
    rw [foldl_cons, ih, items_visitSecond, countP_cons, update_self,
      update_idem, append_assoc, replicate_append_replicate, Nat.add_comm]

theorem items_visitFirst : (env.visitFirst op t bs s a).world.items =
      update s.world.items op.dest (s.world.items op.dest ++
        replicate (bs.countP (env.isCommon op a)) (env.resolved op.owner a)) := by
  have hcom : env.isCommon op (env.resolved op.owner a) = env.isCommon op a := by
    funext b
    exact isCommon_resolved a b
  rw [visitFirst, items_foldl_visitSecond, items_bind, hcom]

theorem items_foldl_visitFirst (bs : List (Item F M)) (s : Progress F M) (as : List (Item F M)) :
    (as.foldl (env.visitFirst op t bs) s).world.items =
      update s.world.items op.dest (s.world.items op.dest ++ as.flatMap fun a =>
        replicate (bs.countP (env.isCommon op a)) (env.resolved op.owner a)) := by
  induction as generalizing s with
  | nil => simp
  | cons a as ih =>
    rw [foldl_cons, ih, items_visitFirst, flatMap_cons, update_self, update_idem, append_assoc]

section

variable (hcon : op.condition = none)

include hcon

theorem firstTurn_eq (hBD : op.sourceB ≠ op.dest)
    (hbs : env.IsMachines op bs) (hite : s.world.items op.sourceB = bs)
    (ha : a.val.kind = .symbol) (hA : env.find op.owner a ≠ none) (fuel i : ℕ) :
    env.firstTurn op t toCopy fuel s i a =
      if bs.length < fuel then some (.ok (.following, env.visitFirst op t bs s a)) else none := by
  obtain ⟨machineA, hfou⟩ := Option.ne_none_iff_exists'.mp hA
  let P (s : Progress F M × Next) : Prop :=
    s.1.world.items op.sourceB = bs ∧ s.2 = .following
  have htur : ∀ s, P s → ∀ j, ∀ b ∈ bs,
      env.secondTurn op t toCopy i (env.resolved op.owner a) machineA s j b =
        some (.ok (.following, env.visitSecond op t (env.resolved op.owner a) s.1 b, s.2)) ∧
      P (env.visitSecond op t (env.resolved op.owner a) s.1 b, s.2) := by
    rintro ⟨s, next⟩ ⟨hs, rfl⟩ j b hb
    refine ⟨secondTurn_eq hcon ha hfou (hbs b hb).1 (hbs b hb).2 i j, ?_, rfl⟩
    show (env.visitSecond op t (env.resolved op.owner a) s b).world.items op.sourceB = bs
    rw [items_visitSecond, update_of_ne hBD]
    exact hs
  have hsta : P (op.bind t .a (env.resolved op.owner a) s, .following) := ⟨hite, rfl⟩
  unfold firstTurn
  rw [hfou]
  dsimp only
  rw [← resolved_of_find ha hfou, IndexLoop.loop_eq_foldl (fun s hs => hs.1) htur hsta,
    foldl_fst, drop_zero]
  simp only [Nat.sub_zero]
  split_ifs <;> rfl

theorem firstLoop_eq (hAD : op.sourceA ≠ op.dest)
    (hBD : op.sourceB ≠ op.dest) (has : env.IsMachines op as) (hbs : env.IsMachines op bs)
    (hita : s.world.items op.sourceA = as) (hitb : s.world.items op.sourceB = bs)
    {fuel : ℕ} (hfue : bs.length < fuel) :
    loop (fun s => s.world.items op.sourceA) (env.firstTurn op t toCopy fuel) fuel s 0 =
      if as.length < fuel then some (.ok (as.foldl (env.visitFirst op t bs) s)) else none := by
  let P (s : Progress F M) : Prop :=
    s.world.items op.sourceA = as ∧ s.world.items op.sourceB = bs
  have htur : ∀ s, P s → ∀ i, ∀ a ∈ as, env.firstTurn op t toCopy fuel s i a =
        some (.ok (.following, env.visitFirst op t bs s a)) ∧
      P (env.visitFirst op t bs s a) := by
    intro s hs i a ha
    refine ⟨?_, ?_, ?_⟩
    · rw [firstTurn_eq hcon hBD hbs hs.2 (has a ha).1 (has a ha).2, if_pos hfue]
    · rw [items_visitFirst, update_of_ne hAD]
      exact hs.1
    · rw [items_visitFirst, update_of_ne hBD]
      exact hs.2
  have hsta : P s := ⟨hita, hitb⟩
  rw [IndexLoop.loop_eq_foldl (fun s hs => hs.1) htur hsta, drop_zero, Nat.sub_zero]

theorem exists_intersect_iff {w w' : World F M}
    (hAD : op.sourceA ≠ op.dest) (hBD : op.sourceB ≠ op.dest)
    (hA : env.IsMachines op (w.items op.sourceA)) (hB : env.IsMachines op (w.items op.sourceB)) :
    (∃ fuel, env.intersect op fuel w = some (.ok w')) ↔ op.unbindBoth (op.trackers w)
        ((w.items op.sourceA).foldl (env.visitFirst op (op.trackers w) (w.items op.sourceB))
          ⟨w, fun side => (op.trackers w side).addItem, 0⟩) = w' := by
  unfold intersect
  dsimp only
  constructor
  · rintro ⟨fuel, h⟩
    by_cases hfue : (w.items op.sourceB).length < fuel
    · rw [firstLoop_eq hcon hAD hBD hA hB rfl rfl hfue] at h
      split_ifs at h
      · exact Except.ok.inj (Option.some.inj h)
      · cases h
    · -- the inner loop does not end, so there is nothing in the first list
      cases fuel with
      | zero => cases h
      | succ fuel =>
        rw [loop] at h
        cases hite : w.items op.sourceA with
        | nil =>
          rw [hite] at h
          exact Except.ok.inj (Option.some.inj h)
        | cons a as =>
          obtain ⟨hkin, hfin⟩ := hA a (by simp [hite])
          rw [hite, getElem?_cons_zero] at h
          dsimp only at h
          rw [firstTurn_eq hcon hBD hB rfl hkin hfin, if_neg hfue] at h
          cases h
  · intro h
    refine ⟨(w.items op.sourceA).length + (w.items op.sourceB).length + 1, ?_⟩
    rw [firstLoop_eq hcon hAD hBD hA hB rfl rfl (by omega), if_pos (by omega), ← h]
    rfl

end

end Env

end Clockwork.SetOperations
