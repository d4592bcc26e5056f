import Clockwork.Library.Insertion
import Clockwork.Library.Traversal
import Mathlib.Data.List.ReduceOption

namespace Clockwork.Enabling

open List Traversal

/-- The fields of a machine that decide which machines are enabled with it, and in which order. -/
structure Machine (M : Type) where
  name : String
  type : String
  owner : Option M
  locals : List (Option M)
  parameters : List (Option M)
  listens : List M

structure Configuration (M : Type) where
  machine : M → Machine M
  address : M → ℕ

variable {M : Type} [DecidableEq M] (c : Configuration M)

namespace Configuration

def dependsOn (m other : M) : Bool := decide (other ∈ (c.machine m).listens)

def uses (m other : M) : Bool :=
  let type := (c.machine m).type
  let otherType := (c.machine other).type
  let otherFirst := decide ((c.machine other).name < (c.machine m).name)
  if c.dependsOn m other then true
  else if c.dependsOn other m then false
  else if type = otherType then otherFirst
  else if otherType = "MODULE" then true
  else if type = "MODULE" then false
  else if otherType = "POINT" then true
  else if otherType = "ANALOGINPUT" then true
  else if otherType = "COUNTERRATE" then true
  else if otherType = "COUNTER" then true
  else if otherType = "COUNTERRATE" then true
  else if otherType = "ANALOGOUTPUT" then true
  else if otherType = "STATUS_FLAG" then true
  else if otherType = "FLAG" then true
  else if type = "POINT" then false
  else if type = "ANALOGINPUT" then true
  else if otherType = "COUNTER" then true
  else if type = "COUNTERRATE" then true
  else if type = "ANALOGOUTPUT" then true
  else if type = "STATUS_FLAG" then true
  else if type = "FLAG" then false
  else otherFirst

def relatedMachines (m : M) : List M :=
  let members :=
    if (c.machine m).type = "LIST" ∧ (c.machine m).owner = none then
      (c.machine m).parameters.reduceOption
    else []
  ((c.machine m).locals.reduceOption ++ members).dedup.insertionSort fun a b =>
    c.address a ≤ c.address b

def sortMachines (order : List M) : List M :=
  order.foldl (fun sorted a => sorted.orderedInsert (fun a b => c.uses a b = false) a) []

def sortDependentMachines (m : M) : List M := c.sortMachines (c.relatedMachines m)

/-- A machine that `enable` and `disable` go through in any case. -/
def collection (m : M) : Bool :=
  (c.machine m).type == "LIST" || (c.machine m).type == "REFERENCE"

/-- `enable`; `fuel` limits the depth of the calls -/
def enable : ℕ → (M → Bool) → M → Option (M → Bool)
  | 0, _, _ => none
  | fuel + 1, enabled, m =>
    if enabled m && !c.collection m then some enabled
    else (c.sortDependentMachines m).foldlM (enable fuel) (Function.update enabled m true)

def disable : ℕ → (M → Bool) → M → Option (M → Bool)
  | 0, _, _ => none
  | fuel + 1, enabled, m =>
    if !enabled m && !c.collection m then some enabled
    else (c.sortDependentMachines m).reverse.foldlM (disable fuel) (Function.update enabled m false)

end Configuration

section Order

theorem sortMachines_eq (order : List M) : c.sortMachines order =
    order.reverse.insertionSort fun a b => c.uses a b = false := by
  rw [Configuration.sortMachines, ← foldr_reverse]
  rfl

theorem sortMachines_perm (order : List M) : (c.sortMachines order).Perm order := by
  rw [sortMachines_eq]
  exact (perm_insertionSort ..).trans (reverse_perm order)

theorem nodup_relatedMachines (m : M) : (c.relatedMachines m).Nodup :=
  (perm_insertionSort ..).nodup_iff.mpr (nodup_dedup _)

theorem mem_sortDependentMachines {m x : M} :
    x ∈ c.sortDependentMachines m ↔ x ∈ c.relatedMachines m := (sortMachines_perm c _).mem_iff

/-- The machine depends on the other one, directly or through machines that are enabled with
them. -/
def Depends (related : List M) : M → M → Prop :=
  Relation.TransGen fun a b => a ∈ related ∧ b ∈ related ∧ c.dependsOn a b = true

def DependencyOrdered (related sorted : List M) : Prop :=
  ∀ a b, Depends c related a b → [b, a].Sublist sorted

/-- The machine can come before the other one: there is a chain of different machines, none of
which uses the next one, and the last one either does not use the other machine or is used
by it. -/
def ComesBefore (related : List M) (a b : M) : Prop :=
  ∃ p, Insertion.Chain (fun a b => c.uses a b = false) b (a :: p) ∧ (b :: a :: p).Nodup ∧
    ∀ x ∈ b :: a :: p, x ∈ related

theorem exists_order_iff (m a b : M) : (∃ order : List M, order.Perm (c.relatedMachines m) ∧
      [a, b].Sublist (c.sortMachines order)) ↔ ComesBefore c (c.relatedMachines m) a b := by
  rw [ComesBefore, ← Insertion.exists_perm_pair_sublist_iff (nodup_relatedMachines c m)]
  constructor
  · rintro ⟨order, hper, h⟩
    rw [sortMachines_eq] at h
    exact ⟨order.reverse, (reverse_perm order).trans hper, h⟩
  · rintro ⟨l, hper, h⟩
    refine ⟨l.reverse, (reverse_perm l).trans hper, ?_⟩
    rwa [sortMachines_eq, reverse_reverse]

theorem mem_of_depends {related : List M} {a b : M} (h : Depends c related a b) :
    a ∈ related ∧ b ∈ related := by
  obtain ⟨x, hx, -⟩ := Relation.TransGen.head'_iff.mp h
  obtain ⟨y, -, hy⟩ := Relation.TransGen.tail'_iff.mp h
  exact ⟨hx.1, hy.2.1⟩

/-- The machines are sorted by their dependencies, in whichever order they are inserted, exactly
if no machine can come before one that it depends on. -/
theorem dependencyOrdered_iff (m : M) (hacyclic : ∀ a, ¬Depends c (c.relatedMachines m) a a) :
    (∀ order : List M, order.Perm (c.relatedMachines m) →
      DependencyOrdered c (c.relatedMachines m) (c.sortMachines order)) ↔
      ∀ a b, Depends c (c.relatedMachines m) a b → ¬ComesBefore c (c.relatedMachines m) a b := by
  constructor
  · intro h a b hdep hbef
    obtain ⟨order, hper, hab⟩ := (exists_order_iff c m a b).mpr hbef
    have hnod : (c.sortMachines order).Nodup :=
      ((sortMachines_perm c order).trans hper).nodup_iff.mpr (nodup_relatedMachines c m)
    exact Insertion.not_pair_sublist_of_nodup hnod hab (h order hper a b hdep)
  · intro h order hper a b hdep
    have hmem {x : M} (hx : x ∈ c.relatedMachines m) : x ∈ c.sortMachines order :=
      ((sortMachines_perm c order).trans hper).mem_iff.mpr hx
    obtain ⟨ha, hb⟩ := mem_of_depends c hdep
    have hne : b ≠ a := by
      rintro rfl
      exact hacyclic b hdep
    refine (Insertion.pair_sublist_or (hmem hb) (hmem ha) hne).resolve_right fun hab => ?_
    exact h a b hdep ((exists_order_iff c m a b).mp ⟨order, hper, hab⟩)

def threeFlags : Configuration (Fin 4) where
  machine i :=
    match i with
    | 0 => ⟨"owner", "OWNER", none, [some 1, some 2, some 3], [], []⟩
    | 1 => ⟨"z", "FLAG", some 0, [], [], []⟩
    | 2 => ⟨"m", "FLAG", some 0, [], [], []⟩
    | 3 => ⟨"a", "FLAG", some 0, [], [], [1]⟩
  address := Fin.val

theorem threeFlags_acyclic (a : Fin 4) :
    ¬Depends threeFlags (threeFlags.relatedMachines 0) a a := by
  intro h
  obtain ⟨x, hx, -⟩ := Relation.TransGen.head'_iff.mp h
  obtain ⟨y, -, hy⟩ := Relation.TransGen.tail'_iff.mp h
  have hsou : ∀ a x, threeFlags.dependsOn a x = true → a = 3 ∧ x = 1 := by decide
  have ha := (hsou a x hx.2.2).1
  have ha' := (hsou y a hy.2.2).2
  exact absurd (ha.symm.trans ha') (by decide)

theorem threeFlags_dependencyOrdered_iff :
    (∀ a, ¬Depends threeFlags (threeFlags.relatedMachines 0) a a) ∧
      ((∀ order : List (Fin 4), order.Perm (threeFlags.relatedMachines 0) →
        DependencyOrdered threeFlags (threeFlags.relatedMachines 0)
          (threeFlags.sortMachines order)) ↔
        ∀ a b, Depends threeFlags (threeFlags.relatedMachines 0) a b →
          ¬ComesBefore threeFlags (threeFlags.relatedMachines 0) a b) :=
  ⟨threeFlags_acyclic, dependencyOrdered_iff threeFlags 0 threeFlags_acyclic⟩

/-- `a` does not use `m` and comes to the front, before the machine that it depends on. -/
theorem threeFlags_not_dependencyOrdered :
    (∀ a, ¬Depends threeFlags (threeFlags.relatedMachines 0) a a) ∧
      ¬DependencyOrdered threeFlags (threeFlags.relatedMachines 0)
        (threeFlags.sortDependentMachines 0) := by
  refine ⟨threeFlags_acyclic, fun h => ?_⟩
  have hdep : Depends threeFlags (threeFlags.relatedMachines 0) 3 1 :=
    .single ⟨by decide, by decide, by decide⟩
  have hsor : threeFlags.sortDependentMachines 0 = [3, 2, 1] := by decide
  have hsub := h 3 1 hdep
  rw [hsor] at hsub
  exact absurd hsub (by decide)

end Order

/-- The machines to which `enable` or `disable` comes, given those that it goes through. -/
def Reached (entered : M → Prop) : M → M → Prop :=
  Relation.ReflTransGen fun a b => entered a ∧ b ∈ c.relatedMachines a

/-- The machine is a member of itself, directly or through other lists and references. -/
def ContainsItself (m : M) : Prop :=
  Relation.TransGen (fun a b =>
    c.collection a = true ∧ c.collection b = true ∧ b ∈ c.relatedMachines a) m m

variable (fuel : ℕ)

theorem enable_eq_visit (enabled : M → Bool) (m : M) : c.enable fuel enabled m =
    visit ⟨c.sortDependentMachines, c.collection⟩ fuel enabled m := by
  induction fuel generalizing enabled m with
  | zero => rfl
  | succ fuel ih =>
    have hfun : c.enable fuel = visit ⟨c.sortDependentMachines, c.collection⟩ fuel := by
      funext enabled m
      exact ih enabled m
    rw [Configuration.enable, visit, hfun]

omit [DecidableEq M] in
theorem foldlM_disable {f g : (M → Bool) → M → Option (M → Bool)}
    (h : ∀ enabled m, f enabled m = (g (fun x => !enabled x) m).map fun marked x => !marked x)
    (l : List M) (enabled : M → Bool) : l.foldlM f enabled =
      (l.foldlM g (fun x => !enabled x)).map fun marked x => !marked x := by
  induction l generalizing enabled with
  | nil => simp
  | cons a l ih =>
    rw [foldlM_cons, foldlM_cons, h]
    cases g (fun x => !enabled x) a with
    | none => rfl
    | some marked =>
      have hres := ih (fun x => !marked x)
      simp only [Bool.not_not] at hres
      exact hres

theorem disable_eq_visit (enabled : M → Bool) (m : M) : c.disable fuel enabled m =
    (visit ⟨fun m => (c.sortDependentMachines m).reverse, c.collection⟩ fuel
      (fun x => !enabled x) m).map fun marked x => !marked x := by
  induction fuel generalizing enabled m with
  | zero => rfl
  | succ fuel ih =>
    rw [Configuration.disable, visit]
    split
    · simp
    · rw [foldlM_disable ih]
      congr 2
      funext x
      by_cases hx : x = m
      · simp [hx]
      · simp [hx]

variable {children : M → List M}

section

variable (hchi : ∀ a b, b ∈ children a ↔ b ∈ c.relatedMachines a)

include hchi

theorem visits_iff (marked : M → Bool) (m x : M) :
    Traversal.Visits ⟨children, c.collection⟩ marked m x ↔
      Reached c (fun a => marked a = false ∨ c.collection a = true) m x := by
  rw [Traversal.Visits, Reached]
  simp only [hchi]
  rfl

theorem onCycle_iff (m : M) :
    Traversal.OnCycle ⟨children, c.collection⟩ m ↔ ContainsItself c m := by
  rw [Traversal.OnCycle, ContainsItself]
  simp only [hchi]

end

/-- `enable` and `disable` end exactly if they come to no list or reference that contains
itself. -/
theorem enable_disable_end_iff [Fintype M] (enabled : M → Bool) (m : M) :
    ((∃ fuel final, c.enable fuel enabled m = some final) ↔
      ∀ x, Reached c (fun a => enabled a = false ∨ c.collection a = true) m x →
        ¬ContainsItself c x) ∧ ((∃ fuel final, c.disable fuel enabled m = some final) ↔
      ∀ x, Reached c (fun a => enabled a = true ∨ c.collection a = true) m x →
        ¬ContainsItself c x) := by
  constructor
  · have hchi (a b : M) : b ∈ c.sortDependentMachines a ↔ b ∈ c.relatedMachines a :=
      mem_sortDependentMachines c
    simp only [enable_eq_visit, exists_fuel_visit_iff, visits_iff c hchi, onCycle_iff c hchi]
  · have hchi (a b : M) :
        b ∈ (c.sortDependentMachines a).reverse ↔ b ∈ c.relatedMachines a :=
      mem_reverse.trans (mem_sortDependentMachines c)
    have hend : (∃ fuel final, c.disable fuel enabled m = some final) ↔
        ∃ fuel final, visit ⟨fun m => (c.sortDependentMachines m).reverse, c.collection⟩
          fuel (fun x => !enabled x) m = some final := by
      refine exists_congr fun fuel => ?_
      rw [disable_eq_visit, ← Option.isSome_iff_exists, ← Option.isSome_iff_exists,
        Option.isSome_map]
    rw [hend, exists_fuel_visit_iff]
    simp only [visits_iff c hchi, onCycle_iff c hchi, Bool.not_eq_false']

def ownMember : Configuration Unit where
  machine _ := ⟨"list", "LIST", none, [], [some ()], []⟩
  address _ := 0

theorem ownMember_enable_eq_none (enabled : Unit → Bool) :
    ownMember.enable fuel enabled () = none := by
  induction fuel generalizing enabled with
  | zero => rfl
  | succ fuel ih =>
    have hsor : ownMember.sortDependentMachines () = [()] := by decide
    rw [Configuration.enable, if_neg (by simp [Configuration.collection, ownMember]), hsor,
      foldlM_cons, ih]
    rfl

/-- However deep the calls go, `enable` does not return. -/
theorem ownMember_enable_never_ends :
    ¬∃ fuel final, ownMember.enable fuel (fun _ => false) () = some final := by
  rintro ⟨fuel, final, h⟩
  rw [ownMember_enable_eq_none] at h
  cases h

end Clockwork.Enabling
