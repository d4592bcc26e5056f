import Clockwork.Lists
import Clockwork.MachineCommand

namespace Clockwork.References

open Function

open MachineCommand (Status)

variable {F M : Type}

/-- The handlers for `EMPTY` and `ASSIGNED`, which run at once, are taken to leave the world. -/
structure World (F M : Type) extends Lists.World F M where
  locals : M → List (Parameter F M)

structure Env (F M : Type) where
  lookup : String → Option M
  getValue : String → Value F
  lookupLocal : String → Option M

variable [DecidableEq M]

namespace World

variable (w : World F M) (r : M)

/-- The dependents of the reference depend on the machine and listen to it. -/
def joinDependents (m : M) : World F M :=
  { w with
    depends := Function.update w.depends m (w.depends m ∪ (w.depends r).erase m)
    listens := fun x => if x ∈ w.depends r then insert m (w.listens x) else w.listens x
    irrefl := w.irrefl_update (by simp [w.irrefl m]) }

def partDependents (m : M) : World F M :=
  { w with
    depends := Function.update w.depends m (w.depends m \ w.depends r)
    listens := fun x => if x ∈ w.depends r then (w.listens x).erase m else w.listens x
    irrefl := w.irrefl_update (by simp [w.irrefl m]) }

def setLocals (ls : List (Parameter F M)) : World F M :=
  { w with locals := Function.update w.locals r ls }

/-- The reference may find a machine for the local, which is linked but not kept. -/
def addLocal (env : Env F M) (param : Value F) (mi : Option M) : World F M :=
  let found := match mi, param with
    | none, .symbol s _ => env.lookupLocal s
    | _, _ => mi
  let w := w.setLocals r (w.locals r ++ [⟨param, "", mi⟩])
  let w := found.elim w fun m =>
    let w := w.joinDependents r m
    { w with toWorld := (w.toWorld.addDependancy m r).listenTo r m }
  { w with toWorld := w.toWorld.setState r "ASSIGNED" }

def removeLocal (m : M) : World F M :=
  let w := { w with toWorld := (w.toWorld.stopListening r m).removeDependancy m r }
  let w := (w.partDependents r m).setLocals r (w.locals r).tail
  { w with toWorld := w.toWorld.setState r "EMPTY" }

def old : Option M := (w.locals r).head?.bind (·.machine)

/-- The first local becomes `ITEM`, whichever it is. -/
def nameItem (realName : String) : Status × World F M :=
  let w := w.setLocals r
    ((w.locals r).modify 0 fun p => ⟨.symbol "ITEM" (some "ITEM"), realName, p.machine⟩)
  (if (w.old r).isSome then .complete else .failed, w)

def bind (env : Env F M) (owner : M) (param : Value F) (realName : String) (m : M) :
    Status × World F M :=
  let w := w.addLocal r env param (some m)
  { w with toWorld := (w.toWorld.addDependancy m owner).listenTo owner m }.nameItem r realName

/-- A symbol that denotes nothing is a null pointer if it is the value of a property, and is
bound without a machine otherwise. -/
def assign (env : Env F M) (owner : M) (entry : Value F) : Option (Status × World F M) :=
  let w := (w.old r).elim w (w.removeLocal r)
  match entry with
  | .symbol name _ =>
    match env.lookup name with
    | some m => some (w.bind r env owner entry name m)
    | none =>
      match env.getValue name with
      | .symbol s t => (env.lookup s).map (w.bind r env owner (.symbol s t) s)
      | _ => some ((w.addLocal r env entry none).nameItem r name)
  | _ => some (.failed, w)

end World

def Env.target (env : Env F M) : Value F → Option M
  | .symbol name _ =>
    (env.lookup name).or
      (match env.getValue name with
      | .symbol s _ => env.lookup s
      | _ => none)
  | _ => none

/-- A failed assignment changes nothing, and after a complete one the reference has one local,
`ITEM` with the machine, and is assigned. -/
structure Atomic (w : World F M) (r : M) (target : Option M) (out : Status × World F M) :
    Prop where
  failed : out.1 = .failed → out.2 = w
  complete : out.1 = .complete → out.2.currentState r = "ASSIGNED" ∧
    ∃ name, out.2.locals r = [⟨.symbol "ITEM" (some "ITEM"), name, target⟩]

variable {w : World F M} {r : M} {env : Env F M}

def World.rest (w : World F M) (r : M) : List (Parameter F M) :=
  if (w.old r).isSome then (w.locals r).tail else w.locals r

open World

theorem locals_removed : ((w.old r).elim w (w.removeLocal r)).locals r = w.rest r := by
  rw [rest]
  cases w.old r with
  | none => rfl
  | some m => exact update_self _ _ _

omit [DecidableEq M] in
theorem rest_eq_nil_iff :
    w.rest r = [] ↔ w.locals r = [] ∨ ∃ p, w.locals r = [p] ∧ p.machine.isSome := by
  rw [rest, old]
  rcases w.locals r with _ | ⟨p, _ | ⟨q, ps⟩⟩
  · simp
  · cases hp : p.machine <;> simp [hp]
  · cases hp : p.machine <;> simp [hp]

theorem locals_addLocal (param : Value F) (mi : Option M) :
    (w.addLocal r env param mi).locals r = w.locals r ++ [⟨param, "", mi⟩] ∧
      (w.addLocal r env param mi).currentState r = "ASSIGNED" := by
  unfold addLocal
  dsimp only
  refine ⟨?_, update_self _ _ _⟩
  generalize (match mi, param with
    | none, .symbol s _ => env.lookupLocal s
    | _, _ => mi) = found
  cases found with
  | none => exact update_self _ _ _
  | some m => exact update_self _ _ _

/-- With another local in front the new one is not the one that is named. -/
theorem atomic_nameItem_iff {w' : World F M} {param : Value F} {mi : Option M}
    (hloc : w'.locals r = w.rest r ++ [⟨param, "", mi⟩])
    (hstt : w'.currentState r = "ASSIGNED") (name : String) :
    Atomic w r mi (w'.nameItem r name) ↔ mi.isSome ∧ w.rest r = [] := by
  have hout : (w'.nameItem r name).2.locals r =
      (w'.locals r).modify 0 fun p => ⟨.symbol "ITEM" (some "ITEM"), name, p.machine⟩ :=
    update_self _ _ _
  have hsta : (w'.nameItem r name).1 =
      if ((w'.nameItem r name).2.old r).isSome then .complete else .failed := rfl
  have hstt' : (w'.nameItem r name).2.currentState r = "ASSIGNED" := hstt
  generalize w'.nameItem r name = out at hout hsta hstt' ⊢
  rw [hloc] at hout
  have hlen : (out.2.locals r).length = (w.rest r).length + 1 := by simp [hout]
  have hcha : out.1 = .failed → out.2 ≠ w := by
    rintro hfai rfl
    have hnon : ¬(out.2.old r).isSome = true := fun h => by simp [hsta, h] at hfai
    rw [rest, if_neg hnon] at hlen
    omega
  constructor
  · intro h
    by_cases hold : (out.2.old r).isSome = true
    · rw [if_pos hold] at hsta
      obtain ⟨-, name', hone⟩ := h.complete hsta
      rw [old, hone] at hold
      rw [hone, List.length_singleton] at hlen
      exact ⟨hold, List.length_eq_zero_iff.mp (by omega)⟩
    · rw [if_neg hold] at hsta
      exact absurd (h.failed hsta) (hcha hsta)
  · rintro ⟨hmi, hres⟩
    rw [hres] at hout
    have hone : out.2.locals r = [⟨.symbol "ITEM" (some "ITEM"), name, mi⟩] := hout
    have hold : (out.2.old r).isSome = true := by
      rw [old, hone]
      exact hmi
    rw [if_pos hold] at hsta
    exact ⟨fun hfai => by simp [hsta] at hfai, fun _ => ⟨hstt', name, hone⟩⟩

/-- An assignment is atomic exactly if a symbol denotes a machine and the reference has no local
but the one that it is assigned, or the entry is no symbol and no machine is assigned. -/
theorem atomic_assign_iff (w : World F M) (r : M) (env : Env F M) (owner : M) (entry : Value F) :
    (∃ out, w.assign r env owner entry = some out ∧ Atomic w r (env.target entry) out) ↔
      if entry.kind = .symbol then
        (env.target entry).isSome ∧ (w.locals r = [] ∨ ∃ p, w.locals r = [p] ∧ p.machine.isSome)
      else w.old r = none := by
  rw [← rest_eq_nil_iff]
  have hbin (param : Value F) (name : String) (m : M) :
      Atomic w r (some m) (((w.old r).elim w (w.removeLocal r)).bind r env owner param name m) ↔
        w.rest r = [] := by
    obtain ⟨hloc, hsta⟩ :=
      @locals_addLocal F M _ ((w.old r).elim w (w.removeLocal r)) r env param (some m)
    rw [locals_removed] at hloc
    unfold World.bind
    dsimp only
    refine Iff.trans (@atomic_nameItem_iff _ _ _ _ _ _ param _ ?_ ?_ name) (and_iff_right rfl)
    · exact hloc
    · rw [← hsta, Lists.World.addDependancy]
      split_ifs <;> rfl
  have hoth : Atomic w r none (.failed, (w.old r).elim w (w.removeLocal r)) ↔ w.old r = none := by
    constructor
    · intro h
      by_contra hne
      obtain ⟨m, hold⟩ := Option.ne_none_iff_exists'.mp hne
      have hsam : (w.old r).elim w (w.removeLocal r) = w := h.failed rfl
      have hres := locals_removed (w := w) (r := r)
      rw [hsam, rest, hold, Option.isSome_some] at hres
      cases hloc : w.locals r with
      | nil => simp [old, hloc] at hold
      | cons p ps => simp [hloc] at hres
    · intro h
      rw [h]
      exact ⟨fun _ => rfl, by simp⟩
  cases entry with
  | symbol name t =>
    simp only [assign, Env.target]
    cases hnam : env.lookup name with
    | some m => simp [hbin, Value.kind]
    | none =>
      obtain ⟨hloc, hsta⟩ :=
        @locals_addLocal F M _ ((w.old r).elim w (w.removeLocal r)) r env (.symbol name t) none
      rw [locals_removed] at hloc
      cases hval : env.getValue name with
      | symbol s u => cases hs : env.lookup s <;> simp [hbin, hs, Value.kind]
      | _ => simp [atomic_nameItem_iff hloc hsta, Value.kind]
  | _ => simp [assign, Env.target, Value.kind, hoth]

/-- A reference to `lamp` is assigned a name that denotes nothing. The assignment fails, and the
reference is `ASSIGNED` to nothing and no longer to `lamp`. -/
theorem failed_assign_loses_lamp :
    let w : World ℚ String :=
      { parameters := fun _ => [], depends := fun _ => ∅, listens := fun _ => ∅,
        currentState := fun _ => "ASSIGNED", irrefl := fun _ => Finset.notMem_empty _,
        locals := fun x => if x = "ref" then [⟨.symbol "ITEM" (some "ITEM"), "lamp", some "lamp"⟩]
          else [] }
    let env : Env ℚ String := ⟨fun _ => none, fun _ => .empty, fun _ => none⟩
    ∃ w', w.assign "ref" env "owner" (.symbol "gone" (some "gone")) = some (.failed, w') ∧
      w'.locals "ref" = [⟨.symbol "ITEM" (some "ITEM"), "gone", none⟩] :=
  ⟨_, rfl, rfl⟩

end Clockwork.References
