import Clockwork.Predicate
import Clockwork.Library.OwnedTree

namespace Clockwork.Copying

open OwnedTree Option LiveTree Store

variable {X F δ : Type}

/-- The `entry` of a predicate. A dynamic value is known by its description `δ`, which its `clone`
has as well; `lost` is the kind `t_dynamic` without a `dyn_value`. -/
inductive Entry (F δ : Type) where
  | value (v : Value F)
  | dynamic (d : δ)
  | lost

/-- The assignment of an entry to itself releases the dynamic value before it is read. -/
def Entry.assignSelf : Entry F δ → Entry F δ
  | .dynamic _ => .lost
  | e => e

def Entry.isDynamic : Entry F δ → Bool
  | .dynamic _ => true
  | _ => false

theorem Entry.assignSelf_eq_iff {e : Entry F δ} : e.assignSelf = e ↔ e.isDynamic = false := by
  cases e <;> simp [assignSelf, isDynamic]

/-- What a predicate has besides its two children; `dyn_value` is the machine found for a symbol.
The caches that a copy starts without are not part of it. -/
structure Info (F δ : Type) where
  op : PredicateOperator
  entry : Entry F δ
  dynValue : Option δ
  priority : ℤ

def copyInto (target source : Link (Info F δ)) : Option (Link (Info F δ)) :=
  match source with
  | .null => some target
  | source => source.copy

structure Object (F δ : Type) where
  info : Info F δ
  left : Link (Info F δ)
  right : Link (Info F δ)

def object? : Link (Info F δ) → Option (Object F δ)
  | .node info l r => some ⟨info, l, r⟩
  | _ => none

def object (w : Store X (Info F δ)) (a : Place X) : Option (Object F δ) := (w.follow a).bind object?

/-- `Predicate::operator=`, of the predicate at `a` from the one at `b`. The children and the
`dyn_value` of the target are deleted first, and the source is read from what is there then. -/
def assign [DecidableEq X] (w : Store X (Info F δ)) (a b : Place X) : Option (Store X (Info F δ)) :=
  (object w a).bind fun this =>
  this.left.delete.bind fun left₀ =>
  this.right.delete.bind fun right₀ =>
  let w₁ := w.write a (.node this.info left₀ right₀)
  (object w₁ b).bind fun other₁ =>
  (copyInto left₀ other₁.left).bind fun left₁ =>
  let info₁ : Info F δ := { this.info with op := other₁.info.op }
  let w₂ := w₁.write a (.node info₁ left₁ right₀)
  (object w₂ b).bind fun other₂ =>
  (copyInto right₀ other₂.right).bind fun right₁ =>
  let w₃ := w₂.write a (.node info₁ left₁ right₁)
  (object w₃ b).bind fun other₃ =>
  let entry := if a = b then other₃.info.entry.assignSelf else other₃.info.entry
  if a = b ∧ other₃.info.dynValue.isSome then none
  else some (w₃.write a
    (.node ⟨info₁.op, entry, other₃.info.dynValue, other₃.info.priority⟩ left₁ right₁))

def Condition.copy (other : Link (Info F δ)) : Option (Link (Info F δ)) := copyInto .null other

def Condition.assign (this other : Link (Info F δ)) : Option (Link (Info F δ)) :=
  copyInto this other

structure ConditionHandler (F P : Type) where
  condition : P
  timerVal : Value F
  timerOp : PredicateOperator
  usesTimer : Bool
  triggered : Bool
  commandName : String
  flagName : String

structure StableState (F P : Type) where
  stateName : String
  condition : P
  usesTimer : Bool
  timerVal : Value F
  subconditionHandlers : Option (List (ConditionHandler F P))
  name : Value F

/-- `ConditionHandler(other)` does not set `timer_op`, which is then any operator. -/
def ConditionHandler.copy (timerOp : PredicateOperator)
    (other : ConditionHandler F (Link (Info F δ))) :
    Option (ConditionHandler F (Link (Info F δ))) :=
  (Condition.copy other.condition).map fun condition =>
    { other with condition := condition, timerOp := timerOp }

def StableState.copy (timerOp : PredicateOperator) (other : StableState F (Link (Info F δ))) :
    Option (StableState F (Link (Info F δ))) :=
  (Condition.copy other.condition).bind fun condition =>
  (other.subconditionHandlers.mapM (List.mapM (ConditionHandler.copy timerOp))).map
    fun handlers =>
      { stateName := other.stateName
        condition := condition
        usesTimer := other.usesTimer
        timerVal := .integer 0
        subconditionHandlers := handlers
        name := .empty }

structure At (T : X → LiveTree (Info F δ)) where
  place : Place X
  info : Info F δ
  left : LiveTree (Info F δ)
  right : LiveTree (Info F δ)
  here : (T place.root).follow place.path = some (.node info left right)

def At.tree {T : X → LiveTree (Info F δ)} (p : At T) : LiveTree (Info F δ) :=
  .node p.info p.left p.right

def store (T : X → LiveTree (Info F δ)) : Store X (Info F δ) := fun x => (T x).link

def treeAt (w : Store X (Info F δ)) (a : Place X) : Option (LiveTree (Info F δ)) :=
  (w.follow a).bind Link.tree?

def ConditionHandler.map {P Q : Type} (f : P → Q) (ch : ConditionHandler F P) :
    ConditionHandler F Q :=
  { ch with condition := f ch.condition }

def StableState.map {P Q : Type} (f : P → Q) (s : StableState F P) : StableState F Q :=
  { s with
    condition := f s.condition
    subconditionHandlers := s.subconditionHandlers.map fun hs => hs.map (ConditionHandler.map f) }

inductive Copy (X F δ : Type) where
  | assign (T : X → LiveTree (Info F δ)) (p q : At T)
  | copyCondition (source : LiveTree (Info F δ))
  | assignCondition (target source : LiveTree (Info F δ))
  | copyStableState (timerOp : PredicateOperator) (s : StableState F (LiveTree (Info F δ)))

def Copy.Preserves [DecidableEq X] : Copy X F δ → Prop
  | .assign T p q =>
    ∃ w, Copying.assign (store T) p.place q.place = some w ∧
      treeAt w p.place = some q.tree ∧ treeAt w q.place = some q.tree
  | .copyCondition source =>
    ∃ c, Condition.copy source.link = some c ∧ c.tree? = some source
  | .assignCondition target source =>
    ∃ c, Condition.assign target.link source.link = some c ∧ c.tree? = some source
  | .copyStableState timerOp s =>
    ∃ s', StableState.copy timerOp (s.map LiveTree.link) = some s' ∧
      s'.condition.tree? = some s.condition ∧ s'.stateName = s.stateName ∧ s'.name = s.name ∧
      s'.timerVal = s.timerVal ∧ s'.usesTimer = s.usesTimer

def Copy.Sound : Copy X F δ → Prop
  | .assign _ p q =>
    (p.place = q.place → p.left.isNull ∧ p.right.isNull ∧ p.info.entry.isDynamic = false ∧
      p.info.dynValue = none) ∧
    ¬p.place.Below q.place ∧ ¬q.place.Below p.place ∧
    (p.place ≠ q.place → (q.left.isNull → p.left.isNull) ∧ (q.right.isNull → p.right.isNull))
  | .copyCondition _ => True
  | .assignCondition target source => source.isNull → target.isNull
  | .copyStableState _ s => s.timerVal = .integer 0 ∧ s.name = .empty

variable (target : Link (Info F δ)) (source : LiveTree (Info F δ))

theorem copyInto_link :
    copyInto target source.link = some (if source.isNull then target else source.link) := by
  cases source with
  | null => rfl
  | node info l r => exact copy_link (.node info l r)

theorem tree_copied_iff :
    Link.tree? (if source.isNull then target else source.link) = some source ↔
      (source.isNull → target = .null) := by
  cases source with
  | null => cases target <;> simp [isNull, Link.tree?, bind_eq_some_iff]
  | node info l r => simp [isNull]

section Assign

variable {T : X → LiveTree (Info F δ)}

theorem follow_store (p : At T) :
    (store T).follow p.place = some (.node p.info p.left.link p.right.link) := by
  rw [Store.follow, store, follow_link, p.here]
  rfl

variable {w : Store X (Info F δ)}

theorem object_of_follow {a : Place X} {info : Info F δ}
    {l r : Link (Info F δ)} (h : w.follow a = some (.node info l r)) :
    object w a = some ⟨info, l, r⟩ := by
  rw [object, h]
  rfl

theorem At.tree_eq {p q : At T} (h : p.place = q.place) : p.tree = q.tree := by
  have hq := q.here
  rw [← h, p.here] at hq
  exact some.inj hq

theorem treeAt_eq {a : Place X} {l : Link (Info F δ)}
    (h : w.follow a = some l) : treeAt w a = l.tree? := by
  rw [treeAt, h]
  rfl

variable [DecidableEq X]

def assigned (target source : LiveTree (Info F δ)) : Link (Info F δ) :=
  if source.isNull then (if target.isNull then .null else .freed) else source.link

variable {p q : At T}

theorem assign_of_apart (h : p.place.Apart q.place) :
    ∃ w, assign (store T) p.place q.place = some w ∧ w.follow p.place =
        some (.node q.info (assigned p.left q.left) (assigned p.right q.right)) ∧
      w.follow q.place = some (.node q.info q.left.link q.right.link) := by
  have hq := follow_store q
  have frame {w : Store X (Info F δ)} (hw : w.follow q.place = some (.node q.info q.left.link
      q.right.link)) (x : Link (Info F δ)) : (w.write p.place x).follow q.place = some (.node q.info
      q.left.link q.right.link) := by
    rw [follow_write_of_apart w h, hw]
  refine ⟨?w, ?_, ?_, ?_⟩
  rotate_left
  · simp only [assign, object_of_follow (follow_store p), bind_some, delete_link,
      object_of_follow (frame hq _), copyInto_link, object_of_follow (frame (frame hq _) _),
      object_of_follow (frame (frame (frame hq _) _) _), h.ne, false_and, if_false]
    rfl
  · exact follow_write_self (follow_write_self (follow_write_self
      (follow_write_self (follow_store p) _) _) _) _
  · exact frame (frame (frame (frame hq _) _) _) _

theorem object_deleted (t : LiveTree (Info F δ)) (rest : List Side) :
    ((if t.isNull then Link.null else .freed).follow rest).bind object? =
      (none : Option (Object F δ)) := by
  cases rest <;> cases t <;> rfl

theorem assign_of_below (h : p.place.Below q.place) : assign (store T) p.place q.place = none := by
  obtain ⟨hroo, s, rest, hpat⟩ := h
  have hdel (w : Store X (Info F δ)) (hw : w.follow p.place = some (.node p.info
      (if p.left.isNull then .null else .freed) (if p.right.isNull then .null else .freed))) :
      object w q.place = none := by
    rw [object, follow_of_below hw hroo hpat]
    cases s with
    | left => exact object_deleted p.left rest
    | right => exact object_deleted p.right rest
  simp only [assign, object_of_follow (follow_store p), bind_some, delete_link,
    hdel _ (follow_write_self (follow_store p) _), bind_none]

theorem assign_self_eq_none {p : At T} (h : ¬(p.left.isNull ∧ p.right.isNull)) :
    assign (store T) p.place p.place = none := by
  cases hl : p.left.isNull with
  | false =>
    have h₁ (r₀ : Link (Info F δ)) :=
      Store.follow_write_self (follow_store p) (.node p.info .freed r₀)
    simp only [assign, object_of_follow (follow_store p), bind_some, delete_link, hl,
      Bool.false_eq_true, if_false, object_of_follow (h₁ _), copyInto, Link.copy, bind_none]
  | true =>
    have hr : p.right.isNull = false := by simpa [hl] using h
    have h₁ := Store.follow_write_self (follow_store p) (.node p.info .null .freed)
    have h₂ := Store.follow_write_self h₁ (.node p.info .null .freed)
    simp only [assign, object_of_follow (follow_store p), bind_some, delete_link, hl, hr,
      if_true, Bool.false_eq_true, if_false, object_of_follow h₁, copyInto, object_of_follow h₂,
      Link.copy, bind_none]

theorem assign_self {p : At T} (hl : p.left.isNull) (hr : p.right.isNull) :
    (p.info.dynValue.isSome → assign (store T) p.place p.place = none) ∧
    (p.info.dynValue = none → ∃ w, assign (store T) p.place p.place = some w ∧
      w.follow p.place =
        some (.node { p.info with entry := p.info.entry.assignSelf } .null .null)) := by
  have h₁ := Store.follow_write_self (follow_store p) (.node p.info .null .null)
  have h₂ := Store.follow_write_self h₁ (.node p.info .null .null)
  have h₃ := Store.follow_write_self h₂ (.node p.info .null .null)
  simp only [assign, object_of_follow (follow_store p), bind_some, delete_link, hl, hr, if_true,
    object_of_follow h₁, copyInto, object_of_follow h₂, object_of_follow h₃, true_and]
  refine ⟨fun hdyn => if_pos hdyn, fun hdyn => ⟨?w, ?_, ?_⟩⟩
  rotate_left
  · exact if_neg (not_isSome_iff_eq_none.mpr hdyn)
  · exact Store.follow_write_self h₃ _

omit [DecidableEq X] in
theorem tree_assigned_iff :
    Link.tree? (.node q.info (assigned p.left q.left) (assigned p.right q.right)) = some q.tree ↔
      (q.left.isNull → p.left.isNull) ∧ (q.right.isNull → p.right.isNull) := by
  have hass (target source : LiveTree (Info F δ)) :
      Link.tree? (assigned target source) = some source ↔ (source.isNull → target.isNull) := by
    rw [assigned, tree_copied_iff]
    cases target <;> simp [isNull]
  rw [← hass p.left q.left, ← hass p.right q.right]
  simp only [Link.tree?, bind_eq_some_iff, map_eq_some_iff, At.tree]
  constructor
  · rintro ⟨l, hl, r, hr, heq⟩
    obtain ⟨-, rfl, rfl⟩ := node.inj heq
    exact ⟨hl, hr⟩
  · rintro ⟨hl, hr⟩
    exact ⟨_, hl, _, hr, rfl⟩

theorem preserves_apart_iff (h : p.place.Apart q.place) : (Copy.assign T p q).Preserves ↔
      (q.left.isNull → p.left.isNull) ∧ (q.right.isNull → p.right.isNull) := by
  obtain ⟨w, hw, hp, hq⟩ := assign_of_apart h
  have hsou : Link.tree? (.node q.info q.left.link q.right.link) = some q.tree :=
    tree_link q.tree
  simp only [Copy.Preserves, hw, some.injEq, exists_eq_left', treeAt_eq hp, treeAt_eq hq,
    hsou, and_true]
  exact tree_assigned_iff

theorem preserves_self_iff (h : p.place = q.place) : (Copy.assign T p q).Preserves ↔
      p.left.isNull ∧ p.right.isNull ∧ p.info.entry.isDynamic = false ∧
        p.info.dynValue = none := by
  simp only [Copy.Preserves, ← h, ← At.tree_eq h, and_self]
  by_cases hchi : p.left.isNull ∧ p.right.isNull
  · obtain ⟨hl, hr⟩ := hchi
    by_cases hdyn : p.info.dynValue = none
    swap
    · rw [(assign_self hl hr).1 (isSome_iff_ne_none.mpr hdyn)]
      exact iff_of_false (by simp) fun h => hdyn h.2.2.2
    obtain ⟨w, hw, hp⟩ := (assign_self hl hr).2 hdyn
    have htre : p.tree = .node p.info .null .null := by
      rw [At.tree, isNull_iff.mp hl, isNull_iff.mp hr]
    simp only [hw, some.injEq, exists_eq_left', treeAt_eq hp, htre, hl, hr, true_and,
      Link.tree?, bind_some, map_some, node.injEq, and_true, hdyn]
    rw [← Entry.assignSelf_eq_iff]
    exact ⟨fun h => congrArg Info.entry h, fun h => by rw [h, ← hdyn]⟩
  · rw [assign_self_eq_none hchi]
    refine iff_of_false (by simp) fun h => hchi ⟨h.1, h.2.1⟩

theorem not_preserves_of_below (h : q.place.Below p.place) : ¬(Copy.assign T p q).Preserves := by
  rintro ⟨w, -, hp, hq⟩
  obtain ⟨l, hl, htre⟩ := bind_eq_some_iff.mp hq
  obtain ⟨m, hm, htre'⟩ := bind_eq_some_iff.mp hp
  exact tree_ne_of_below h hl hm htre htre'

theorem preserves_assign_iff (p q : At T) :
    (Copy.assign T p q).Preserves ↔ (Copy.assign T p q).Sound := by
  unfold Copy.Sound
  rcases Place.eq_or_below_or_apart p.place q.place with h | h | h | h
  · rw [preserves_self_iff h]
    have hnot : ¬q.place.Below q.place := fun hbel => hbel.ne rfl
    simp [h, hnot]
  · refine iff_of_false ?_ fun hsou => hsou.2.1 h
    rintro ⟨w, hw, -⟩
    rw [assign_of_below h] at hw
    cases hw
  · exact iff_of_false (not_preserves_of_below h) fun hsou => hsou.2.2.1 h
  · rw [preserves_apart_iff h]
    simp [h.ne, h.not_below]

end Assign

theorem Condition.copy_link : Condition.copy source.link = some source.link := by
  rw [Condition.copy, copyInto_link]
  cases source <;> rfl

open ConditionHandler

variable (timerOp : PredicateOperator)

theorem mapM_copy_isSome (hs : List (ConditionHandler F (LiveTree (Info F δ)))) :
    ∃ hs', (hs.map (map link)).mapM (copy timerOp) =
      some hs' := by
  induction hs with
  | nil => exact ⟨[], rfl⟩
  | cons h hs ih =>
    obtain ⟨hs', hhs'⟩ := ih
    have hcop : copy timerOp (h.map link) =
        some { h.map link with timerOp := timerOp } := by
      simp [copy, map, Condition.copy_link]
    exact ⟨{ h.map link with timerOp := timerOp } :: hs', by
      rw [List.map_cons, List.mapM_cons, hcop, hhs']; rfl⟩

open StableState

theorem StableState.copy_map (s : StableState F (LiveTree (Info F δ))) :
    ∃ handlers, copy timerOp (s.map link) =
      some ⟨s.stateName, s.condition.link, s.usesTimer, .integer 0, handlers, .empty⟩ := by
  simp only [copy, map, Condition.copy_link, bind_some]
  cases s.subconditionHandlers with
  | none => exact ⟨none, rfl⟩
  | some hs =>
    obtain ⟨hs', hhs'⟩ := mapM_copy_isSome timerOp hs
    refine ⟨some hs', ?_⟩
    simp [hhs']

/-- A copy keeps what it should exactly in the sound cases. -/
theorem preserves_iff [DecidableEq X] (c : Copy X F δ) : c.Preserves ↔ c.Sound := by
  cases c with
  | assign T p q => exact preserves_assign_iff p q
  | copyCondition source =>
    exact iff_of_true ⟨_, Condition.copy_link source, tree_link source⟩ trivial
  | assignCondition target source =>
    simp only [Copy.Preserves, Copy.Sound, Condition.assign, copyInto_link, some.injEq,
      exists_eq_left']
    rw [tree_copied_iff, link_eq_null_iff]
  | copyStableState timerOp s =>
    obtain ⟨handlers, hcop⟩ := copy_map timerOp s
    simp only [Copy.Preserves, Copy.Sound, hcop, some.injEq, exists_eq_left', tree_link,
      true_and, and_true]
    rw [and_comm, eq_comm, and_congr_right_iff]
    exact fun _ => eq_comm

def timerAndFive : Bool → LiveTree (Info ℚ Unit)
  | true =>
    .node ⟨.opGE, .value .empty, none, 0⟩
      (.node ⟨.opNone, .value (.symbol "TIMER" (some "TIMER")), none, 0⟩ .null .null)
      (.node ⟨.opNone, .value (.integer 10), none, 0⟩ .null .null)
  | false => .node ⟨.opNone, .value (.integer 5), none, 0⟩ .null .null

/-- After the assignment of 5 to `TIMER >= 10` both pointers of the target are still set. -/
theorem not_preserves_five_to_timer : ¬(Copy.assign timerAndFive ⟨⟨true, []⟩, _, _, _, rfl⟩
      ⟨⟨false, []⟩, _, _, _, rfl⟩).Preserves := by
  rintro ⟨w, hw, htre, -⟩
  cases hw
  have hnon : none = some _ := htre
  cases hnon

end Clockwork.Copying
