import Clockwork.Library.Writes
import Clockwork.SetIntersect

namespace Clockwork.SetOperations

open List Option Function World Operation

variable {F M : Type} [DecidableEq M]

/-- The item that was bound last in a machine, and the machine that `ITEM` is for it. -/
@[ext] structure ItemState (F M : Type) where
  last : Option (Item F M)
  name : Option M

def ItemState.forgetName (st : M → ItemState F M) (y x : M) : ItemState F M :=
  ⟨(st x).last, if x = y then none else (st x).name⟩

namespace Operation

variable (op : Operation F M)

def bindState (side : Side) (st : M → ItemState F M) (a : Item F M) : M → ItemState F M :=
  Function.update st (op.source side) ⟨some a, a.cachedMachine⟩

def secondState (st : M → ItemState F M) (b : Item F M) : M → ItemState F M :=
  ItemState.forgetName (ItemState.forgetName (op.bindState .b st b) op.sourceA) op.sourceB

def firstState (bs : List (Item F M)) (st : M → ItemState F M) (a : Item F M) : M → ItemState F M :=
  bs.foldl op.secondState (op.bindState .a st a)

variable {op} (side : Side) (st : M → ItemState F M)

theorem last_bindState (a : Item F M) (x : M) :
    (op.bindState side st a x).last = if x = op.source side then some a else (st x).last := by
  rw [bindState, update_apply]
  split_ifs <;> rfl

theorem name_bindState (a : Item F M) (x : M) :
    (op.bindState side st a x).name =
      if x = op.source side then a.cachedMachine else (st x).name := by
  rw [bindState, update_apply]
  split_ifs <;> rfl

variable (st : M → ItemState F M)

theorem last_secondState (b : Item F M) (x : M) :
    (op.secondState st b x).last = if x = op.sourceB then some b else (st x).last :=
  last_bindState .b st b x

open ItemState

theorem name_secondState (b : Item F M) (x : M) : (op.secondState st b x).name =
      if x = op.sourceA ∨ x = op.sourceB then none else (st x).name := by
  have hnam : (op.bindState .b st b x).name =
      if x = op.sourceB then b.cachedMachine else (st x).name := name_bindState .b st b x
  simp only [secondState, forgetName, hnam]
  split_ifs <;> simp_all

theorem secondState_overwrite (a b : Item F M) :
    op.secondState (op.secondState st a) b = op.secondState st b := by
  funext x
  apply ItemState.ext
  · simp only [last_secondState]
    split_ifs <;> rfl
  · simp only [name_secondState]
    split_ifs <;> rfl

theorem firstState_eq (bs : List (Item F M)) (st : M → ItemState F M) (a : Item F M) :
    op.firstState bs st a =
      bs.getLast?.elim (op.bindState .a st a) (op.secondState (op.bindState .a st a)) :=
  Writes.foldl_of_overwrite secondState_overwrite _ _

theorem firstState_overwrite (bs : List (Item F M)) (st : M → ItemState F M) (a b : Item F M) :
    op.firstState bs (op.firstState bs st a) b = op.firstState bs st b := by
  simp only [firstState_eq]
  funext x
  cases bs.getLast? with
  | none =>
    apply ItemState.ext
    · simp only [elim_none, last_bindState]
      split_ifs <;> rfl
    · simp only [elim_none, name_bindState]
      split_ifs <;> rfl
  | some c =>
    apply ItemState.ext
    · simp only [elim_some, last_secondState, last_bindState]
      split_ifs <;> rfl
    · simp only [elim_some, name_secondState, name_bindState, source]
      split_ifs <;> simp_all

variable [Double F]

variable (op) in
def pushes (addItem : Side → Bool) (x : M) : ℕ :=
  (decide (op.sourceA = x) && !addItem .a).toNat + (decide (op.sourceB = x) && !addItem .b).toNat

variable (op) in
structure Tracks (w : World F M) (st : M → ItemState F M) (s : Progress F M) : Prop where
  names : ∀ x, (s.world.scopes x).localisedNames =
    Function.update (w.scopes x).localisedNames "ITEM" (st x).name
  locals : ∀ x, Bound (w.scopes x).locals (op.pushes s.addItem x) (st x).last
    (s.world.scopes x).locals
  add : ∀ side, s.addItem side = true → (op.trackers w side).keepItem = false

variable {w : World F M} {st : M → ItemState F M} {s : Progress F M}

omit [Double F] in
theorem pushes_update (addItem : Side → Bool) :
    op.pushes (update addItem side false) (op.source side) =
      if addItem side then op.pushes addItem (op.source side) + 1
      else op.pushes addItem (op.source side) := by
  cases side with
  | a => cases h : addItem .a <;> simp [pushes, source, h, Nat.add_comm]
  | b => cases h : addItem .b <;> simp [pushes, source, h]

omit [Double F] in
theorem pushes_update_of_ne {side : Side} {x : M} (h : x ≠ op.source side) (addItem : Side → Bool) :
    op.pushes (update addItem side false) x = op.pushes addItem x := by
  cases side with
  | a => simp [pushes, show op.sourceA ≠ x from Ne.symm h]
  | b => simp [pushes, show op.sourceB ≠ x from Ne.symm h]

def untouched (w : World F M) (x : M) : ItemState F M :=
  ⟨none, (w.scopes x).localisedNames "ITEM"⟩

theorem tracks_start :
    op.Tracks w (untouched w) ⟨w, fun side => (op.trackers w side).addItem, 0⟩ where
  names x := (update_eq_self "ITEM" _).symm
  locals x := by
    apply bound_self
    intro hkee
    have hadd (side : Side) (hsid : op.source side = x) :
        (op.trackers w side).addItem = true := by
      rw [trackers, hsid]
      simpa [indexTracker] using hkee
    have hA : (decide (op.sourceA = x) && !(op.trackers w .a).addItem) = false := by
      simpa [source] using hadd .a
    have hB : (decide (op.sourceB = x) && !(op.trackers w .b).addItem) = false := by
      simpa [source] using hadd .b
    rw [pushes, hA, hB]
    rfl
  add side h := by
    simpa [trackers, indexTracker] using h

theorem Tracks.bind (h : op.Tracks w st s) (side : Side) {a : Item F M} {m : M}
    (ha : a.cachedMachine = some m) :
    op.Tracks w (update st (op.source side) ⟨some a, a.cachedMachine⟩)
      (op.bind (op.trackers w) side a s) where
  names x := by
    by_cases hx : x = op.source side
    · subst hx
      simp [Operation.bind, World.setListItem, ha, h.names]
    · simp [Operation.bind, World.setListItem, hx, h.names]
  locals x := by
    by_cases hx : x = op.source side
    · subst hx
      have hbou := (h.locals (op.source side)).bind (h.add side) a
      simpa [Operation.bind, World.setListItem, pushes_update, trackers] using hbou
    · simpa [Operation.bind, World.setListItem, hx, pushes_update_of_ne hx] using h.locals x
  add other hadd := by
    by_cases hoth : other = side
    · subst hoth
      simp [Operation.bind] at hadd
    · exact h.add other (by simpa [Operation.bind, hoth] using hadd)

theorem Tracks.eraseItemName (h : op.Tracks w st s) (y : M) : op.Tracks w (forgetName st y)
      { s with world := s.world.eraseItemName y } where
  names x := by
    by_cases hx : x = y
    · subst hx
      simp [World.eraseItemName, forgetName, h.names]
    · simp [World.eraseItemName, forgetName, hx, h.names]
  locals x := by
    by_cases hx : x = y
    · subst hx
      simpa [World.eraseItemName, forgetName] using h.locals x
    · simpa [World.eraseItemName, forgetName, hx] using h.locals x
  add := h.add

theorem Tracks.bindSecond (h : op.Tracks w st s) {b : Item F M} {m : M}
    (hb : b.cachedMachine = some m) :
    op.Tracks w (op.secondState st b) (op.bindSecond (op.trackers w) b s) :=
  ((h.bind .b hb).eraseItemName op.sourceA).eraseItemName op.sourceB

theorem bound_unbind {x : M} {w' : World F M} {n : ℕ} {last : Option (Item F M)} {addItem : Bool}
    (y : M) (h : Bound (w.scopes x).locals ((decide (y = x) && !addItem).toNat + n) last
      (w'.scopes x).locals) : Bound (w.scopes x).locals n last
      ((w'.unbind y (indexTracker (w.scopes y).locals) addItem).scopes x).locals := by
  by_cases hx : y = x
  · subst hx
    rw [decide_eq_true rfl, Bool.true_and] at h
    simpa [unbind] using h.unbind
  · rw [decide_eq_false hx, Bool.false_and, Bool.toNat_false, Nat.zero_add] at h
    simpa [unbind, Ne.symm hx] using h

theorem Tracks.scopes_unbindBoth (h : op.Tracks w st s) (x : M) :
    (op.unbindBoth (op.trackers w) s).scopes x = ⟨restored (w.scopes x).locals (st x).last,
        update (w.scopes x).localisedNames "ITEM" (st x).name⟩ := by
  apply Scope.ext
  · exact (bound_unbind (n := 0) op.sourceB (bound_unbind op.sourceA (h.locals x))).eq_restored
  · rw [← h.names]
    unfold unbindBoth unbind
    simp only [update_apply]
    split_ifs <;> simp_all

def Unseen (w : World F M) (st : M → ItemState F M) : Prop :=
  ∀ x, (∀ a, (st x).last = some a → Keeps (w.scopes x).locals a) ∧
    (st x).name = (w.scopes x).localisedNames "ITEM"

theorem scopes_unbindBoth_eq_iff (h : op.Tracks w st s) :
    (op.unbindBoth (op.trackers w) s).scopes = w.scopes ↔ Unseen w st := by
  have hloc (x : M) : restored (w.scopes x).locals (st x).last = (w.scopes x).locals ↔
      ∀ a, (st x).last = some a → Keeps (w.scopes x).locals a := by
    cases hlas : (st x).last with
    | none => simp [restored]
    | some a => simpa using restored_eq_self_iff
  have hnam (x : M) :
      update (w.scopes x).localisedNames "ITEM" (st x).name =
          (w.scopes x).localisedNames ↔
        (st x).name = (w.scopes x).localisedNames "ITEM" := by
    simp
  rw [funext_iff]
  refine forall_congr' fun x => ?_
  rw [h.scopes_unbindBoth, Scope.ext_iff, hloc, hnam]

omit [DecidableEq M] in
theorem unseen_untouched : Unseen w (untouched w) := by
  intro x
  simp [untouched]

theorem unseen_bindState_iff {a : Item F M} : Unseen w (op.bindState .a (untouched w) a) ↔
      Keeps (w.scopes op.sourceA).locals a ∧
        (w.scopes op.sourceA).localisedNames "ITEM" = a.cachedMachine := by
  constructor
  · intro h
    obtain ⟨hloc, hnam⟩ := h op.sourceA
    rw [name_bindState, source, if_pos rfl] at hnam
    exact ⟨hloc a (by rw [last_bindState, source, if_pos rfl]), hnam.symm⟩
  · intro h x
    rw [last_bindState, name_bindState, source]
    by_cases hx : x = op.sourceA
    · subst hx
      simpa using ⟨h.1, h.2.symm⟩
    · simp [hx, untouched]

theorem unseen_secondState_iff {a b : Item F M} (hsam : op.sourceA = op.sourceB → a = b) :
    Unseen w (op.secondState (op.bindState .a (untouched w) a) b) ↔
      (Keeps (w.scopes op.sourceA).locals a ∧ (w.scopes op.sourceA).localisedNames "ITEM" = none) ∧
      Keeps (w.scopes op.sourceB).locals b ∧
        (w.scopes op.sourceB).localisedNames "ITEM" = none := by
  have hlas (x : M) : (op.secondState (op.bindState .a (untouched w) a) b x).last =
      if x = op.sourceB then some b else if x = op.sourceA then some a else none := by
    rw [last_secondState, last_bindState]
    rfl
  -- where the sources are one list, its local is the item of the inner loop
  have hlaa : (op.secondState (op.bindState .a (untouched w) a) b op.sourceA).last = some a := by
    rw [hlas]
    by_cases hAB : op.sourceA = op.sourceB
    · rw [if_pos hAB, hsam hAB]
    · rw [if_neg hAB, if_pos rfl]
  constructor
  · intro h
    obtain ⟨hloa, hnaa⟩ := h op.sourceA
    obtain ⟨hlob, hnab⟩ := h op.sourceB
    rw [name_secondState, if_pos (.inl rfl)] at hnaa
    rw [name_secondState, if_pos (.inr rfl)] at hnab
    exact ⟨⟨hloa a hlaa, hnaa.symm⟩, hlob b (by rw [hlas, if_pos rfl]), hnab.symm⟩
  · intro h x
    rw [name_secondState]
    by_cases hxA : x = op.sourceA
    · subst hxA
      rw [hlaa]
      simpa using ⟨h.1.1, h.1.2.symm⟩
    · rw [hlas]
      by_cases hxB : x = op.sourceB
      · subst hxB
        simpa using ⟨h.2.1, h.2.2.symm⟩
      · simp [hxA, hxB, name_bindState, source, untouched]

end Operation

namespace Env

variable [Double F] {env : Env F M} {op : Operation F M} {w : World F M} {st : M → ItemState F M}
  {s : Progress F M}

theorem tracks_visitSecond (h : op.Tracks w st s)
    {b : Item F M} (hkin : b.val.kind = .symbol) (hfin : env.find op.owner b ≠ none)
    (a : Item F M) : op.Tracks w (op.secondState st (env.resolved op.owner b))
      (env.visitSecond op (op.trackers w) a s b) := by
  obtain ⟨m, hm⟩ := ne_none_iff_exists'.mp hfin
  have hbou := h.bindSecond ((cachedMachine_resolved hkin).trans hm)
  unfold visitSecond
  dsimp only
  split_ifs
  · exact ⟨hbou.names, hbou.locals, hbou.add⟩
  · exact hbou

theorem tracks_foldl_visitSecond {bs : List (Item F M)} (hbs : env.IsMachines op bs)
    (h : op.Tracks w st s) (a : Item F M) :
    op.Tracks w ((bs.map (env.resolved op.owner)).foldl op.secondState st)
      (bs.foldl (env.visitSecond op (op.trackers w) a) s) := by
  induction bs generalizing st s with
  | nil => exact h
  | cons b bs ih =>
    obtain ⟨hb, hres⟩ := forall_mem_cons.mp hbs
    exact ih hres (tracks_visitSecond h hb.1 hb.2 a)

theorem tracks_foldl_visitFirst {as bs : List (Item F M)} (has : env.IsMachines op as)
    (hbs : env.IsMachines op bs)
    (h : op.Tracks w st s) : op.Tracks w ((as.map (env.resolved op.owner)).foldl
        (op.firstState (bs.map (env.resolved op.owner))) st)
      (as.foldl (env.visitFirst op (op.trackers w) bs) s) := by
  induction as generalizing st s with
  | nil => exact h
  | cons a as ih =>
    obtain ⟨ha, hres⟩ := forall_mem_cons.mp has
    obtain ⟨m, hm⟩ := ne_none_iff_exists'.mp ha.2
    have hbou := h.bind .a ((cachedMachine_resolved ha.1).trans hm)
    exact ih hres (tracks_foldl_visitSecond hbs hbou _)

omit [DecidableEq M] [Double F] in
theorem length_filter_le_flatMap (c : Item F M → ℕ) (r : Item F M → Item F M)
    (as : List (Item F M)) : (as.filter fun a => 0 < c a).length ≤
      (as.flatMap fun a => replicate (c a) (r a)).length := by
  induction as with
  | nil => simp
  | cons a as ih =>
    rw [filter_cons, flatMap_cons, length_append, length_replicate]
    split_ifs with hpos
    · have hc : 0 < c a := by simpa using hpos
      rw [length_cons]
      omega
    · omega

omit [DecidableEq M] [Double F] in
theorem flatMap_replicate_eq_iff (c : Item F M → ℕ) (r : Item F M → Item F M)
    (as : List (Item F M)) :
    (as.flatMap fun a => replicate (c a) (r a)) = (as.filter fun a => 0 < c a).map r ↔
      ∀ a ∈ as, c a ≤ 1 := by
  induction as with
  | nil => simp
  | cons a as ih =>
    rw [forall_mem_cons, ← ih, flatMap_cons, filter_cons]
    rcases Nat.lt_trichotomy (c a) 1 with hzer | hone | hmor
    · obtain hc : c a = 0 := by omega
      simp [hc]
    · simp [hone]
    · refine iff_of_false (fun h => ?_) (fun h => by omega)
      have hle := length_filter_le_flatMap c r as
      have hlen := congrArg length h
      have hpos : decide (0 < c a) = true := decide_eq_true (by omega)
      rw [if_pos hpos, length_append, length_replicate, map_cons, length_cons, length_map] at hlen
      omega

theorem items_intersection_iff (t : Side → IndexTracker) (addItem : Side → Bool) :
    (op.unbindBoth t ((w.items op.sourceA).foldl (env.visitFirst op t (w.items op.sourceB))
        ⟨w, addItem, 0⟩)).items = (env.intersection op w).items ↔
      ∀ a ∈ w.items op.sourceA, (w.items op.sourceB).countP (env.isCommon op a) ≤ 1 := by
  have hany : (fun a => (w.items op.sourceB).any (env.isCommon op a)) =
      fun a => decide (0 < (w.items op.sourceB).countP (env.isCommon op a)) := by
    funext a
    rw [Bool.eq_iff_iff, List.any_eq_true, decide_eq_true_iff, List.countP_pos_iff]
  rw [items_unbindBoth, items_foldl_visitFirst, intersection, hany,
    (Function.update_injective w.items op.dest).eq_iff, List.append_cancel_left_eq,
    flatMap_replicate_eq_iff]

/-- Machines that two lists have in common are found exactly if none matches twice and the
scopes of the sources show no trace: a local `ITEM` they have is the item bound last already,
and `ITEM` is no cached name, or that of the last item if there is nothing to compare with. -/
theorem intersect_iff (hcondition : op.condition = none) (hAD : op.sourceA ≠ op.dest)
    (hBD : op.sourceB ≠ op.dest) (hA : env.IsMachines op (w.items op.sourceA))
    (hB : env.IsMachines op (w.items op.sourceB)) :
    (∃ fuel, env.intersect op fuel w = some (.ok (env.intersection op w))) ↔
      (∀ a ∈ w.items op.sourceA, (w.items op.sourceB).countP (env.isCommon op a) ≤ 1) ∧
        ∀ a, (w.items op.sourceA).getLast? = some a →
          Keeps (w.scopes op.sourceA).locals (env.resolved op.owner a) ∧
          (w.scopes op.sourceA).localisedNames "ITEM" =
            (if w.items op.sourceB = [] then env.find op.owner a else none) ∧
          ∀ b, (w.items op.sourceB).getLast? = some b →
            Keeps (w.scopes op.sourceB).locals (env.resolved op.owner b) ∧
            (w.scopes op.sourceB).localisedNames "ITEM" = none := by
  rw [exists_intersect_iff hcondition hAD hBD hA hB, World.ext_iff]
  refine and_congr (items_intersection_iff _ _)
    ((scopes_unbindBoth_eq_iff (tracks_foldl_visitFirst hA hB tracks_start)).trans ?_)
  rw [Writes.foldl_of_overwrite (firstState_overwrite _), getLast?_map]
  cases hlaa : (w.items op.sourceA).getLast? with
  | none => simpa using unseen_untouched
  | some a =>
    have hcac : (env.resolved op.owner a).cachedMachine = env.find op.owner a :=
      cachedMachine_resolved (hA a (mem_of_getLast? hlaa)).1
    rw [map_some, elim_some, firstState_eq, getLast?_map]
    cases hlab : (w.items op.sourceB).getLast? with
    | none =>
      have hemp : w.items op.sourceB = [] := getLast?_eq_none_iff.mp hlab
      rw [map_none, elim_none, unseen_bindState_iff]
      simp [hcac, hemp]
    | some b =>
      have hsom : w.items op.sourceB ≠ [] := by
        intro h
        simp [h] at hlab
      -- of one list, the last item is bound last
      have hsam : op.sourceA = op.sourceB →
          env.resolved op.owner a = env.resolved op.owner b := by
        intro hAB
        rw [hAB, hlab] at hlaa
        rw [some.inj hlaa]
      rw [map_some, elim_some, unseen_secondState_iff hsam]
      simp [hsom, and_assoc]

end Env

def copyCommon : Operation ℚ String where
  owner := "owner"
  sourceA := "a"
  sourceB := "b"
  dest := "d"
  count := .integer (-1)
  propertyName := ""
  condition := none
  removeSelected := false

theorem isMachines_plainWorld (as bs : List (Item ℚ String))
    (h : ∀ a ∈ as ++ bs, a = ⟨.symbol "m" (some "m"), none⟩) :
    oneFlag.IsMachines copyCommon ((plainWorld as bs []).items "a") ∧
      oneFlag.IsMachines copyCommon ((plainWorld as bs []).items "b") := by
  have hall : oneFlag.IsMachines copyCommon (as ++ bs) := by
    intro a ha
    rw [h a ha]
    exact ⟨rfl, by decide⟩
  exact forall_mem_append.mp hall

/-- A machine that both lists hold once. -/
theorem common_machine_copied :
    let m : Item ℚ String := ⟨.symbol "m" (some "m"), none⟩
    let w := plainWorld [m] [m] []
    oneFlag.IsMachines copyCommon (w.items "a") ∧ oneFlag.IsMachines copyCommon (w.items "b") ∧
      ∃ fuel,
        oneFlag.intersect copyCommon fuel w = some (.ok (oneFlag.intersection copyCommon w)) := by
  intro m w
  obtain ⟨hA, hB⟩ := isMachines_plainWorld [m] [m] (by simp [m])
  have hkee (x : String) (a : Item ℚ String) : Keeps (w.scopes x).locals a := by
    intro p hp
    cases hp
  refine ⟨hA, hB, (Env.intersect_iff rfl (by decide) (by decide) hA hB).mpr ⟨?_, ?_⟩⟩
  · intro a ha
    exact countP_le_length
  · intro a ha
    exact ⟨hkee "a" _, rfl, fun b hb => ⟨hkee "b" _, rfl⟩⟩

/-- A machine that is twice in the second list is copied twice. -/
theorem common_machine_copied_twice :
    let m : Item ℚ String := ⟨.symbol "m" (some "m"), none⟩
    let found : Item ℚ String := ⟨.symbol "m" (some "m"), some "m"⟩
    let w := plainWorld [m] [m, m] []
    oneFlag.IsMachines copyCommon (w.items "a") ∧ oneFlag.IsMachines copyCommon (w.items "b") ∧
      (oneFlag.intersection copyCommon w).items "d" = [found] ∧
      (∃ w', oneFlag.intersect copyCommon 4 w = some (.ok w') ∧ w'.items "d" = [found, found]) ∧
      ¬∃ fuel,
        oneFlag.intersect copyCommon fuel w = some (.ok (oneFlag.intersection copyCommon w)) := by
  intro m found w
  obtain ⟨hA, hB⟩ := isMachines_plainWorld [m] [m, m] (by simp [m])
  refine ⟨hA, hB, rfl, ⟨_, rfl, rfl⟩, ?_⟩
  rw [Env.exists_intersect_iff rfl (by decide) (by decide) hA hB]
  intro h
  have hdes : [found, found] = [found] := congrArg (fun w => w.items "d") h
  exact absurd (congrArg length hdes) (by decide)

end Clockwork.SetOperations
