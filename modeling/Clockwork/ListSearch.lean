import Clockwork.ItemScopes

namespace Clockwork.SetOperations

open Option

variable {F M : Type}

structure Search (F M : Type) where
  lookup : Parameter F M → Option M
  /-- the condition, which reads the item through the scope of the list -/
  condition : Option (Scope F M → Bool)

namespace Search

variable (op : Search F M)

def item (p : Parameter F M) : Option (Item F M) :=
  (p.machine <|> op.lookup p).map fun m => ⟨p.val, some m⟩

def bindItem (s : Scope F M) (index : ℕ) (addItem : Bool) (a : Item F M) : Scope F M where
  locals := bindLocal s.locals index addItem a
  localisedNames :=
    if op.condition.isSome then Function.update s.localisedNames "ITEM" a.cachedMachine
    else s.localisedNames

def satisfied (s : Scope F M) : Bool := op.condition.all fun c => c s

def loop (index : ℕ) : List (Parameter F M) → ℕ → Bool → Scope F M → Option ℕ × Scope F M
  | [], _, _, s => (none, s)
  | p :: ps, i, addItem, s =>
    match op.item p with
    | none => loop index ps (i + 1) addItem s
    | some a =>
      if op.satisfied (op.bindItem s index addItem a) then (some i, op.bindItem s index addItem a)
      else loop index ps (i + 1) false (op.bindItem s index addItem a)

variable [Double F]

def findValue (ps : List (Parameter F M)) (s : Scope F M) : ℤ × Scope F M :=
  if ps = [] then (-1, s)
  else
    let t := indexTracker s.locals
    let out := op.loop t.index ps 0 t.addItem s
    (out.1.elim (-1) (↑),
      { out.2 with
        locals :=
          if t.keepItem = false ∧ t.index < out.2.locals.length then
            out.2.locals.eraseIdx t.index
          else out.2.locals })

def boundTo (s : Scope F M) (a : Item F M) : Scope F M :=
  op.bindItem s (indexTracker s.locals).index (indexTracker s.locals).addItem a

/-- The machine of the parameter is found and satisfies the condition. -/
def selects (s : Scope F M) (p : Parameter F M) : Bool :=
  (op.item p).any fun a => op.satisfied (op.boundTo s a)

def visited (s : Scope F M) (ps : List (Parameter F M)) : List (Item F M) :=
  (ps.take (ps.findIdx (op.selects s) + 1)).filterMap op.item

def after (s : Scope F M) (last : Option (Item F M)) : Scope F M := last.elim s (op.boundTo s)

variable {op} {s : Scope F M} (last : Option (Item F M))

theorem bindItem_after (a : Item F M) :
    op.bindItem (op.after s last) (indexTracker s.locals).index
      (last.isNone && (indexTracker s.locals).addItem) a = op.boundTo s a := by
  cases last with
  | none => rfl
  | some b =>
    refine Scope.ext (bindLocal_bindLocal b a) ?_
    simp only [after, Option.elim, boundTo, bindItem]
    split_ifs
    · exact Function.update_idem _ _ _
    · rfl

variable (ps : List (Parameter F M))

theorem loop_eq (i : ℕ) (last : Option (Item F M)) :
    op.loop (indexTracker s.locals).index ps i
        (last.isNone && (indexTracker s.locals).addItem) (op.after s last) =
      ((ps.findIdx? (op.selects s)).map (· + i),
        op.after s ((op.visited s ps).getLast?.or last)) := by
  induction ps generalizing i last with
  | nil => rfl
  | cons p ps ih =>
    rw [loop, List.findIdx?_cons, visited, List.findIdx_cons]
    cases hite : op.item p with
    | none =>
      have hsel : op.selects s p = false := by rw [selects, hite]; rfl
      simp [hsel, hite, ih, visited, Function.comp_def, add_assoc, add_comm 1]
    | some a =>
      have hsel : op.selects s p = op.satisfied (op.boundTo s a) := by rw [selects, hite]; rfl
      dsimp only
      rw [bindItem_after, ← hsel]
      cases hp : op.selects s p with
      | true => simp [hite, after]
      | false =>
        have hres := ih (i + 1) (some a)
        simp only [isNone_some, Bool.false_and, after, elim_some] at hres
        simp [hres, hite, visited, Function.comp_def, add_assoc, add_comm 1,
          List.getLast?_cons, after]

/-- The local that was pushed is erased again; an `ITEM` that was there has been overwritten. -/
theorem locals_findValue : (if (indexTracker s.locals).keepItem = false ∧
        (indexTracker s.locals).index < (op.after s last).locals.length then
      (op.after s last).locals.eraseIdx (indexTracker s.locals).index
    else (op.after s last).locals) = restored s.locals last := by
  have hadd : (indexTracker s.locals).addItem = !(indexTracker s.locals).keepItem := rfl
  cases hkee : (indexTracker s.locals).keepItem with
  | true =>
    cases last with
    | none => rfl
    | some a => simp [after, boundTo, bindItem, bindLocal, restored, hadd, hkee]
  | false =>
    rw [index_of_not_keep hkee]
    cases last with
    | none => simp [after, restored]
    | some a =>
      simp [after, boundTo, bindItem, bindLocal, restored, hadd, hkee, index_of_not_keep hkee,
        List.set_append_right, List.eraseIdx_append_of_length_le]

theorem findValue_eq (s : Scope F M) : op.findValue ps s =
      ((ps.findIdx? (op.selects s)).elim (-1) (↑), ⟨restored s.locals (op.visited s ps).getLast?,
          (op.after s (op.visited s ps).getLast?).localisedNames⟩) := by
  rw [findValue]
  split_ifs with hps
  · subst hps
    rfl
  · have hloo : op.loop (indexTracker s.locals).index ps 0 (indexTracker s.locals).addItem s =
        (ps.findIdx? (op.selects s), op.after s (op.visited s ps).getLast?) := by
      have hloo := @loop_eq F M op _ s ps 0 none
      simp only [isNone_none, Bool.true_and, or_none, add_zero, map_id'] at hloo
      exact hloo
    dsimp only
    rw [hloo, locals_findValue]

/-- The search returns the index of the first item that satisfies the condition, and leaves the
scope of the list as it was exactly if the last item that it looked at is the `ITEM` that was
there, as far as there was one, and the machine that the name `ITEM` was cached for. -/
theorem findValue_iff (op : Search F M) (ps : List (Parameter F M)) (s : Scope F M) :
    ((op.findValue ps s).1 = (ps.findIdx? (op.selects s)).elim (-1) (↑) ∧
      (op.findValue ps s).2 = s) ↔ ∀ a, (op.visited s ps).getLast? = some a →
      Keeps s.locals a ∧ (op.condition.isSome → s.localisedNames "ITEM" = a.cachedMachine) := by
  rw [findValue_eq, and_iff_right rfl]
  cases (op.visited s ps).getLast? with
  | none => simp [restored, after]
  | some a =>
    have hnam : (op.boundTo s a).localisedNames = s.localisedNames ↔
        (op.condition.isSome → s.localisedNames "ITEM" = a.cachedMachine) := by
      rw [boundTo, bindItem]
      split_ifs with hcon
      · rw [Function.update_eq_self_iff, eq_comm]
        simp [hcon]
      · simp [hcon]
    rw [Scope.ext_iff, restored_eq_self_iff]
    simp only [after, elim_some, hnam, some.injEq, forall_eq']

/-- No item of the list satisfies the condition, and `ITEM` still denotes the last one. -/
theorem findValue_leaves_item :
    let op : Search ℚ String := ⟨fun _ => none, some fun _ => false⟩
    let lamp : Parameter ℚ String := ⟨.symbol "lamp" (some "lamp"), "", some "lamp"⟩
    (op.findValue [lamp] ⟨[], fun _ => none⟩).1 = -1 ∧
      (op.findValue [lamp] ⟨[], fun _ => none⟩).2.localisedNames "ITEM" = some "lamp" := by
  decide

end Search

end Clockwork.SetOperations
