import Clockwork.Value
import Clockwork.Library.Runs

namespace Clockwork

open Option

variable {F : Type}

/-- `SymbolTable`: the values by name, and the symbols among them by the token of the name. The
keys of both maps are names (see `TokenId`). -/
structure SymbolTable (F : Type) where
  st : String → Option (Value F)
  stok : String → Option (Value F)
  stok_symbol : ∀ n v, stok n = some v → v.kind = .symbol

namespace SymbolTable

inductive ReplaceMode where
  | replace | noReplace
deriving DecidableEq, Repr

def empty : SymbolTable F := ⟨fun _ => none, fun _ => none, by simp⟩

-- Every mutator but `push_back` writes an entry to `st` and, if its value is a symbol, to
-- `stok`. The entries that one call writes have different names, so their order does not matter.

def symbol? (e : Option (Value F)) : Option (Value F) := e.filter fun v => v.kind = .symbol

variable (t : SymbolTable F)

def load (es : String → Option (Value F)) : SymbolTable F where
  st n := (es n).or (t.st n)
  stok n := (symbol? (es n)).or (t.stok n)
  stok_symbol n v h := by
    rcases Option.or_eq_some_iff.mp h with h | ⟨-, h⟩
    · simpa using (Option.filter_eq_some_iff.mp h).2
    · exact t.stok_symbol n v h

def entry (name : String) (v : Value F) (n : String) : Option (Value F) :=
  if n = name then some v else none

/-- `add(name, val, replace_mode)`, with its result. -/
def add (name : String) (val : Value F) (mode : ReplaceMode) : SymbolTable F × Bool :=
  if mode = .replace ∨ (mode = .noReplace ∧ t.st name = none) then (t.load (entry name val), true)
  else (t, false)

def added (t orig : SymbolTable F) (mode : ReplaceMode) (n : String) : Option (Value F) :=
  if mode ≠ .replace ∧ t.st n ≠ none then none
  -- these reserved words cannot be replaced en mass
  else if n = "NAME" ∨ n = "STATE" then none
  else orig.st n

/-- `add(orig, replace_mode)`. A table can be added to itself. -/
def addAll (t orig : SymbolTable F) (mode : ReplaceMode) : SymbolTable F :=
  t.load (t.added orig mode)

def copy (orig : SymbolTable F) : SymbolTable F := empty.load orig.st

def erase : SymbolTable F := { t with st := fun _ => none }

/-- `operator=`. The target is erased before `orig` is read, so the caller passes the erased table
where the two are one. -/
def assign (t orig : SymbolTable F) : SymbolTable F := t.erase.load orig.st

def pushBack (name : String) (v : Value F) : SymbolTable F :=
  { t with st := fun n => (entry name v n).or (t.st n) }

def clear (_ : SymbolTable F) : SymbolTable F := empty

/-- The table of keywords. `getKeyValue` overwrites its values in place; no token is ever added to
it without its name. -/
structure Keywords (F : Type) extends SymbolTable F where
  named : ∀ n, st n = none → stok n = none

def Covered : Prop := ∀ n, t.st n = none → t.stok n = none

variable {t : SymbolTable F}

theorem covered_load (h : t.Covered) (es : String → Option (Value F)) : (t.load es).Covered := by
  intro n hn
  obtain ⟨hes, ht⟩ := or_eq_none_iff.mp hn
  simp [load, symbol?, hes, h n ht]

theorem covered_add (h : t.Covered) (name : String) (v : Value F)
    (mode : ReplaceMode) : (t.add name v mode).1.Covered := by
  unfold add
  split_ifs
  · exact covered_load h _
  · exact h

/-- The keywords, with the values that the first `SymbolTable()` gives them. -/
def keywordEntries : List (String × Value F) :=
  (["NOW", "CLOCK", "SECONDS", "MINUTE", "HOUR", "DAY", "MONTH", "YR", "YEAR"].map
      fun n => (n, .integer 0)) ++
    ["TIMESEQ", "LOCALTIME", "UTCTIME", "TIMEZONE", "TIMESTAMP", "UTCTIMESTAMP", "ISOTIMESTAMP",
      "RANDOM"].map fun n => (n, .symbol "" none)

theorem covered_foldl (es : List (String × Value F)) (h : t.Covered) :
    (es.foldl (fun t e => (t.add e.1 e.2 .replace).1) t).Covered :=
  List.foldlRecOn es _ h fun _ h e _ => covered_add h e.1 e.2 .replace

def keywordTable : SymbolTable F :=
  keywordEntries.foldl (fun t e => (t.add e.1 e.2 .replace).1) empty

theorem covered_keywordTable : (keywordTable : SymbolTable F).Covered := by
  have hemp : (empty : SymbolTable F).Covered := fun _ _ => rfl
  exact covered_foldl keywordEntries hemp

def Keywords.initial : Keywords F := ⟨keywordTable, covered_keywordTable⟩

def existsName (name : String) : Bool := (t.st name).isSome

def existsToken (tok : TokenId) : Bool := (tok.bind t.stok).isSome

def token : Value F → TokenId
  | .symbol _ tok => tok
  | _ => none

def Keywords.isKeyword (keywords : Keywords F) (name : Value F) : Bool :=
  match name with
  | .symbol s _ | .string s => keywords.existsToken (token name) || keywords.existsName s
  | _ => false

section Lookup

variable [Double F] (keywords : Keywords F) (t : SymbolTable F)

def lookupName (name : String) : Value F :=
  let res := (keywords.st name).getD .empty
  if res.ne .empty then res else (t.st name).getD .empty

def lookupValue (name : Value F) : Value F :=
  let res := ((token name).bind keywords.stok).getD .empty
  if res.ne .empty then res else ((token name).bind t.stok).getD .empty

/-- The table answers for a value with the token of `n` as it does for `n`. -/
def AnswersAt (n : String) : Prop :=
  t.existsToken (some n) = t.existsName n ∧
    ∀ s, t.lookupValue keywords (.symbol s (some n)) = t.lookupName keywords n

theorem lookupName_of_not_keyword {n : String} (hn : keywords.st n = none) (t : SymbolTable F) :
    t.lookupName keywords n = (t.st n).getD .empty := by
  have hnul : Value.ne (.empty : Value F) .empty = false := rfl
  simp [lookupName, hn, hnul]

theorem eq_of_isSome_eq_of_getD_eq {α : Type} {a b : Option α} {d : α}
    (hsom : a.isSome = b.isSome) (hget : a.getD d = b.getD d) : a = b := by
  cases a <;> cases b <;> simp_all

theorem answersAt_iff {n : String} (hn : keywords.st n = none) (t : SymbolTable F) :
    t.AnswersAt keywords n ↔ t.stok n = t.st n := by
  have hnul : Value.ne (.empty : Value F) .empty = false := rfl
  have hval (s : String) :
      t.lookupValue keywords (.symbol s (some n)) = (t.stok n).getD .empty := by
    simp [lookupValue, token, keywords.named n hn, hnul]
  unfold AnswersAt
  rw [lookupName_of_not_keyword keywords hn]
  constructor
  · rintro ⟨hexi, hloo⟩
    exact eq_of_isSome_eq_of_getD_eq hexi ((hval "").symm.trans (hloo ""))
  · intro h
    refine ⟨?_, fun s => ?_⟩
    · simp [existsToken, existsName, h]
    · rw [hval, h]

def Answers : Prop := ∀ n, keywords.st n = none → t.AnswersAt keywords n

theorem answers_iff : t.Answers keywords ↔ ∀ n, keywords.st n = none → t.stok n = t.st n :=
  forall₂_congr fun _ hn => answersAt_iff keywords hn t

end Lookup

section Answers

variable {t orig : SymbolTable F} {n : String} {es : String → Option (Value F)} {v : Value F}

theorem stok_ne_of_kind_ne (hv : v.kind ≠ .symbol) : t.stok n ≠ some v :=
  fun h => hv (t.stok_symbol n v h)

theorem load_stok_eq_iff : (t.load es).stok n = (t.load es).st n ↔
      (∀ v, es n = some v → v.kind = .symbol) ∧ (es n = none → t.stok n = t.st n) := by
  cases h : es n with
  | none => simp [load, h, symbol?]
  | some v =>
    by_cases hv : v.kind = .symbol
    · simp [load, h, symbol?, hv]
    · simp [load, h, symbol?, hv, stok_ne_of_kind_ne hv]

theorem kind_of_stok_eq (h : t.stok n = t.st n) (hv : t.st n = some v) :
    v.kind = .symbol := t.stok_symbol n v (h.trans hv)

theorem added_eq_some {mode : ReplaceMode} (h : t.added orig mode n = some v) :
    orig.st n = some v := by
  unfold added at h
  split_ifs at h
  exact h

theorem addAll_stok_eq {mode : ReplaceMode} (ht : t.stok n = t.st n)
    (hori : orig.stok n = orig.st n) : (t.addAll orig mode).stok n = (t.addAll orig mode).st n :=
  load_stok_eq_iff.mpr ⟨fun _ hv => kind_of_stok_eq hori (added_eq_some hv), fun _ => ht⟩

theorem copy_stok_eq (hori : orig.stok n = orig.st n) : (copy orig).stok n = (copy orig).st n :=
  load_stok_eq_iff.mpr ⟨fun _ hv => kind_of_stok_eq hori hv, fun _ => rfl⟩

theorem assign_stok_eq_iff (ht : t.stok n = t.st n)
    (hori : ∀ v, orig.st n = some v → v.kind = .symbol) :
    (t.assign orig).stok n = (t.assign orig).st n ↔ (orig.st n = none → t.st n = none) := by
  have hera : t.erase.stok n = t.erase.st n ↔ t.st n = none := by rw [← ht]; exact Iff.rfl
  unfold assign
  rw [load_stok_eq_iff, and_iff_right hori, hera]

theorem add_stok_eq_iff (ht : t.stok n = t.st n) (name : String) (v : Value F)
    (mode : ReplaceMode) : (t.add name v mode).1.stok n = (t.add name v mode).1.st n ↔
      (n = name → v.kind = .symbol ∨ mode = .noReplace ∧ t.st name ≠ none) := by
  unfold add
  split_ifs with h
  · have hnot : ¬(mode = .noReplace ∧ t.st name ≠ none) := by
      rintro ⟨rfl, hnam⟩
      simp_all
    rw [load_stok_eq_iff]
    simp [entry, hnot, ht]
  · cases mode <;> simp_all

theorem pushBack_stok_eq_iff (ht : t.stok n = t.st n) (name : String) (v : Value F) :
    (t.pushBack name v).stok n = (t.pushBack name v).st n ↔ (n = name → t.st name = some v) := by
  by_cases hn : n = name
  · subst hn
    simp [pushBack, entry, ht]
  · simp [pushBack, entry, ht, hn]

end Answers

section Runs

variable {X : Type} [DecidableEq X]

abbrev Memory (F X : Type) := X → Option (SymbolTable F)

inductive Operation (F X : Type) where
  | create (x : X)
  | copy (x y : X)
  | add (x : X) (name : String) (val : Value F) (mode : ReplaceMode)
  | addAll (x y : X) (mode : ReplaceMode)
  | pushBack (x : X) (name : String) (v : Value F)
  | assign (x y : X)
  | clear (x : X)

def Memory.next (w : Memory F X) : Operation F X → Option (Memory F X)
  | .create x => some (Function.update w x (some empty))
  | .copy x y => (w y).map fun orig => Function.update w x (some (copy orig))
  | .add x name val mode =>
    (w x).map fun t => Function.update w x (some (t.add name val mode).1)
  | .addAll x y mode =>
    (w x).bind fun t => (w y).map fun orig => Function.update w x (some (t.addAll orig mode))
  | .pushBack x name v => (w x).map fun t => Function.update w x (some (t.pushBack name v))
  | .assign x y =>
    (w x).bind fun t => (w y).map fun orig =>
      Function.update w x (some (t.assign (if x = y then t.erase else orig)))
  | .clear x => (w x).map fun t => Function.update w x (some t.clear)

def Step (w : Memory F X) (o : Operation F X) (w' : Memory F X) : Prop := w.next o = some w'

variable [Double F] (keywords : Keywords F)

/-- Every table answers for tokens as for names. -/
def Agree (w : Memory F X) : Prop := ∀ x t, w x = some t → t.Answers keywords

def Keeps (w : Memory F X) : Operation F X → Prop
  | .create _ | .copy _ _ | .addAll _ _ _ | .clear _ => True
  | .add x name val mode =>
    keywords.st name = none → val.kind = .symbol ∨
      mode = .noReplace ∧ ∃ t, w x = some t ∧ t.st name ≠ none
  | .pushBack x name v => keywords.st name = none → ∃ t, w x = some t ∧ t.st name = some v
  | .assign x y =>
    ∀ t, w x = some t → ∀ orig, w y = some orig → ∀ n, keywords.st n = none →
      x = y ∨ orig.st n = none → t.st n = none

variable {keywords}

theorem agree_update_iff {w : Memory F X} (h : Agree keywords w) (x : X) (t : SymbolTable F) :
    Agree keywords (Function.update w x (some t)) ↔
      ∀ n, keywords.st n = none → t.stok n = t.st n := by
  rw [← answers_iff]
  constructor
  · intro h'
    exact h' x t (Function.update_self ..)
  · intro ht y u hu
    by_cases hxy : y = x
    · subst hxy
      rw [Function.update_self, some.injEq] at hu
      exact hu ▸ ht
    · rw [Function.update_of_ne hxy] at hu
      exact h y u hu

omit [DecidableEq X] in
theorem Agree.stok_eq {w : Memory F X} (h : Agree keywords w) {x : X} {t : SymbolTable F}
    (hx : w x = some t) {n : String} (hn : keywords.st n = none) : t.stok n = t.st n :=
  (answers_iff keywords t).mp (h x t hx) n hn

theorem agree_step_iff {w w' : Memory F X} {o : Operation F X} (h : Agree keywords w)
    (hste : Step w o w') : Agree keywords w' ↔ Keeps keywords w o := by
  cases o with
  | create x =>
    cases hste
    rw [agree_update_iff h]
    exact iff_of_true (fun n _ => rfl) trivial
  | copy x y =>
    obtain ⟨orig, hy, rfl⟩ := map_eq_some_iff.mp hste
    rw [agree_update_iff h]
    exact iff_of_true (fun n hn => copy_stok_eq (h.stok_eq hy hn)) trivial
  | add x name val mode =>
    obtain ⟨t, hx, rfl⟩ := map_eq_some_iff.mp hste
    rw [agree_update_iff h,
      forall₂_congr fun n hn => add_stok_eq_iff (h.stok_eq hx hn) name val mode]
    simp only [Keeps, hx, some.injEq, exists_eq_left']
    exact ⟨fun h hn => h name hn rfl, fun h n hn heq => h (heq ▸ hn)⟩
  | addAll x y mode =>
    obtain ⟨t, hx, hste⟩ := bind_eq_some_iff.mp hste
    obtain ⟨orig, hy, rfl⟩ := map_eq_some_iff.mp hste
    rw [agree_update_iff h]
    exact iff_of_true (fun n hn => addAll_stok_eq (h.stok_eq hx hn) (h.stok_eq hy hn)) trivial
  | pushBack x name v =>
    obtain ⟨t, hx, rfl⟩ := map_eq_some_iff.mp hste
    rw [agree_update_iff h, forall₂_congr fun n hn => pushBack_stok_eq_iff (h.stok_eq hx hn) name v]
    simp only [Keeps, hx, some.injEq, exists_eq_left']
    exact ⟨fun h hn => h name hn rfl, fun h n hn heq => h (heq ▸ hn)⟩
  | assign x y =>
    obtain ⟨t, hx, hste⟩ := bind_eq_some_iff.mp hste
    obtain ⟨orig, hy, rfl⟩ := map_eq_some_iff.mp hste
    rw [agree_update_iff h]
    simp only [Keeps, hx, hy, some.injEq, forall_eq']
    refine forall₂_congr fun n hn => ?_
    have ht := h.stok_eq hx hn
    by_cases hxy : x = y
    · rw [if_pos hxy, assign_stok_eq_iff ht (by simp [erase])]
      simp [erase, hxy]
    · rw [if_neg hxy, assign_stok_eq_iff ht fun _ hv => kind_of_stok_eq (h.stok_eq hy hn) hv]
      simp [hxy]
  | clear x =>
    obtain ⟨t, hx, rfl⟩ := map_eq_some_iff.mp hste
    rw [agree_update_iff h]
    exact iff_of_true (fun n _ => rfl) trivial

def start : Memory F X := fun _ => none

/-- The tables answer for tokens as for names after every call of a run exactly if each of its
calls keeps that. -/
theorem agree_run_iff (keywords : Keywords F) (os : List (Operation F X)) (w : Memory F X) :
    Runs.Run (Runs.Guarded Step fun _ _ w' => Agree keywords w') start os w ↔
      Runs.Run (Runs.Guarded Step fun w o _ => Keeps keywords w o) start os w := by
  apply Runs.run_guarded_congr (I := Agree keywords)
  · intro w o w' h hste
    exact agree_step_iff h hste
  · intro w o w' _ _ h
    exact h
  · intro x t h
    exact absurd h (by simp [start])

end Runs

def oneNumber : List (Operation ℚ Unit) :=
  [.create (), .add () "x" (.integer 5) .replace]

/-- The integer is found by its name and not by the token of its name. -/
theorem oneNumber_not_agree : ∃ w, Runs.Run Step start oneNumber w ∧ ¬Agree Keywords.initial w := by
  refine ⟨_, Runs.run_of_execute rfl, fun h => ?_⟩
  have hnam := (h () _ rfl "x" rfl).1
  simp [existsToken, existsName, add, load, entry, empty, symbol?, Value.kind] at hnam

end SymbolTable

end Clockwork
