import Clockwork.PropertyScopes

namespace Clockwork.RegularExpressions

open Option Authority

abbrev Text := List Char

/-- What `regexec` leaves in `matches`, counted from the start of its text. A group that took
no part in the match is `none`. -/
structure Match where
  start : ℕ
  stop : ℕ
  groups : List (Option (ℕ × ℕ))
deriving DecidableEq

/-- A compiled pattern. `regexec` is an oracle; its first argument is `REG_NOTBOL`. -/
structure Pattern where
  re_nsub : ℕ
  regexec : Bool → Text → Option Match
  length_groups : ∀ {b t m}, regexec b t = some m → m.groups.length = re_nsub
  stop_le : ∀ {b t m}, regexec b t = some m → m.stop ≤ t.length

def slice (t : Text) (start stop : ℕ) : Text := (t.drop start).take (stop - start)

def whole (t : Text) (m : Match) : Text := slice t m.start m.stop

def groupText (t : Text) (g : Option (ℕ × ℕ)) : Option Text := g.map fun g => slice t g.1 g.2

def findMatches (p : Pattern) (t : Text) : List Text :=
  match p.regexec false t with
  | none => []
  | some m => whole t m :: m.groups.filterMap (groupText t)

def removed (t : Text) (m : Match) (subst : Text) : Text :=
  t.take m.start ++ subst ++ t.drop m.stop

/-- The variables are filled only for a pattern with groups. -/
def substitutePattern (p : Pattern) (t subst : Text) : List Text × Text :=
  (if 0 < p.re_nsub then findMatches p t else [],
    ((p.regexec false t).map fun m => removed t m subst).getD t)

variable {S F : Type} [Double F]

def stringValue (t : Text) : Value F := .string (String.ofList t)

/-- How an action reads and sets the properties of its owner. -/
structure Access (S F : Type) where
  getValue : S → String → Value F
  setValue : S → String → Value F → S

/-- The names are those of different properties: the one that is set has the text then, and the
others keep their values. -/
def Access.Holds (owner : Access S F) (names : List String) : Prop :=
  ∀ name ∈ names, ∀ other ∈ names, ∀ s t,
    owner.getValue (owner.setValue s name (stringValue t)) other =
      if other = name then stringValue t else owner.getValue s other

variable (owner : Access S F) (pattern : Option Pattern) (s : S) (property dest : String)

def sourceText : Text := cStr (owner.getValue s property).asString

/-- `ExtractPatternAction::run`. A pattern that does not compile has no `matches` array, which
is read all the same. -/
def extract : Option S :=
  pattern.map fun p =>
    let result := substitutePattern p (sourceText owner s property) []
    let stored := match result.1 with
      | [] => s
      | [w] => owner.setValue s dest (stringValue w)
      | _ :: v :: _ => owner.setValue s dest (stringValue v)
    owner.setValue stored property (stringValue result.2)

/-- Group 1 if it took part, else the whole match. -/
def wanted (t : Text) (m : Match) : Text :=
  (m.groups.head?.bind (groupText t)).getD (whole t m)

/-- What a successful match has to leave in the two properties. -/
def Extracts (t : Text) (s' : S) : Option Match → Prop
  | none => owner.getValue s' property = owner.getValue s property ∧
      owner.getValue s' dest = owner.getValue s dest
  | some m => owner.getValue s' property = stringValue (removed t m []) ∧
      owner.getValue s' dest = stringValue (wanted t m)

def firstGroup (t : Text) (m : Match) : Text :=
  (m.groups.filterMap (groupText t)).headD (whole t m)

def Extractable (p : Pattern) (t : Text) : Option Match → Prop
  | none => owner.getValue s property = stringValue t
  | some m =>
      if property = dest then removed t m [] = wanted t m
      else if p.re_nsub = 0 then owner.getValue s dest = stringValue (wanted t m)
      else firstGroup t m = wanted t m

omit [Double F] in
theorem stringValue_inj {a b : Text} : (stringValue a : Value F) = stringValue b ↔ a = b := by
  simp [stringValue, String.ofList_inj]

theorem extract_of_match {p : Pattern} {m : Match}
    (h : p.regexec false (sourceText owner s property) = some m) :
    extract owner (some p) s property dest = some (owner.setValue (if p.re_nsub = 0 then s
        else owner.setValue s dest (stringValue (firstGroup (sourceText owner s property) m)))
      property (stringValue (removed (sourceText owner s property) m []))) := by
  rcases Nat.eq_zero_or_pos p.re_nsub with h0 | h0
  · simp [extract, substitutePattern, h, h0]
  · cases hg : m.groups.filterMap (groupText (sourceText owner s property)) <;>
      simp [extract, substitutePattern, findMatches, firstGroup, h, h0, h0.ne', hg]

variable {owner property dest}

/-- `EXTRACT` does what it should exactly when the pattern compiles and, after a match, the
first group that took part is the wanted one, or, without one, the property is a string. -/
theorem extract_iff (hnames : owner.Holds [property, dest]) :
    (∃ s', extract owner pattern s property dest = some s' ∧
      Extracts owner s property dest (sourceText owner s property) s'
        (pattern.bind fun p => p.regexec false (sourceText owner s property))) ↔
    ∃ p, pattern = some p ∧ Extractable owner s property dest p (sourceText owner s property)
      (p.regexec false (sourceText owner s property)) := by
  have hset : ∀ s t, owner.getValue (owner.setValue s property (stringValue t)) property =
      stringValue t := fun s t => by simp [hnames property (by simp) property (by simp)]
  have hkeep : ∀ s t, owner.getValue (owner.setValue s property (stringValue t)) dest =
      if dest = property then stringValue t else owner.getValue s dest :=
    hnames property (by simp) dest (by simp)
  have hdest : ∀ s t, owner.getValue (owner.setValue s dest (stringValue t)) dest =
      stringValue t := fun s t => by simp [hnames dest (by simp) dest (by simp)]
  cases pattern with
  | none => simp [extract]
  | some p =>
    simp only [bind_some, some.injEq, exists_eq_left']
    cases h : p.regexec false (sourceText owner s property) with
    | none =>
      have hrun : extract owner (some p) s property dest = some (owner.setValue s property
          (stringValue (sourceText owner s property))) := by
        simp [extract, substitutePattern, findMatches, h]
      simp only [hrun, some.injEq, exists_eq_left', Extracts, Extractable, hset, hkeep]
      refine ⟨fun h => h.1.symm, fun h => ⟨h.symm, ?_⟩⟩
      split_ifs with hd
      · rw [hd, h]
      · rfl
    | some m =>
      simp only [extract_of_match _ _ _ _ h, some.injEq, exists_eq_left', Extracts,
        Extractable, hset, hkeep, true_and]
      by_cases hd : property = dest
      · simp [hd, stringValue_inj]
      · by_cases h0 : p.re_nsub = 0 <;>
          simp [hd, Ne.symm hd, h0, hdest, stringValue_inj]

section Machines

open Authority (Instance)
open Resolve (getOwn_eq getValue_of_no_dot)
open PropertyMessage (Own route_of_own filtered_eq_none assign_properties assign_properties_of_ne)
open Scopes

variable {M : Type} [DecidableEq M] (prog : Program F M) (x : M)

/-- The properties of a machine of a program. -/
def machineAccess (fuel depth : ℕ) : Access (M → Instance F) F where
  getValue w n := (Resolve.getValue (prog.inWorld w) fuel x n).getD .empty
  setValue w n v := (Authority.setValue prog.env (depth + 1) w x n v 0).2

/-- The name of a property that the machine has itself, whatever the state of the program. -/
structure OwnName (n : String) : Prop where
  own : Own prog.env x n
  ne_timer : n ≠ "TIMER"
  no_keyword : prog.keywords.st n = none
  no_parameter : (prog.machine x).parameter n = none
  no_machine : (prog.machine x).lookup n = none
  no_output : n = "VALUE" → prog.hasIoInterface x = false

variable {prog x} {fuel depth : ℕ} {n : String}

theorem getValue_own (h : OwnName prog x n) (w : M → Instance F) :
    (machineAccess prog x fuel depth).getValue w n = if ((w x).properties n).isNull then
      (Resolve.inherited? prog.toProgram x n).getD .empty else (w x).properties n := by
  have hglo : ((prog.inWorld w).machine x).globalReferences n = none := h.own.no_global
  have hnul : ((w x).properties n).eq .empty = ((w x).properties n).isNull :=
    Bool.eq_iff_iff.mpr ((Value.eq_empty_iff _).trans (isNull_iff _).symm)
  simp only [machineAccess, getValue_of_no_dot _ h.own.no_dot, Resolve.getPlain,
    parameter_inWorld, h.no_parameter, hglo]
  rw [getOwn_eq (prog.inWorld w) _ h.no_keyword h.no_machine, if_neg h.ne_timer,
    property_inWorld prog w x h.no_keyword, hnul]
  rfl

theorem assign_string (h : OwnName prog x n) (hfil : prog.filter x = none) (w : M → Instance F)
    (t : Text) : ((Authority.assign prog.env w x n (stringValue t)) x).properties n =
      stringValue t := by
  have hnon : filtered prog.env x (stringValue t) = none := filtered_eq_none hfil _
  have hout : ¬(n = "VALUE" ∧ (prog.env.config x).hasIoInterface = true) := by
    rintro ⟨hval, hio⟩
    exact Bool.false_ne_true ((h.no_output hval).symm.trans hio)
  rw [assign_properties, PropertyMessage.stored, hnon]
  split_ifs with hcha
  · rfl
  · obtain ⟨⟨hide, hkin⟩, -⟩ : (identical ((w x).properties n) (stringValue t) = true ∧
        ((w x).properties n).kind = .string) ∧ _ := by
      simpa [wasChanged, stringValue, Value.kind] using hcha
    cases hpre : (w x).properties n with
    | string r =>
      rw [hpre] at hide
      exact congrArg Value.string (eq_of_beq hide)
    | _ => simp [hpre, Value.kind] at hkin

/-- Names of a machine's own properties are held by it. -/
theorem holds_own (haut : prog.expectedAuthority x = 0) (hfil : prog.filter x = none)
    {names : List String} (h : ∀ n ∈ names, OwnName prog x n) :
    (machineAccess prog x fuel depth).Holds names := by
  intro name hname other hother w t
  have hset : (machineAccess prog x fuel depth).setValue w name (stringValue t) =
      assign prog.env w x name (stringValue t) := by
    simp only [machineAccess, setValue, route_of_own (h name hname).own (.inl haut)]
  rw [hset, getValue_own (h other hother), getValue_own (h other hother)]
  by_cases heq : other = name
  · subst heq
    rw [assign_string (h other hname) hfil, if_pos rfl]
    rfl
  · rw [assign_properties_of_ne heq, if_neg heq]

end Machines

/-- A machine with one property `line`. -/
def reader : Scopes.Program ℚ Unit :=
  { Resolve.plainProgram .empty .empty with
    name := fun _ => "reader"
    expectedAuthority := fun _ => 0
    isShadow := fun _ => false
    channelConnected := fun _ => false
    filter := fun _ => none
    hasIoInterface := fun _ => false
    value_not_keyword := by rfl }

def lineAb : Unit → Authority.Instance ℚ :=
  fun _ => ⟨"", fun n => if n = "line" then .string "ab" else .empty⟩

theorem ownName_reader {n : String} (hn : n = "line" ∨ n = "found") : OwnName reader () n := by
  rcases hn with rfl | rfl <;>
    exact ⟨⟨by decide, by decide, by decide, rfl, .inr (.inr rfl)⟩, by decide, rfl, rfl, rfl,
      fun _ => rfl⟩

theorem holds_reader : (machineAccess reader () 0 0).Holds ["line", "found"] :=
  holds_own rfl rfl fun n hn => ownName_reader (by simpa using hn)

theorem sourceText_line : sourceText (machineAccess reader () 0 0) lineAb "line" = ['a', 'b'] := by
  rw [sourceText, getValue_own (ownName_reader (.inl rfl))]
  decide

/-- `a` at the start of the text, as a group or not -/
def startsWithA (group : Bool) : Pattern where
  re_nsub := group.toNat
  regexec b t := if b = false ∧ t.head? = some 'a' then
    some ⟨0, 1, List.replicate group.toNat (some (0, 1))⟩ else none
  length_groups := by aesop
  stop_le {_ t _} h := by cases t <;> aesop

theorem extract_group :
    (machineAccess reader () 0 0).Holds ["line", "found"] ∧
    ∃ s', extract (machineAccess reader () 0 0) (some (startsWithA true)) lineAb "line" "found" =
        some s' ∧
      Extracts (machineAccess reader () 0 0) lineAb "line" "found" ['a', 'b'] s'
        (some ⟨0, 1, [some (0, 1)]⟩) := by
  have h := (extract_iff (some (startsWithA true)) lineAb holds_reader).mpr
  simp only [sourceText_line] at h
  exact ⟨holds_reader, h ⟨_, rfl, rfl⟩⟩

/-- Extracting `^a` from `ab` does not store the `a`. -/
theorem extract_without_groups :
    ¬∃ s', extract (machineAccess reader () 0 0) (some (startsWithA false)) lineAb "line" "found" =
        some s' ∧
      Extracts (machineAccess reader () 0 0) lineAb "line" "found" ['a', 'b'] s'
        (some ⟨0, 1, []⟩) := by
  rintro ⟨s', hrun, -, hdes⟩
  rw [extract_of_match _ _ _ _ (m := ⟨0, 1, []⟩) (by rw [sourceText_line]; rfl)] at hrun
  cases hrun
  rw [holds_reader "line" (by simp) "found" (by simp), if_neg (by decide),
    getValue_own (ownName_reader (.inr rfl))] at hdes
  cases hdes

/-- A match the callback is told about, with the texts of its calls; a group that took no
part is an empty text. -/
structure Found where
  start : ℕ
  stop : ℕ
  texts : List Text
deriving DecidableEq

def report (t : Text) (m : Match) : Option Found :=
  if m.start < m.stop then
    some ⟨m.start, m.stop, whole t m :: m.groups.map fun g => (groupText t g).getD []⟩
  else none

/-- A scan goes on behind each match until there is none; each match takes one unit of fuel. -/
def scan (next : Bool → Text → Option Found) : ℕ → Bool → Text → List Found
  | 0, _, _ => []
  | n + 1, b, t => match next b t with
    | none => []
    | some m => m :: scan next n true (t.drop m.stop)

/-- The texts a scan asks about, and whether they begin inside the whole text. -/
def restarts (next : Bool → Text → Option Found) : ℕ → Bool → Text → List (Bool × Text)
  | 0, _, _ => []
  | n + 1, b, t => (b, t) :: match next b t with
    | none => []
    | some m => restarts next n true (t.drop m.stop)

theorem scan_eq_iff (f g : Bool → Text → Option Found) (n : ℕ) (b : Bool) (t : Text) :
    scan f n b t = scan g n b t ↔ ∀ r ∈ restarts g n b t, f r.1 r.2 = g r.1 r.2 := by
  induction n generalizing b t with
  | zero => simp [scan, restarts]
  | succ n ih =>
    cases hf : f b t <;> cases hg : g b t <;>
      simp only [scan, restarts, hf, hg, List.forall_mem_cons, List.cons.injEq, reduceCtorEq,
        some.injEq, false_and, List.not_mem_nil, false_implies, implies_true, and_true]
    exact and_congr_right fun h => h ▸ ih _ _

/-- A scan ends: more fuel than the text has characters changes nothing. -/
theorem scan_of_length_lt {next : Bool → Text → Option Found}
    (hnex : ∀ b t m, next b t = some m → 0 < m.stop ∧ m.stop ≤ t.length) {n : ℕ} {b : Bool}
    {t : Text} (hn : t.length < n) : scan next n b t = scan next (t.length + 1) b t := by
  induction n using Nat.strong_induction_on generalizing b t with
  | _ n ih =>
    obtain ⟨n, rfl⟩ : ∃ k, n = k + 1 := ⟨n - 1, by omega⟩
    simp only [scan]
    cases h : next b t with
    | none => rfl
    | some m =>
      obtain ⟨hpos, hle⟩ := hnex b t m h
      have hlen : (t.drop m.stop).length < t.length := by simp; omega
      simp only [ih n (by omega) (b := true) (hlen.trans_le (by omega))]
      rw [← ih t.length (by omega) hlen]

variable (p : Pattern)

def attempt (_ : Bool) (t : Text) : Option Found := (p.regexec false t).bind (report t)

/-- `each_match`: the suffix is matched as if it were a text of its own, and the first empty
match ends the scan. -/
def eachMatch (t : Text) : List Found := scan (attempt p) (t.length + 1) false t

/-- The next match that is not empty, past the empty ones. -/
def nextMatch : ℕ → Bool → Text → Option Found
  | 0, _, _ => none
  | n + 1, b, t => (p.regexec b t).bind fun m => (report t m).or
      ((nextMatch n true (t.drop (m.start + 1))).map fun f =>
        ⟨m.start + 1 + f.start, m.start + 1 + f.stop, f.texts⟩)

def behind (t : Text) (m : Match) : Option Found :=
  (nextMatch p t.length true (t.drop (m.start + 1))).map fun f =>
    ⟨m.start + 1 + f.start, m.start + 1 + f.stop, f.texts⟩

def nextIn (b : Bool) (t : Text) : Option Found := nextMatch p (t.length + 1) b t

def successive (t : Text) : List Found := scan (nextIn p) (t.length + 1) false t

variable (owner) (property dest)

def copied (found : List Found) : S :=
  if found = [] then s
  else owner.setValue s dest (stringValue (found.flatMap fun f => f.texts.headD []))

def copyAll : Option S :=
  pattern.map fun p => copied owner s dest (eachMatch p (sourceText owner s property))

variable {p} {b : Bool} {t : Text} {f : Found}

section

variable (h : attempt p b t = some f)

include h

theorem attempt_eq_some :
    ∃ m, p.regexec false t = some m ∧ m.start < m.stop ∧
      f = ⟨m.start, m.stop, whole t m :: m.groups.map fun g => (groupText t g).getD []⟩ := by
  obtain ⟨m, hm, h⟩ := bind_eq_some_iff.mp h
  unfold report at h
  split at h
  · next hlt => exact ⟨m, hm, hlt, (some.inj h).symm⟩
  · exact absurd h (by simp)

theorem attempt_bounds : 0 < f.stop ∧ f.stop ≤ t.length := by
  obtain ⟨m, hm, hlt, rfl⟩ := attempt_eq_some h
  exact ⟨Nat.zero_lt_of_lt hlt, p.stop_le hm⟩

theorem length_texts : f.texts.length = p.re_nsub + 1 := by
  obtain ⟨m, hm, -, rfl⟩ := attempt_eq_some h
  simp [p.length_groups hm]

theorem headD_texts : f.texts.headD [] = slice t f.start f.stop := by
  obtain ⟨m, -, -, rfl⟩ := attempt_eq_some h
  rfl

theorem nextIn_of_attempt : nextIn p false t = some f := by
  obtain ⟨m, hm, h⟩ := bind_eq_some_iff.mp h
  simp [nextIn, nextMatch, hm, h]

end

theorem attempt_of_nextIn (h : nextIn p false t = some f) (hsta : f.start = 0) (b : Bool) :
    attempt p b t = some f := by
  obtain ⟨m, hm, h⟩ := bind_eq_some_iff.mp h
  rw [attempt, hm]
  cases hr : report t m with
  | some f => simpa [hr] using h
  | none =>
    -- behind an empty match nothing starts at 0
    rw [hr, none_or, map_eq_some_iff] at h
    obtain ⟨f, -, rfl⟩ := h
    simp at hsta

/-- A place where `regexec` reports the same match without `REG_NOTBOL`, and has no other match
behind an empty one. -/
structure Plain (p : Pattern) (b : Bool) (t : Text) : Prop where
  notbol : (p.regexec false t).bind (report t) = (p.regexec b t).bind (report t)
  empty : ∀ m, p.regexec b t = some m → report t m = none → behind p t m = none

/-- With `REG_NOTBOL` an empty match is found first, and without it the match behind that. -/
def Skips (p : Pattern) (t : Text) : Prop :=
  ∃ m f, p.regexec true t = some m ∧ report t m = none ∧ behind p t m = some f ∧
    (p.regexec false t).bind (report t) = some f

theorem attempt_eq_nextIn_iff :
    attempt p b t = nextIn p b t ↔ Plain p b t ∨ b = true ∧ Skips p t := by
  have hnex : nextIn p b t = (p.regexec b t).bind fun m => (report t m).or (behind p t m) := rfl
  rw [hnex, attempt]
  constructor
  · intro h
    cases hreg : p.regexec b t with
    | none => exact .inl ⟨by rw [h, hreg]; rfl, by simp [hreg]⟩
    | some m =>
      rw [hreg, bind_some] at h
      by_cases hbeh : report t m = none → behind p t m = none
      · refine .inl ⟨?_, fun m' hm' => ?_⟩
        · rw [h, hreg, bind_some]
          cases hrep : report t m with
          | some f => rfl
          | none => exact hbeh hrep
        · obtain rfl := some.inj (hreg.symm.trans hm')
          exact hbeh
      · obtain ⟨hrep, hsom⟩ := Classical.not_imp.mp hbeh
        obtain ⟨f, hf⟩ := ne_none_iff_exists'.mp hsom
        rw [hrep, hf] at h
        cases b with
        | false => rw [hreg, bind_some, hrep] at h; cases h
        | true => exact .inr ⟨rfl, m, f, hreg, hrep, hf, h⟩
  · rintro (h | ⟨rfl, m, f, hreg, hrep, hbeh, h⟩)
    · rw [h.notbol]
      cases hreg : p.regexec b t with
      | none => rfl
      | some m =>
        rw [bind_some, bind_some]
        cases hrep : report t m with
        | some f => rfl
        | none => rw [h.empty m hreg hrep]; rfl
    · rw [h, hreg, bind_some, hrep, hbeh]
      rfl

/-- The matches of the whole text are found, however many rounds the loop may take, exactly
when at the start of the text and behind each of the matches `regexec` finds the same with and
without `REG_NOTBOL` and no empty match comes before another one. -/
theorem each_match_iff :
    (∃ p, pattern = some p ∧
      (∀ n, (sourceText owner s property).length < n →
        scan (attempt p) n false (sourceText owner s property) =
          successive p (sourceText owner s property)) ∧
      copyAll owner pattern s property dest =
        some (copied owner s dest (successive p (sourceText owner s property)))) ↔
    ∃ p, pattern = some p ∧
      ∀ r ∈ restarts (nextIn p) ((sourceText owner s property).length + 1) false
        (sourceText owner s property), Plain p r.1 r.2 ∨ r.1 = true ∧ Skips p r.2 := by
  refine exists_congr fun p => and_congr_right fun hp => ?_
  simp only [← attempt_eq_nextIn_iff]
  rw [← scan_eq_iff]
  refine ⟨fun h => h.1 _ (Nat.lt_succ_self _), fun h => ⟨fun n hn => ?_, ?_⟩⟩
  · rw [scan_of_length_lt (fun _ _ _ => attempt_bounds) hn, h, successive]
  · rw [copyAll, hp, map_some, eachMatch, h, successive]

/-- In `aa` the pattern `^a` is found twice. -/
theorem anchor_found_again :
    eachMatch (startsWithA false) ['a', 'a'] ≠ successive (startsWithA false) ['a', 'a'] := by
  decide

end Clockwork.RegularExpressions
