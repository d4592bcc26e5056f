import Clockwork.MachineCommand
import Clockwork.PropertyScopes
import Mathlib.Tactic.Linarith
import Mathlib.Tactic.Ring

namespace Clockwork.ExpressionAction

open Authority (Instance setValue)
open MachineCommand (Status)
open Scopes Authority PropertyMessage Value

variable {F M : Type}

inductive Operator where
  | opInc | opDec
deriving DecidableEq, Repr

/-- `ExpressionAction`, which adds the right hand side for both operators -/
structure Expression (F : Type) where
  lhs : String
  rhs : Value F

namespace Operator

def template [Double F] (op : Operator) (lhs : String) (v : Value F) : Expression F :=
  ⟨lhs, match op with
    | .opInc => v
    | .opDec => v.neg⟩

def change (op : Operator) (n : Int64) : ℤ :=
  match op with
  | .opInc => n.toInt
  | .opDec => -n.toInt

theorem template_rhs [Double F] (op : Operator) (lhs : String) (n : Int64) :
    (op.template lhs (.integer n : Value F)).rhs = .integer (Int64.ofInt (op.change n)) := by
  cases op with
  | opInc => simp [template, change]
  | opDec => simp [template, change, neg, Int64.ofInt_neg]

end Operator

section Run

variable [DecidableEq M] [Double F] (p : Program F M) (fuel depth : ℕ)

/-- `ExpressionAction::run`. The value that is set in the end is read through the reference from
before the first call of `setValue`. -/
def run (w : M → Instance F) (x : M) (e : Expression F) : Option (Status × (M → Instance F)) :=
  let set (w : M → Instance F) (v : Value F) := (setValue p.env depth w x e.lhs v 0).2
  (locate (p.inWorld w) fuel x e.lhs).map fun v =>
    if (v.read (p.inWorld w)).isNull then (.complete, set w e.rhs)
    else
      match v.read (p.inWorld w), e.rhs with
      | .integer i, .integer j =>
        let w' := set w (.integer (i + j))
        (.complete, set w' (v.read (p.inWorld w')))
      -- "INC and DEC require an integer property"
      | _, _ => (.failed, w)

def Completes (x : M) (e : Expression F) : ℕ → (M → Instance F) → (M → Instance F) → Prop
  | 0, w, w' => w' = w
  | k + 1, w, w' => ∃ w₁, run p fuel depth w x e = some (.complete, w₁) ∧ Completes x e k w₁ w'

def InRange (i : ℤ) : Prop := Int64.minValue.toInt ≤ i ∧ i ≤ Int64.maxValue.toInt

/-- Each execution changes the value by the number, as long as there is no overflow. -/
def Increments (w : M → Instance F) (x : M) (op : Operator) (name : String) (n v : Int64) : Prop :=
  ∀ k : ℕ, InRange (v.toInt + k * op.change n) →
    ∃ w', Completes p fuel depth x (op.template name (.integer n)) k w w' ∧
      Resolve.getValue (p.inWorld w') fuel x name =
        some (.integer (Int64.ofInt (v.toInt + k * op.change n)))

/-- The name is found at the place, has the value, and is written where the request arrives. -/
structure Resolves (w : M → Instance F) (x : M) (name : String) (v : Int64) (place : Place M)
    (arrival : Arrival M) : Prop where
  located : locate (p.inWorld w) fuel x name = some place
  value : place.read (p.inWorld w) = .integer v
  arrives : arrive p.env depth w x name 0 = some arrival

variable {p fuel depth} {w : M → Instance F} {x : M} {name : String} {v d : Int64} {place : Place M}
  {arrival : Arrival M}

omit [DecidableEq M] in
theorem Resolves.getValue (h : Resolves p fuel depth w x name v place arrival) :
    Resolve.getValue (p.inWorld w) fuel x name = some (.integer v) := by
  rw [getValue_eq, h.located, Option.map_some, h.value]

variable {y : M} {q : String}

/-- The plugin of a machine returns integers as they are. -/
def Unchanging (p : Program F M) (y : M) : Prop :=
  ∀ f, p.filter y = some f → ∀ i, f (.integer i) = i

theorem assign_integer (hfil : Unchanging p y) {w : M → Instance F} {q : String} {i : Int64}
    (hpre : (w y).properties q = .empty ∨ ((w y).properties q).kind = .integer) :
    ((assign p.env w y q (.integer i)) y).properties q = .integer i := by
  have hflt : (filtered p.env y (.integer i)).getD (.integer i) = (.integer i : Value F) := by
    show ((p.filter y).map fun f => integer (f (.integer i))).getD _ = _
    cases hf : p.filter y with
    | none => rfl
    | some f => simp [hfil f hf]
  rw [assign_properties]
  split_ifs with hcha
  · unfold stored
    split_ifs
    · rfl
    · exact hflt
  · obtain ⟨hide, hnul⟩ : identical ((w y).properties q) (.integer i : Value F) = true ∧
        (w y).properties q ≠ .empty := by
      rw [ne_eq, ← isNull_iff]
      cases hf : filtered p.env y (.integer i) with
      | none => simp_all [wasChanged, isNull]
      | some u =>
        simp_all [wasChanged, isNull]
    cases hval : (w y).properties q with
    | integer j =>
      rw [hval] at hide
      rw [show j = i from of_decide_eq_true hide]
    | _ => simp [hval, kind] at hpre hnul

theorem wrote_integer (w : M → Instance F) (y : M) (q : String) (i : Int64) :
    Wrote w (assign p.env w y q (.integer i)) y q := by
  apply wrote_assign
  rw [assign_properties]
  split_ifs with hcha
  · unfold stored filtered
    cases (p.env.config y).filter <;> split_ifs <;> simp
  · intro hemp
    rw [hemp] at hcha
    cases hf : filtered p.env y (.integer i) <;> simp [hf, wasChanged, isNull] at hcha

omit [DecidableEq M] in
theorem empty_of_moved {w' : M → Instance F} (hwro : Wrote w w' y q)
    (hloc : locate (p.inWorld w) fuel x name = some place) (hne : place ≠ .property y q)
    (hnew : locate (p.inWorld w') fuel x name = some (.property y q)) :
    (w y).properties q = .empty := by
  by_contra hset
  have hbac : Wrote w' w y q := ⟨fun x n h => (hwro.others x n h).symm, hset⟩
  rcases locate_of_wrote p hbac fuel x name with hsam | hold
  · exact hne (Option.some.inj (hloc.symm.trans (hsam.trans hnew)))
  · exact hne (Option.some.inj (hloc.symm.trans hold))

theorem run_of_resolves (h : Resolves p fuel depth w x name v place arrival) :
    run p fuel depth w x ⟨name, .integer d⟩ =
      let w' := (arrival.deliver p.env w (.integer (v + d))).2
      some (.complete, (setValue p.env depth w' x name (place.read (p.inWorld w')) 0).2) := by
  have hnul : (integer v : Value F).isNull = false := rfl
  rw [← setValue_of_arrive h.arrives]
  simp [run, h.located, h.value, hnul]

theorem run_of_one_place (hfil : Unchanging p y)
    (h : Resolves p fuel depth w x name v (.property y q) (.stored y q)) :
    ∃ w', run p fuel depth w x ⟨name, .integer d⟩ = some (.complete, w') ∧
      Resolves p fuel depth w' x name (v + d) (.property y q) (.stored y q) := by
  have hste {w : M → Instance F} {v i : Int64}
      (h : Resolves p fuel depth w x name v (.property y q) (.stored y q)) :
      Resolves p fuel depth (assign p.env w y q (.integer i)) x name i (.property y q)
        (.stored y q) := by
    have hwro := wrote_integer (p := p) w y q i
    have hpre : (w y).properties q = .integer v := (read_of_locate p h.located).symm.trans h.value
    have hloc : locate (p.inWorld (assign p.env w y q (.integer i))) fuel x name =
        some (.property y q) := by
      rcases locate_of_wrote p hwro fuel x name with hsam | hnew
      · exact hsam.trans h.located
      · exact hnew
    exact ⟨hloc, (read_of_locate p hloc).trans (assign_integer hfil (.inr (by rw [hpre]; rfl))),
      arrive_of_wrote hwro h.arrives⟩
  have hfir := hste (i := v + d) h
  refine ⟨_, run_of_resolves h, ?_⟩
  dsimp only [Arrival.deliver]
  rw [hfir.value, setValue_of_arrive hfir.arrives]
  exact hste hfir

theorem run_of_other_place (hfil : Unchanging p y)
    (h : Resolves p fuel depth w x name v place (.stored y q)) (hne : place ≠ .property y q) :
    ∃ w' place', run p fuel depth w x ⟨name, .integer d⟩ = some (.complete, w') ∧
      Resolves p fuel depth w' x name v place' (.stored y q) := by
  have hfir := wrote_integer (p := p) w y q (v + d)
  have hrea := read_of_wrote p hfir hne
  have harr := arrive_of_wrote hfir h.arrives
  have hsec := wrote_integer (p := p) (assign p.env w y q (.integer (v + d))) y q v
  have hrun := run_of_resolves (d := d) h
  dsimp only [Arrival.deliver] at hrun
  rw [hrea, h.value, setValue_of_arrive harr] at hrun
  have harr' := arrive_of_wrote hsec harr
  -- the old value is found, or the copy of it that was written
  rcases locate_of_wrote p hfir fuel x name with hsam | hnew
  · rcases locate_of_wrote p hsec fuel x name with hsam' | hnew'
    · refine ⟨_, place, hrun, (hsam'.trans hsam).trans h.located, ?_, harr'⟩
      exact (read_of_wrote p hsec hne).trans (hrea.trans h.value)
    · exact absurd (empty_of_moved hsec (hsam.trans h.located) hne hnew') hfir.set
  · have hint := assign_integer (i := v + d) hfil (.inl (empty_of_moved hfir h.located hne hnew))
    have hloc := (locate_of_wrote p hsec fuel x name).elim (·.trans hnew) id
    exact ⟨_, .property y q, hrun, hloc, (read_of_locate p hloc).trans
      (assign_integer hfil (.inr (by rw [hint]; rfl))), harr'⟩

theorem run_of_reply {result : Bool} (h : Resolves p fuel depth w x name v place (.reply result)) :
    run p fuel depth w x ⟨name, .integer d⟩ = some (.complete, w) := by
  rw [run_of_resolves h]
  dsimp only [Arrival.deliver]
  rw [setValue_of_arrive h.arrives]
  rfl

def OnePlace (place : Place M) (arrival : Arrival M) : Prop :=
  ∃ y q, place = .property y q ∧ arrival = .stored y q

theorem run_stays (h : Resolves p fuel depth w x name v place arrival)
    (hfil : ∀ y q, arrival = .stored y q → Unchanging p y) (hpla : ¬OnePlace place arrival) :
    ∃ w' place', run p fuel depth w x ⟨name, .integer d⟩ = some (.complete, w') ∧
      Resolves p fuel depth w' x name v place' arrival := by
  cases arrival with
  | reply result => exact ⟨w, place, run_of_reply h, h⟩
  | stored y q =>
    have hne : place ≠ .property y q := fun hsam => hpla ⟨y, q, hsam, rfl⟩
    exact run_of_other_place (hfil y q rfl) h hne

theorem completes_of_one_place (hfil : Unchanging p y) {a c : ℤ}
    (h : Resolves p fuel depth w x name (Int64.ofInt a) (.property y q) (.stored y q)) (k : ℕ) :
    ∃ w', Completes p fuel depth x ⟨name, .integer (Int64.ofInt c)⟩ k w w' ∧
      Resolves p fuel depth w' x name (Int64.ofInt (a + k * c)) (.property y q) (.stored y q) := by
  induction k generalizing w a with
  | zero => exact ⟨w, rfl, by simpa using h⟩
  | succ k ih =>
    obtain ⟨w₁, hrun, h₁⟩ := run_of_one_place (d := Int64.ofInt c) hfil h
    rw [← Int64.ofInt_add] at h₁
    obtain ⟨w', hcom, h'⟩ := ih h₁
    have hsum : a + c + k * c = a + (k + 1 : ℕ) * c := by
      push_cast
      ring
    rw [hsum] at h'
    exact ⟨w', ⟨w₁, hrun, hcom⟩, h'⟩

theorem completes_of_no_change (h : Resolves p fuel depth w x name v place arrival)
    (hfil : ∀ y q, arrival = .stored y q → Unchanging p y) (k : ℕ) :
    ∃ w' place', Completes p fuel depth x ⟨name, .integer 0⟩ k w w' ∧
      Resolves p fuel depth w' x name v place' arrival := by
  induction k generalizing w place with
  | zero => exact ⟨w, place, rfl, h⟩
  | succ k ih =>
    obtain ⟨w₁, place₁, hrun, h₁⟩ : ∃ w₁ place₁,
        run p fuel depth w x ⟨name, .integer 0⟩ = some (.complete, w₁) ∧
          Resolves p fuel depth w₁ x name v place₁ arrival := by
      by_cases hpla : OnePlace place arrival
      · obtain ⟨y, q, rfl, rfl⟩ := hpla
        obtain ⟨w₁, hrun, h₁⟩ := run_of_one_place (d := 0) (hfil y q rfl) h
        rw [Int64.add_zero] at h₁
        exact ⟨w₁, _, hrun, h₁⟩
      · exact run_stays h hfil hpla
    obtain ⟨w', place', hcom, h'⟩ := ih h₁
    exact ⟨w', place', ⟨w₁, hrun, hcom⟩, h'⟩

theorem toInt_ofInt_of_inRange {i : ℤ} (h : InRange i) : (Int64.ofInt i).toInt = i := by
  have hmin : Int64.minValue.toInt = -2 ^ 63 := by decide
  have hmax : Int64.maxValue.toInt = 2 ^ 63 - 1 := by decide
  rw [InRange] at h
  exact Int64.toInt_ofInt_of_le (by omega) (by omega)

theorem inRange_of_later {v : Int64} {c : ℤ} {k : ℕ} (hk : k ≠ 0)
    (h : InRange (v.toInt + k * c)) : InRange (v.toInt + c) := by
  have hk' : (1 : ℤ) ≤ k := by omega
  have hmin := v.minValue_le_toInt
  have hmax := v.toInt_le
  obtain ⟨hlow, hhig⟩ := h
  rcases le_total 0 c with hc | hc
  · exact ⟨by omega, by nlinarith⟩
  · exact ⟨by nlinarith, by omega⟩

end Run

def motor : Program ℚ Unit :=
  { Resolve.plainProgram .empty Resolve.speedFive with
    name := fun _ => "motor"
    expectedAuthority := fun _ => 0
    isShadow := fun _ => false
    channelConnected := fun _ => false
    filter := fun _ => some fun v => v.asInteger.getD 0
    hasIoInterface := fun _ => false
    value_not_keyword := by rfl }

theorem unchanging_motor : Unchanging motor () := by
  rintro f hf i
  cases hf
  rfl

def motorWith (speed : Value ℚ) : Unit → Instance ℚ :=
  fun _ => ⟨"", fun n => if n = "speed" then speed else .empty⟩

theorem resolves_own_speed :
    Resolves motor 0 1 (motorWith (.integer 7)) () "speed" 7 (.property () "speed")
      (.stored () "speed") := ⟨(locate_of_no_dot _ Resolve.splitDot_speed 0 ()).trans rfl, rfl, rfl⟩

theorem resolves_class_speed :
    Resolves motor 0 1 (motorWith .empty) () "speed" 5 (.classProperty () "speed")
      (.stored () "speed") := ⟨(locate_of_no_dot _ Resolve.splitDot_speed 0 ()).trans rfl, rfl, rfl⟩

end Clockwork.ExpressionAction
