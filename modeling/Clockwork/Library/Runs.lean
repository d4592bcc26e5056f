import Mathlib.Logic.Relation

namespace Runs

open List

variable {σ α : Type*}

/-- A run of a labelled transition system: the list of its labels leads from one
state to another. -/
inductive Run (step : σ → α → σ → Prop) : σ → List α → σ → Prop
  | nil (s : σ) : Run step s [] s
  | cons {s t u : σ} {a : α} {as : List α} (h : step s a t) (run : Run step t as u) :
      Run step s (a :: as) u

variable {step : σ → α → σ → Prop}

variable {next : σ → α → Option σ} {I : σ → Prop} {as : List α} {s t : σ}

/-- What every step preserves, every run preserves. -/
theorem Run.invariant (hste : ∀ s a t, I s → step s a t → I t)
    (run : Run step s as t) (hs : I s) : I t := by
  induction run with
  | nil s => exact hs
  | cons h run ih => exact ih (hste _ _ _ hs h)

theorem Run.split {s u : σ} {as bs : List α} (h : Run step s (as ++ bs) u) :
    ∃ t, Run step s as t ∧ Run step t bs u := by
  induction as generalizing s with
  | nil => exact ⟨s, .nil s, h⟩
  | cons a as ih =>
    cases h with
    | cons hste h =>
      obtain ⟨t, h₁, h₂⟩ := ih h
      exact ⟨t, .cons hste h₁, h₂⟩

def Guarded (step : σ → α → σ → Prop) (good : σ → α → σ → Prop) (s : σ) (a : α) (t : σ) : Prop :=
  step s a t ∧ good s a t

theorem Run.of_guarded {good : σ → α → σ → Prop}
    (h : Run (Guarded step good) s as t) : Run step s as t := by
  induction h with
  | nil s => exact .nil s
  | cons h _ ih => exact .cons h.1 ih

def execute (next : σ → α → Option σ) : σ → List α → Option σ
  | s, [] => some s
  | s, a :: as => (next s a).bind fun t => execute next t as

theorem run_of_execute (h : execute next s as = some t) :
    Run (fun s a t => next s a = some t) s as t := by
  induction as generalizing s with
  | nil =>
    obtain rfl := Option.some.inj h
    exact .nil s
  | cons a as ih =>
    obtain ⟨u, hu, htai⟩ := Option.bind_eq_some_iff.mp h
    exact .cons hu (ih htai)

/-- If an invariant makes every step possible and is kept by it, every run is possible. -/
theorem execute_invariant (hnex : ∀ s a, I s → ∃ t, next s a = some t ∧ I t) {s : σ} (hs : I s)
    (as : List α) : ∃ t, execute next s as = some t ∧ I t := by
  induction as generalizing s with
  | nil => exact ⟨s, rfl, hs⟩
  | cons a as ih =>
    obtain ⟨t, ht, hinv⟩ := hnex s a hs
    obtain ⟨u, hu, hinv'⟩ := ih hinv
    exact ⟨u, by rw [execute, ht, Option.bind_some, hu], hinv'⟩

def guardedNext (next : σ → α → Option σ) (good : σ → α → Prop) [∀ s a, Decidable (good s a)]
    (s : σ) (a : α) : Option σ :=
  if good s a then next s a else none

theorem run_guarded_of_execute {good : σ → α → Prop} [∀ s a, Decidable (good s a)]
    (h : execute (guardedNext next good) s as = some t) :
    Run (Guarded (fun s a t => next s a = some t) fun s a _ => good s a) s as t := by
  induction as generalizing s with
  | nil =>
    obtain rfl := Option.some.inj h
    exact .nil s
  | cons a as ih =>
    obtain ⟨u, hu, htai⟩ := Option.bind_eq_some_iff.mp h
    unfold guardedNext at hu
    split at hu
    · exact .cons ⟨hu, ‹_›⟩ (ih htai)
    · cases hu

variable {Q : List α → α → Prop}

theorem forall_event_cons_iff (b : α) (as : List α) :
    (∀ before a after, b :: as = before ++ a :: after → Q before a) ↔
      Q [] b ∧ ∀ before a after, as = before ++ a :: after → Q (b :: before) a := by
  constructor
  · intro h
    refine ⟨h [] b as rfl, fun before a after has => ?_⟩
    exact h (b :: before) a after (by simp [has])
  · rintro ⟨hb, has⟩ before a after heq
    cases before with
    | nil =>
      obtain ⟨rfl, rfl⟩ := cons.inj heq
      exact hb
    | cons c before =>
      obtain ⟨rfl, htai⟩ := cons.inj heq
      exact has before a after htai

theorem forall_event_concat_iff (as : List α) (b : α) :
    (∀ before a after, as ++ [b] = before ++ a :: after → Q before a) ↔
      (∀ before a after, as = before ++ a :: after → Q before a) ∧ Q as b := by
  have hpre (xs : List α) : (∀ before a after, xs = before ++ a :: after → Q before a) ↔
      ∀ before a, before ++ [a] <+: xs → Q before a := by
    simp [List.IsPrefix, eq_comm]
  simp [hpre, prefix_concat_iff, or_imp, forall_and, and_comm]

/-- Some event of a list met one condition, and every event after it meets another one. Both may
depend on the events before. -/
def Since (P Q : List α → α → Prop) (as : List α) : Prop :=
  ∃ before a after, as = before ++ a :: after ∧ P before a ∧
    ∀ between b rest, after = between ++ b :: rest → Q (before ++ a :: between) b

variable {P Q : List α → α → Prop}

theorem not_since_nil : ¬Since P Q [] := by
  rintro ⟨before, a, after, heq, -⟩
  simp at heq

theorem since_concat_iff (as : List α) (b : α) :
    Since P Q (as ++ [b]) ↔ P as b ∨ Since P Q as ∧ Q as b := by
  constructor
  · rintro ⟨before, a, after, heq, hp, hq⟩
    rcases eq_nil_or_concat after with rfl | ⟨after, x, rfl⟩
    · obtain ⟨rfl, hlas⟩ := append_inj' heq rfl
      obtain rfl := singleton_inj.mp hlas
      exact .inl hp
    · rw [concat_eq_append] at hq heq
      rw [← cons_append, ← append_assoc] at heq
      obtain ⟨rfl, hlas⟩ := append_inj' heq rfl
      obtain rfl := singleton_inj.mp hlas
      rw [forall_event_concat_iff (Q := fun between x => Q (before ++ a :: between) x)] at hq
      exact .inr ⟨⟨before, a, after, rfl, hp, hq.1⟩, hq.2⟩
  · rintro (hp | ⟨⟨before, a, after, rfl, hp, hq⟩, hb⟩)
    · refine ⟨as, b, [], rfl, hp, fun between x rest heq => ?_⟩
      simp at heq
    · refine ⟨before, a, after ++ [b], by simp, hp, ?_⟩
      rw [forall_event_concat_iff (Q := fun between x => Q (before ++ a :: between) x)]
      exact ⟨hq, hb⟩

/-- Two conditions that agree wherever an invariant holds admit the same runs, if the
steps that meet them keep the invariant. -/
theorem run_guarded_congr {good good' : σ → α → σ → Prop}
    (hiff : ∀ s a t, I s → step s a t → (good s a t ↔ good' s a t))
    (hkee : ∀ s a t, I s → step s a t → good s a t → I t) (hs : I s) :
    Run (Guarded step good) s as t ↔ Run (Guarded step good') s as t := by
  constructor
  · intro run
    induction run with
    | nil s => exact .nil s
    | cons h _ ih => exact .cons ⟨h.1, (hiff _ _ _ hs h.1).mp h.2⟩ (ih (hkee _ _ _ hs h.1 h.2))
  · intro run
    induction run with
    | nil s => exact .nil s
    | cons h _ ih =>
      have hgoo := (hiff _ _ _ hs h.1).mpr h.2
      exact .cons ⟨h.1, hgoo⟩ (ih (hkee _ _ _ hs h.1 hgoo))

variable {P : σ → Prop} {breaks restores : σ → α → Prop}
  (hbreaks : ∀ s a t, step s a t → P s → (¬P t ↔ breaks s a))
  (hrestores : ∀ s a t, step s a t → ¬P s → (P t ↔ restores s a))

include hrestores in
theorem Run.not_of_guarded
    (run : Run (Guarded step fun s a _ => ¬restores s a) s as t) (hs : ¬P s) : ¬P t := by
  apply run.invariant (I := fun s => ¬P s) ?_ hs
  intro s a t hs h ht
  exact h.2 ((hrestores s a t h.1 hs).mp ht)

include hbreaks hrestores in
/-- A property fails at the end of a run if it failed at the start or some step broke it, and
nothing restored it afterwards. -/
theorem Run.not_iff (run : Run step s as t) :
    ¬P t ↔ ¬P s ∧ Run (Guarded step fun s a _ => ¬restores s a) s as t ∨
      ∃ before a after u v, as = before ++ a :: after ∧ Run step s before u ∧ step u a v ∧ P u ∧
        breaks u a ∧ Run (Guarded step fun s a _ => ¬restores s a) v after t := by
  constructor
  · intro ht
    induction run with
    | nil s => exact .inl ⟨ht, .nil s⟩
    | @cons s u t a as h run ih =>
      rcases ih ht with ⟨hu, hrun⟩ | ⟨before, b, after, v, v', rfl, hbef, hres⟩
      · by_cases hs : P s
        · exact .inr ⟨[], a, as, s, u, rfl, .nil s, h, hs, (hbreaks s a u h hs).mp hu, hrun⟩
        · exact .inl ⟨hs, .cons ⟨h, fun hr => hu ((hrestores s a u h hs).mpr hr)⟩ hrun⟩
      · exact .inr ⟨a :: before, b, after, v, v', rfl, .cons h hbef, hres⟩
  · rintro (⟨hs, hrun⟩ | ⟨_, a, _, u, v, _, _, h, hu, hbre, hrun⟩)
    · exact hrun.not_of_guarded hrestores hs
    · exact hrun.not_of_guarded hrestores ((hbreaks u a v h hu).mpr hbre)

end Runs
