import Clockwork.AuthorityRuns
import Clockwork.LongText

namespace Clockwork.PropertyMessage

open Authority Value

variable {F M : Type}

structure Own (env : Env F M) (x : M) (property : String) : Prop where
  ne_empty : property ≠ ""
  no_dot : splitDot property = none
  not_traceable : property ≠ "TRACEABLE"
  no_global : (env.config x).globalReferences property = none
  no_machine : property = "VALUE" ∨ property = (env.config x).name ∨ env.lookup x property = none

variable {a : UInt64} {env : Env F M}

theorem route_of_own {x : M} {property : String} (h : Own env x property)
    (ha : env.expected x = 0 ∨ a ≠ 0) (w : M → Instance F) :
    route env w x property a = .assign := by
  unfold route
  rw [if_neg h.ne_empty, h.no_dot]
  rw [if_neg (by tauto), if_neg h.not_traceable, h.no_global]
  dsimp only
  split
  · next hnul =>
    have hloo : env.lookup x property = none := by
      have := h.no_machine
      tauto
    rw [hloo]
  · rfl

theorem own_of_route {w : M → Instance F} {x : M} {property : String}
    (hnul : (w x).properties property = .empty) (h : route env w x property a = .assign) :
    Own env x property := by
  unfold route at h
  split at h
  · cases h
  next hne =>
  split at h
  · split at h
    · split at h <;> cases h
    · cases h
  next hdot =>
  split at h
  · cases h
  split at h
  · cases h
  next htra =>
  split at h
  · next y hy =>
    unfold toVariable at h
    split at h <;> cases h
  · cases h
  next hglo =>
  refine ⟨hne, hdot, htra, hglo, ?_⟩
  split at h
  · split at h
    · unfold toVariable at h
      split at h <;> cases h
    · next hloo => exact .inr (.inr hloo)
  · next hcon =>
    rw [hnul] at hcon
    tauto

theorem route_forward {w : M → Instance F} {x y : M} {q prop : String}
    (h : route env w x q a = .forward y prop) :
    (∃ first, splitDot q = some (first, prop)) ∨ prop = "VALUE" := by
  have hvar {z : M} (hz : toVariable env z = .forward y prop) : prop = "VALUE" := by
    unfold toVariable at hz
    split at hz
    · cases hz
    · cases hz
      rfl
  unfold route at h
  split at h
  · cases h
  split at h
  · next first rest hspl =>
    split at h
    · split at h
      · cases h
      · cases h
        exact .inl ⟨first, hspl⟩
    · cases h
  split at h
  · cases h
  split at h
  · cases h
  split at h
  · exact .inr (hvar h)
  · cases h
  split at h
  · split at h
    · exact .inr (hvar h)
    · cases h
  · cases h

theorem filtered_eq_none {env : Env F M} {x : M} (h : (env.config x).filter = none) (u : Value F) :
    filtered env x u = none := by
  unfold filtered
  rw [h]
  split <;> rfl

variable [DecidableEq M] [Double F] {env : Env F M}

variable {p q : String} {w : M → Instance F} {x : M} {u : Value F}

theorem updateOutput_properties_of_ne (h : p ≠ q) (v : Value F) :
    ((updateOutput env w x q v) x).properties p = (w x).properties p := by
  unfold updateOutput
  split
  · next hval =>
    cases v.asInteger with
    | none => rfl
    | some i => simp [setProperty, Function.update_of_ne (hval.1 ▸ h)]
  · rfl

theorem assign_properties_of_ne (h : p ≠ q) (v : Value F) :
    ((assign env w x q v) x).properties p = (w x).properties p := by
  unfold assign
  split
  · rw [updateOutput_properties_of_ne h]
    simp [setProperty, Function.update_of_ne h]
  · rfl

theorem setValue_reaches {depth : ℕ} {x y : M} {a : UInt64}
    (h : ((setValue env depth w y q u a).2 x).properties p ≠ (w x).properties p) :
    ∃ a', (a' = a ∨ a' = 0) ∧ route env w x p a' = .assign ∧
      (setValue env depth w y q u a).2 = assign env w x p u ∧
      (p = "VALUE" ∨ p = q ∨ p.toList <:+ q.toList ∧ '.' ∈ q.toList) := by
  induction depth generalizing y q a with
  | zero => exact absurd rfl h
  | succ depth ih =>
    rw [setValue] at h ⊢
    cases hr : route env w y q a with
    | reply result =>
      rw [hr] at h
      exact absurd rfl h
    | forward z prop =>
      rw [hr] at h
      obtain ⟨a', ha', hrou, heq, hp⟩ := ih h
      refine ⟨a', .inr (ha'.elim id id), hrou, heq, ?_⟩
      rcases route_forward hr with ⟨first, hspl⟩ | rfl
      · obtain ⟨hsuf, hdot⟩ := splitDot_suffix hspl
        rcases hp with hp | rfl | ⟨hp, -⟩
        · exact .inl hp
        · exact .inr (.inr ⟨hsuf, hdot⟩)
        · exact .inr (.inr ⟨hp.trans hsuf, hdot⟩)
      · rcases hp with hp | hp | ⟨-, hdot⟩
        · exact .inl hp
        · exact .inl hp
        · exact absurd hdot (by decide)
    | assign =>
      rw [hr] at h
      obtain rfl : x = y := by
        by_contra hne
        exact h (congrArg (Instance.properties · p) (assign_of_ne hne q u))
      obtain rfl : p = q := by
        by_contra hne
        exact h (assign_properties_of_ne hne u)
      exact ⟨a, .inl rfl, hr, rfl, .inr (.inl rfl)⟩

def stored (env : Env F M) (x : M) (p : String) (u : Value F) : Value F :=
  if p = "VALUE" ∧ (env.config x).hasIoInterface then
    (u.asInteger.map Value.integer).getD ((filtered env x u).getD u)
  else (filtered env x u).getD u

theorem assign_properties (w : M → Instance F) (x : M) (p : String) (u : Value F) :
    ((assign env w x p u) x).properties p =
      if wasChanged ((w x).properties p) u (filtered env x u) then stored env x p u
      else (w x).properties p := by
  unfold assign
  split
  · unfold updateOutput stored
    split
    · next hval =>
      rw [hval.1]
      cases u.asInteger <;> simp [setProperty]
    · simp [setProperty]
  · rfl

def Tokened : Value F → Prop
  | .symbol s t => t = none ∨ t = some s
  | _ => True

def NumberLike : Value F → Prop
  | .string s => (strtol s).2 = true
  | .symbol s _ => (strtol s).2 = true
  | _ => False

def Settable : Value F → Prop
  | .integer _ | .bool _ => True
  | .string s => (strtol s).2 = false
  | .symbol s t => t = some s ∧ (strtol s).2 = false
  | _ => False

theorem same_of_identical {u prev : Value F} (hu : Settable u) (hpre : Tokened prev)
    (hkin : prev.kind = u.kind) (h : identical prev u = true) : Value.Same u prev := by
  cases u with
  | empty => exact hu.elim
  | float x => exact hu.elim
  | integer i =>
    cases prev with
    | integer j =>
      have hij : j = i := of_decide_eq_true h
      exact hij ▸ .refl _
    | _ => cases hkin
  | bool b =>
    cases prev with
    | bool c =>
      have hbc : c = b := eq_of_beq h
      exact hbc ▸ .refl _
    | _ => cases hkin
  | string s =>
    cases prev with
    | string r =>
      have hrs : r = s := eq_of_beq h
      exact hrs ▸ .refl _
    | _ => cases hkin
  | symbol s t =>
    cases prev with
    | symbol r t' =>
      have htok : t' = t := of_decide_eq_true h
      rcases hpre with rfl | rfl
      · rw [hu.1] at htok
        cases htok
      · obtain rfl : r = s := Option.some.inj (htok.trans hu.1)
        exact .symbol r _ _
    | _ => cases hkin

omit [DecidableEq M] in
theorem stored_eq_self (hu : Settable u) (hfil : (env.config x).filter = none)
    (hboo : p = "VALUE" → (env.config x).hasIoInterface = true → u.kind ≠ .bool) :
    stored env x p u = u := by
  unfold stored
  rw [filtered_eq_none hfil]
  split
  · next hval =>
    cases u with
    | empty => exact hu.elim
    | float x => exact hu.elim
    | integer i => rfl
    | bool b => exact absurd rfl (hboo hval.1 hval.2)
    | string s =>
      have hs : (strtol s).2 = false := hu
      have hnon : (string s : Value F).asInteger = none :=
        if_neg (by simp [asIntegerInto, hs])
      rw [hnon]
      rfl
    | symbol s t =>
      have hnon : (symbol s t : Value F).asInteger = none :=
        if_neg (by simp [asIntegerInto, hu.2])
      rw [hnon]
      rfl
  · rfl

theorem wasChanged_empty (hu : Settable u) (o : Option (Value F)) :
    wasChanged .empty u o = true := by
  have hnul : u.isNull = false := by
    cases u with
    | empty => exact hu.elim
    | _ => rfl
  have hemp : (empty : Value F).isNull = true := rfl
  cases o <;> simp [wasChanged, hnul, hemp]

theorem identical_toString (i : Int64) :
    identical (.string (toString i.toInt)) (.integer i : Value F) = true := by
  have hs : (string (toString i.toInt) : Value F).asInteger = some i := by
    rw [asInteger, asIntegerInto, strtol_toString]
    rfl
  have heq : identical (.string (toString i.toInt)) (.integer i : Value F) =
      (string (toString i.toInt)).eq (.integer i) := rfl
  rw [heq, eq_string_integer hs]
  exact decide_eq_true rfl

theorem assign_same_iff {v u : Value F} (hu : Settable u)
    (hboo : u.kind = .bool → v.kind ≠ .integer) :
    (∀ w : M → Instance F, Tokened ((w x).properties p) →
      Value.Same v (((assign env w x p u) x).properties p)) ↔
    Value.Same v u ∧ (env.config x).filter = none ∧
      (p = "VALUE" → (env.config x).hasIoInterface = true → v.kind ≠ .bool) := by
  constructor
  · intro h
    have hsto : Value.Same v (stored env x p u) := by
      have h0 := h (fun _ => ⟨"", fun _ => .empty⟩) trivial
      rwa [assign_properties, if_pos (wasChanged_empty hu _)] at h0
    have hfil : (env.config x).filter = none := by
      by_contra hsom
      obtain ⟨f, hf⟩ := Option.ne_none_iff_exists'.mp hsom
      -- the text of the number that the filter returns counts as this number
      have h1 := h (fun _ => ⟨"", fun _ => .string (toString (f u).toInt)⟩) trivial
      have hfit : filtered env x u = some (.integer (f u)) := by
        have hflo : u.kind ≠ .float := by
          cases u with
          | float x => exact hu.elim
          | _ => simp [kind]
        rw [filtered, if_neg hflo, hf]
        rfl
      have hkin : v.kind = .integer := by
        rw [hsto.kind_eq, stored, hfit]
        split
        · cases u.asInteger <;> rfl
        · rfl
      rw [assign_properties, hfit, if_neg] at h1
      · rw [h1.kind_eq] at hkin
        cases hkin
      · rw [wasChanged, identical_toString]
        simp [isNull]
    have hio : p = "VALUE" → (env.config x).hasIoInterface = true → u.kind ≠ .bool := by
      intro hp hint hkin
      refine hboo hkin ?_
      rw [hsto.kind_eq, stored, if_pos ⟨hp, hint⟩]
      cases u with
      | bool b => rfl
      | _ => cases hkin
    rw [stored_eq_self hu hfil hio] at hsto
    exact ⟨hsto, hfil, fun hp hi => hsto.kind_eq ▸ hio hp hi⟩
  · rintro ⟨hsam, hfil, hio⟩ w hw
    rw [assign_properties]
    split
    · rwa [stored_eq_self hu hfil fun hp hi => hsam.kind_eq ▸ hio hp hi]
    · next hcha =>
      rw [filtered_eq_none hfil] at hcha
      simp only [wasChanged, Bool.or_eq_true, not_or, Bool.not_eq_true', Bool.not_eq_false,
        bne_iff_ne, ne_eq, not_not] at hcha
      exact hsam.trans (same_of_identical hu hw hcha.1.2 hcha.1.1)

end Clockwork.PropertyMessage
