import Mathlib.Algebra.Order.Group.Int
import Clockwork.Library.Runs
import Clockwork.ModbusAddress

namespace Clockwork.ModbusAddress

open Runs Option Function State Address

variable {M : Type}

def Address.Covers (a : Address M) (x : ℤ) : Prop := a.address ≤ x ∧ x < a.address + a.allocated

instance (a : Address M) (x : ℤ) : Decidable (a.Covers x) :=
  inferInstanceAs (Decidable (_ ∧ _))

def Address.Apart (a b : Address M) : Prop := ∀ x, a.Covers x → ¬b.Covers x

theorem Address.Apart.symm {a b : Address M} (h : a.Apart b) : b.Apart a := fun x hb ha => h x ha hb

theorem Address.apart_iff (a b : Address M) :
    a.Apart b ↔ a.allocated ≤ 0 ∨ b.allocated ≤ 0 ∨ a.address + a.allocated ≤ b.address ∨
      b.address + b.allocated ≤ a.address := by
  unfold Address.Apart Address.Covers
  constructor
  · intro h
    by_contra! hnot
    obtain ⟨ha, hb, hab, hba⟩ := hnot
    -- the high of the two first addresses is in both ranges
    rcases le_total a.address b.address with hle | hle
    · exact h b.address ⟨hle, hab⟩ ⟨le_refl _, by omega⟩
    · exact h a.address ⟨le_refl _, by omega⟩ ⟨hle, hba⟩
  · intro h x hx hx'
    omega

variable (preset : Mapping)

/-- No two mappings for a group overlap. -/
def Mapping.Disjoint : Prop :=
  ∀ n n' d d', n ≠ n' → preset n = some d → preset n' = some d' →
    toGroup d.group = toGroup d'.group →
    ∀ x, d.address ≤ x ∧ x < d.address + d.len → ¬(d'.address ≤ x ∧ x < d'.address + d'.len)

/-- The numbers of a line are kept as they are. -/
def Line.Exact (l : Line) : Prop := l.details = ⟨l.group, l.address, l.length⟩

instance (l : Line) : Decidable l.Exact := inferInstanceAs (Decidable (_ = _))

variable (w : State M)

/-- The exports of a group have addresses of their own, and are found at them. -/
structure Allocated : Prop where
  apart : ∀ k k' e e', k ≠ k' → w.modbusExports k = some e → w.modbusExports k' = some e' →
    e.group = e'.group → e.Apart e'
  found : ∀ k e, w.modbusExports k = some e → e ≠ .null → w.lookup e.group e.address = e

def State.find (i : ℤ) : Option (Address M) :=
  (w.automaticMappings i).orElse fun _ => w.userMappings i

variable {a : Address M} (lines : List (String × Line)) (w : State M)

theorem State.lookup_eq (g : Group) (a : ℤ) : w.lookup g a = (w.find (indexOf g a)).getD .null := by
  unfold lookup find
  cases w.automaticMappings (indexOf g a) <;> rfl

def State.Sorted : Prop :=
  ∀ i a, w.automaticMappings i = some a → firstAutoAddress ≤ a.address

theorem State.find_record_of_ne {i : ℤ} (h : i ≠ a.index) : (w.record a).find i = w.find i := by
  unfold record find
  split_ifs <;> simp [update_of_ne h]

theorem State.find_record_automatic (h : firstAutoAddress ≤ a.address) :
    (w.record a).find a.index = some a := by
  unfold record find
  rw [if_neg (by omega)]
  simp

theorem State.find_record_user (h : a.address < firstAutoAddress) :
    (w.record a).find a.index = (w.automaticMappings a.index).orElse fun _ => some a := by
  unfold record find
  rw [if_pos h]
  simp

theorem State.Sorted.record {w : State M} (hw : w.Sorted) (a : Address M) :
    (w.record a).Sorted := by
  intro i b hb
  unfold State.record at hb
  split_ifs at hb with hlow
  · exact hw i b hb
  · dsimp only at hb
    rw [update_apply] at hb
    split_ifs at hb with hi
    · cases hb
      exact not_lt.mp hlow
    · exact hw i b hb

@[simp] theorem modbusExports_record (a : Address M) :
    (w.record a).modbusExports = w.modbusExports := by
  unfold record
  split_ifs <;> rfl

theorem advance_of_lt {next : Group → ℤ} (hgro : a.group ≠ .string)
    (h : a.address < next a.group) : advance next a = next := by
  unfold advance
  cases hg : a.group <;> rw [hg] at h hgro <;> dsimp only
  case string => exact absurd rfl hgro
  all_goals rw [if_neg (not_le.mpr h)]

theorem le_advance {next : Group → ℤ} (h : 0 ≤ a.allocated) (g : Group) :
    next g ≤ advance next a g := by
  have hupd (g' : Group) (x : ℤ) (hx : next g' ≤ x) : next g ≤ update next g' x g := by
    rw [update_apply]
    split_ifs with hg
    · rwa [hg]
    · exact le_rfl
  unfold advance
  cases a.group <;> dsimp only
  case none => exact le_rfl
  all_goals
    split_ifs
    · exact hupd _ _ (by omega)
    · exact le_rfl

@[simp] theorem next_record (a : Address M) : (w.record a).next = advance w.next a := by
  unfold record
  split_ifs <;> rfl

theorem allocated_load : Allocated (load lines : State M) :=
  ⟨fun k k' e e' _ h => (by cases h), fun k e h => by cases h⟩

variable (c : Call M)

theorem Call.preset_ne_null (d : Details) : c.preset d ≠ .null := by
  intro h
  cases congrArg Address.owner h

variable [DecidableEq M]

@[simp] theorem modbusExports_addExport (k : M × String) (a : Address M) :
    (w.addExport k a).modbusExports = update w.modbusExports k (some a) := rfl

/-- The place of an address is free: apart from the export itself nothing else is found there, and
an address below 1000 is not hidden by an automatic mapping. -/
structure Free (k : M × String) (a : Address M) : Prop where
  index : ∀ k' e, k' ≠ k → w.modbusExports k' = some e → e ≠ .null → e.index = a.index → e = a
  hidden : a.address < firstAutoAddress → w.automaticMappings a.index = none

section Record

variable {w : State M} {k : M × String} {a : Address M}

theorem modbusExports_recorded_of_ne {k' : M × String} (h : k' ≠ k) :
    ((w.record a).addExport k a).modbusExports k' = w.modbusExports k' := by
  rw [modbusExports_addExport, update_of_ne h, modbusExports_record]

theorem modbusExports_recorded_self : ((w.record a).addExport k a).modbusExports k = some a := by
  rw [modbusExports_addExport, update_self]

theorem lookup_recorded (g : Group) (x : ℤ) : ((w.record a).addExport k a).lookup g x =
    ((w.record a).find (indexOf g x)).getD .null := lookup_eq (w.record a) g x

theorem free_of_allocated (hsor : w.Sorted) (ha : a ≠ .null)
    (h : Allocated ((w.record a).addExport k a)) : Free w k a := by
  have hsel := h.found k a modbusExports_recorded_self ha
  rw [lookup_recorded, ← index] at hsel
  constructor
  · intro k' e hk he hne hind
    have hfou := h.found k' e ((modbusExports_recorded_of_ne hk).trans he) hne
    rw [lookup_recorded, ← index, hind] at hfou
    exact hfou.symm.trans hsel
  · intro hlow
    rw [find_record_user w hlow] at hsel
    cases haut : w.automaticMappings a.index with
    | none => rfl
    | some b =>
      rw [haut] at hsel
      obtain rfl : b = a := hsel
      exact absurd (hsor _ _ haut) (not_le.mpr hlow)

omit [DecidableEq M] in
theorem Free.find_record (hfre : Free w k a) : (w.record a).find a.index = some a := by
  by_cases hlow : a.address < firstAutoAddress
  · rw [find_record_user w hlow, hfre.hidden hlow]
    rfl
  · exact find_record_automatic w (not_lt.mp hlow)

theorem Allocated.record (hw : Allocated w)
    (hapa : ∀ k' e, k' ≠ k → w.modbusExports k' = some e → e.group = a.group → e.Apart a)
    (hfre : Free w k a) : Allocated ((w.record a).addExport k a) := by
  refine ⟨fun k₁ k₂ e₁ e₂ hne h₁ h₂ hg => ?_, fun k' e he hnul => ?_⟩
  · by_cases hk₁ : k₁ = k
    · subst hk₁
      obtain rfl := some.inj (modbusExports_recorded_self.symm.trans h₁)
      rw [modbusExports_recorded_of_ne hne.symm] at h₂
      exact (hapa k₂ e₂ hne.symm h₂ hg.symm).symm
    · rw [modbusExports_recorded_of_ne hk₁] at h₁
      by_cases hk₂ : k₂ = k
      · subst hk₂
        obtain rfl := some.inj (modbusExports_recorded_self.symm.trans h₂)
        exact hapa k₁ e₁ hk₁ h₁ hg
      · rw [modbusExports_recorded_of_ne hk₂] at h₂
        exact hw.apart k₁ k₂ e₁ e₂ hne h₁ h₂ hg
  · rw [lookup_recorded, ← index]
    by_cases hk : k' = k
    · subst hk
      obtain rfl := some.inj (modbusExports_recorded_self.symm.trans he)
      rw [hfre.find_record]
      rfl
    · rw [modbusExports_recorded_of_ne hk] at he
      by_cases hind : e.index = a.index
      · obtain rfl := hfre.index k' e hk he hnul hind
        rw [hfre.find_record]
        rfl
      · rw [find_record_of_ne w hind]
        have hold := hw.found k' e he hnul
        rwa [lookup_eq] at hold

theorem allocated_record_iff (hw : Allocated w) (hsor : w.Sorted) (ha : a ≠ .null) :
    Allocated ((w.record a).addExport k a) ↔
      (∀ k' e, k' ≠ k → w.modbusExports k' = some e → e.group = a.group → e.Apart a) ∧
        Free w k a := by
  constructor
  · intro h
    refine ⟨fun k' e hk he hg => ?_, free_of_allocated hsor ha h⟩
    exact h.apart k' k e a hk ((modbusExports_recorded_of_ne hk).trans he)
      modbusExports_recorded_self hg
  · rintro ⟨hapa, hfre⟩
    exact hw.record hapa hfre

end Record

theorem Allocated.addExport_null {w : State M} (hw : Allocated w) (k : M × String) :
    Allocated (w.addExport k .null) := by
  have hemp (e : Address M) : e.Apart .null := (apart_iff _ _).mpr (.inr (.inl le_rfl))
  refine ⟨fun k₁ k₂ e₁ e₂ hne h₁ h₂ hg => ?_, fun k' e he hnul => ?_⟩
  · rw [modbusExports_addExport, update_apply] at h₁ h₂
    split_ifs at h₁ h₂ with hk₁ hk₂ hk₂
    · exact absurd (hk₁.trans hk₂.symm) hne
    · cases h₁
      exact (hemp e₂).symm
    · cases h₂
      exact hemp e₁
    · exact hw.apart k₁ k₂ e₁ e₂ hne h₁ h₂ hg
  · rw [modbusExports_addExport, update_apply] at he
    split_ifs at he with hk
    · exact absurd (some.inj he).symm hnul
    · exact hw.found k' e he hnul

theorem toGroup_ne_string (g : ℤ) : toGroup g ≠ .string := by
  unfold toGroup
  split_ifs <;> decide

/-- An export with a mapping is where the mapping says; any other is below its counter and above
the mappings for its group. -/
def Placed (next : Group → ℤ) (e : Address M) : Prop :=
  match preset e.name with
  | some d => e.group = toGroup d.group ∧ e.address = d.address ∧ e.allocated = d.len
  | none => ∃ counter, e.group.counter = some counter ∧ 0 < e.allocated ∧
      e.address + e.allocated ≤ next counter ∧
      ∀ n d, preset n = some d → toGroup d.group = e.group → d.address < e.address

omit [DecidableEq M] in
theorem Placed.mono {preset : Mapping} {next next' : Group → ℤ} {e : Address M}
    (h : Placed preset next e) (hle : ∀ g, next g ≤ next' g) : Placed preset next' e := by
  unfold Placed at h ⊢
  split
  · rename_i d hd
    rw [hd] at h
    exact h
  · rename_i hd
    rw [hd] at h
    obtain ⟨counter, hcou, hpos, hend, habo⟩ := h
    exact ⟨counter, hcou, hpos, hend.trans (hle counter), habo⟩

structure Sound : Prop where
  sorted : w.Sorted
  first : ∀ g, firstAutoAddress ≤ w.next g
  below : ∀ n d, preset n = some d → d.address < w.next (toGroup d.group)
  placed : ∀ k e, w.modbusExports k = some e → e ≠ .null → Placed preset w.next e

theorem Sound.addExport {preset : Mapping} {w w' : State M} (h : Sound preset w)
    (hsor : w'.Sorted) (hnex : ∀ g, w.next g ≤ w'.next g)
    (hexp : w'.modbusExports = w.modbusExports) {k : M × String}
    (ha : a ≠ .null → Placed preset w'.next a) : Sound preset (w'.addExport k a) := by
  refine ⟨hsor, fun g => (h.first g).trans (hnex g),
    fun n d hd => (h.below n d hd).trans_le (hnex _), fun k' e he hne => ?_⟩
  rw [modbusExports_addExport, update_apply, hexp] at he
  split_ifs at he with hk
  · cases he
    exact ha hne
  · exact (h.placed k' e he hne).mono hnex

theorem lt_loadLines (hexact : ∀ line ∈ lines, line.2.Exact) :
    ∀ n d, (loadLines lines).1 n = some d → d.address < (loadLines lines).2 (toGroup d.group) := by
  have hste (r : Mapping × (Group → ℤ)) (line : String × Line) (hexa : line.2.Exact)
      (h : ∀ n d, r.1 n = some d → d.address < r.2 (toGroup d.group)) :
      ∀ n d, (loadLine r line).1 n = some d →
        d.address < (loadLine r line).2 (toGroup d.group) := by
    intro n d hd
    unfold loadLine at hd ⊢
    split_ifs at hd ⊢
    · exact h n d hd
    · have hrai (g : Group) : r.2 g ≤ raise r.2 line.2 g := by
        unfold raise
        split_ifs with hle
        · rw [update_apply]
          split_ifs with hg
          · rw [hg]
            omega
          · exact le_rfl
        · exact le_rfl
      have hlin : line.2.address < raise r.2 line.2 (toGroup line.2.group) := by
        unfold raise
        split_ifs with hle
        · rw [update_self]
          omega
        · omega
      dsimp only at hd ⊢
      rw [update_apply] at hd
      split_ifs at hd with hn
      · cases hd
        rw [hexa]
        exact hlin
      · exact (h n d hd).trans_le (hrai _)
  unfold loadLines
  generalize hr : ((fun _ => none, fun _ => 0) : Mapping × (Group → ℤ)) = r
  have hr' : ∀ n d, r.1 n = some d → d.address < r.2 (toGroup d.group) := by
    subst hr
    intro n d hd
    cases hd
  clear hr
  induction lines generalizing r with
  | nil => exact hr'
  | cons line lines ih =>
    obtain ⟨hexa, hexact⟩ := List.forall_mem_cons.mp hexact
    exact ih hexact _ (hste r line hexa hr')

omit [DecidableEq M] in
theorem sound_load (hexact : ∀ line ∈ lines, line.2.Exact) :
    Sound (mapping lines) (load lines : State M) := by
  refine ⟨fun i a h => (by cases h), fun g => ?_, fun n d hd => ?_, fun k e h => by cases h⟩
  · unfold load
    dsimp only
    split_ifs <;> omega
  · have h := lt_loadLines lines hexact n d hd
    unfold load
    dsimp only
    split_ifs <;> omega

def Call.automatic (address : ℤ) : Address M :=
  ⟨c.group, address, c.n, c.kind, c.source, some c.machine, c.fullName⟩

def afterAlloc (next : Group → ℤ) (counter : Group) (n : ℕ) : Group → ℤ :=
  Function.update next counter (next counter + n)

theorem addModbusExport_cases :
    (∃ d, preset c.fullName = some d ∧
      addModbusExport preset w c = (w.record (c.preset d)).addExport c.key (c.preset d)) ∨
    (preset c.fullName = none ∧ (c.n = 0 ∨ c.group.counter = none) ∧
      addModbusExport preset w c = w.addExport c.key .null) ∨
    ∃ counter, preset c.fullName = none ∧ c.n ≠ 0 ∧ c.group.counter = some counter ∧
      addModbusExport preset w c =
        ({ w with next := afterAlloc w.next counter c.n }.record
          (c.automatic (w.next counter))).addExport c.key (c.automatic (w.next counter)) := by
  unfold addModbusExport alloc
  cases hpre : preset c.fullName with
  | some d => exact .inl ⟨d, rfl, rfl⟩
  | none =>
    by_cases hn : c.n = 0
    · exact .inr (.inl ⟨rfl, .inl hn, by simp [hn]⟩)
    · cases hcou : c.group.counter with
      | none => exact .inr (.inl ⟨rfl, .inr rfl, by simp [hn]⟩)
      | some counter =>
        exact .inr (.inr ⟨counter, rfl, hn, rfl, by
          simp [hn, Call.automatic, afterAlloc]⟩)

/-- The place for the next export is free: the mapping is not that of another export and ends
before the automatic addresses in use, or the mappings in use end before the next automatic
address. -/
def Call.Fits : Prop :=
  match preset c.fullName with
  | some d =>
    (∀ k e, k ≠ c.key → w.modbusExports k = some e → e ≠ .null →
      (e.name = c.fullName → d.len ≤ 0) ∧
      (preset e.name = none → e.group = toGroup d.group → d.address + d.len ≤ e.address)) ∧
    Free w c.key (c.preset d)
  | none =>
    ∀ counter, c.n ≠ 0 → c.group.counter = some counter →
      (∀ k e d, k ≠ c.key → w.modbusExports k = some e → e ≠ .null → preset e.name = some d →
        toGroup d.group = c.group → d.address + d.len ≤ w.next counter) ∧
      Free w c.key (c.automatic (w.next counter))

omit [DecidableEq M] in
theorem Call.automatic_ne_null (x : ℤ) : c.automatic x ≠ .null := by
  intro h
  cases congrArg Address.owner h

theorem le_afterAlloc (next : Group → ℤ) (counter : Group) (n : ℕ) (g : Group) :
    next g ≤ afterAlloc next counter n g := by
  unfold afterAlloc
  rw [update_apply]
  split_ifs with hg
  · rw [hg]
    omega
  · exact le_rfl

theorem Group.counter_toGroup {g : ℤ} {counter : Group}
    (h : (toGroup g).counter = some counter) : counter = toGroup g := by
  have hne := toGroup_ne_string g
  cases hg : toGroup g <;> rw [hg] at h hne
  case string => exact absurd rfl hne
  case none => cases h
  all_goals exact (some.inj h).symm

section Presets

variable {preset : Mapping} {w : State M} {c : Call M}

omit [DecidableEq M] in
theorem Sound.below_counter (h : Sound preset w) {counter : Group}
    (hcou : c.group.counter = some counter) {n : String} {d : Details}
    (hd : preset n = some d) (hgro : toGroup d.group = c.group) : d.address < w.next counter := by
  rw [← hgro] at hcou
  rw [Group.counter_toGroup hcou]
  exact h.below n d hd

theorem Sound.step (h : Sound preset w) (c : Call M) :
    Sound preset (addModbusExport preset w c) := by
  obtain ⟨d, hd, heq⟩ | ⟨_, _, heq⟩ | ⟨counter, hnon, hn, hcou, heq⟩ :=
    addModbusExport_cases preset w c
  · rw [heq]
    have hadv : advance w.next (c.preset d) = w.next :=
      advance_of_lt (toGroup_ne_string _) (h.below _ _ hd)
    apply h.addExport (h.sorted.record _)
    · intro g
      rw [next_record, hadv]
    · exact modbusExports_record _ _
    · intro _
      unfold Placed
      rw [show preset (c.preset d).name = some d from hd]
      exact ⟨rfl, rfl, rfl⟩
  · rw [heq]
    exact h.addExport h.sorted (fun _ => le_rfl) rfl fun hne => absurd rfl hne
  · rw [heq]
    have hle (g : Group) : afterAlloc w.next counter c.n g ≤
        advance (afterAlloc w.next counter c.n) (c.automatic (w.next counter)) g :=
      le_advance (Int.natCast_nonneg _) g
    have hsor : State.Sorted { w with next := afterAlloc w.next counter c.n } := h.sorted
    apply h.addExport (hsor.record _)
    · intro g
      rw [next_record]
      exact (le_afterAlloc _ _ _ g).trans (hle g)
    · exact modbusExports_record _ _
    · intro _
      unfold Placed
      rw [show preset (c.automatic (w.next counter)).name = none from hnon]
      refine ⟨counter, hcou, Int.natCast_pos.mpr (Nat.pos_of_ne_zero hn), ?_, ?_⟩
      · rw [next_record]
        refine le_trans (le_of_eq ?_) (hle counter)
        exact (update_self counter _ w.next).symm
      · intro n d hd hgro
        exact h.below_counter hcou hd hgro

omit [DecidableEq M] in
theorem apart_preset_iff (hdis : preset.Disjoint) {next : Group → ℤ} {e : Address M}
    (hpla : Placed preset next e) {d : Details} (hd : preset c.fullName = some d) :
    (e.group = toGroup d.group → e.Apart (c.preset d)) ↔ (e.name = c.fullName → d.len ≤ 0) ∧
        (preset e.name = none → e.group = toGroup d.group → d.address + d.len ≤ e.address) := by
  unfold Placed at hpla
  cases hnam : preset e.name with
  | some d' =>
    rw [hnam] at hpla
    obtain ⟨hgro, hadd, hlen⟩ := hpla
    by_cases hsam : e.name = c.fullName
    · -- the two have one mapping and so one range
      obtain rfl : d' = d := some.inj (hnam.symm.trans (hsam ▸ hd))
      rw [apart_iff, hadd, hlen]
      simp only [hgro, hsam, Call.preset]
      constructor
      · intro h
        refine ⟨fun _ => ?_, fun hnon => by cases hnon⟩
        have hapa := h trivial
        omega
      · intro h _
        exact .inl (h.1 trivial)
    · refine ⟨fun _ => ⟨fun h => absurd h hsam, fun hnon => by cases hnon⟩, fun _ hg => ?_⟩
      intro x hx hx'
      unfold Address.Covers at hx
      rw [hadd, hlen] at hx
      exact hdis _ _ _ _ hsam hnam hd (hgro.symm.trans hg) x hx hx'
  | none =>
    rw [hnam] at hpla
    obtain ⟨_, _, hpos, _, habo⟩ := hpla
    have hsam : e.name ≠ c.fullName := by
      intro h
      rw [h, hd] at hnam
      cases hnam
    constructor
    · intro h
      refine ⟨fun h => absurd h hsam, fun _ hg => ?_⟩
      have hlt := habo _ _ hd hg.symm
      have hapa := (apart_iff _ _).mp (h hg)
      dsimp only [Call.preset] at hapa
      omega
    · intro h hg
      rw [apart_iff]
      exact .inr (.inr (.inr (h.2 rfl hg)))

omit [DecidableEq M] in
theorem apart_automatic_iff (hs : Sound preset w) {e : Address M}
    (hpla : Placed preset w.next e) {counter : Group} (hn : c.n ≠ 0)
    (hcou : c.group.counter = some counter) :
    (e.group = c.group → e.Apart (c.automatic (w.next counter))) ↔
      ∀ d, preset e.name = some d → toGroup d.group = c.group →
        d.address + d.len ≤ w.next counter := by
  unfold Placed at hpla
  cases hnam : preset e.name with
  | some d =>
    rw [hnam] at hpla
    obtain ⟨hgro, hadd, hlen⟩ := hpla
    rw [apart_iff, hadd, hlen, hgro]
    constructor
    · rintro h d' hd' hg
      cases hd'
      have hlt := hs.below_counter hcou hnam hg
      have hapa := h hg
      dsimp only [Call.automatic] at hapa
      omega
    · intro h hg
      exact .inr (.inr (.inl (h d rfl hg)))
  | none =>
    rw [hnam] at hpla
    obtain ⟨counter', hcou', _, hend, _⟩ := hpla
    refine ⟨fun _ d hd => (by cases hd), fun _ hg => ?_⟩
    rw [hg, hcou] at hcou'
    cases hcou'
    rw [apart_iff]
    exact .inr (.inr (.inl hend))

theorem allocated_addModbusExport_iff (hdis : preset.Disjoint) (hs : Sound preset w)
    (hw : Allocated w) (c : Call M) : Allocated (addModbusExport preset w c) ↔ c.Fits preset w := by
  have hnul (e a : Address M) (h : e = .null) : e.Apart a := by
    rw [h, apart_iff]
    exact .inl le_rfl
  unfold Call.Fits
  obtain ⟨d, hd, heq⟩ | ⟨hnon, hemp, heq⟩ | ⟨counter, hnon, hn, hcou, heq⟩ :=
    addModbusExport_cases preset w c
  · rw [heq, hd, allocated_record_iff hw hs.sorted (c.preset_ne_null d)]
    refine and_congr_left fun _ => ?_
    constructor
    · intro h k e hk he hne
      exact (apart_preset_iff hdis (hs.placed k e he hne) hd).mp (h k e hk he)
    · intro h k e hk he hg
      by_cases hne : e = .null
      · exact hnul e _ hne
      · exact (apart_preset_iff hdis (hs.placed k e he hne) hd).mpr (h k e hk he hne) hg
  · rw [heq, hnon]
    refine iff_of_true (hw.addExport_null _) fun counter hn hcou => ?_
    rcases hemp with hzer | hnoc
    · exact absurd hzer hn
    · rw [hnoc] at hcou
      cases hcou
  · rw [heq, hnon]
    have hw' : Allocated { w with next := afterAlloc w.next counter c.n } := ⟨hw.apart, hw.found⟩
    rw [allocated_record_iff hw' hs.sorted (c.automatic_ne_null _)]
    have hfre (a : Address M) :
        Free { w with next := afterAlloc w.next counter c.n } c.key a ↔ Free w c.key a :=
      ⟨fun h => ⟨h.index, h.hidden⟩, fun h => ⟨h.index, h.hidden⟩⟩
    rw [hfre]
    constructor
    · rintro ⟨hapa, h⟩ counter' _ hcou'
      obtain rfl := some.inj (hcou.symm.trans hcou')
      refine ⟨fun k e d hk he hne hd hg => ?_, h⟩
      have hbef := apart_automatic_iff hs (hs.placed k e he hne) hn hcou
      exact hbef.mp (hapa k e hk he) d hd hg
    · intro h
      obtain ⟨hend, h⟩ := h counter hn hcou
      refine ⟨fun k e hk he hg => ?_, h⟩
      by_cases hne : e = .null
      · exact hnul e _ hne
      · refine (apart_automatic_iff hs (hs.placed k e he hne) hn hcou).mpr ?_ hg
        exact fun d => hend k e d hk he hne

end Presets

theorem disjoint_mapping_singleton (line : String × Line) : (mapping [line]).Disjoint := by
  have hnam (n : String) (d : Details) (h : mapping [line] n = some d) : n = line.1 := by
    by_contra hne
    rw [show mapping [line] n = update (fun _ => none) line.1 (some line.2.details) n from rfl,
      update_of_ne hne] at h
    cases h
  intro n n' d d' hne hd hd'
  exact absurd ((hnam n d hd).trans (hnam n' d' hd').symm) hne

def settingLines : List (String × Line) := [("setting", ⟨4, 20, 2⟩)]

def settingCall : Call ℕ := ⟨0, "VALUE", .holdingRegister, 2, 0, .rwReg32, .property, "setting"⟩

def counterCall : Call ℕ := ⟨1, "VALUE", .holdingRegister, 1, 1, .rwReg, .property, "counter"⟩

/-- A mapping for 80 input registers from 2000 on leaves the next automatic register at 2002. -/
def statusLines : List (String × Line) := [("status", ⟨3, 2000, 80⟩)]

def statusCall : Call ℕ := ⟨0, "STATUS", .inputRegister, 80, 0, .str, .property, "status"⟩

def levelCall : Call ℕ := ⟨1, "VALUE", .inputRegister, 1, 1, .reg, .property, "level"⟩

end Clockwork.ModbusAddress
