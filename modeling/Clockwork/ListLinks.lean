import Clockwork.Lists

namespace Clockwork.Lists

open List Option Function World

variable {F M : Type}

def machines (ps : List (Parameter F M)) : List M := ps.filterMap Parameter.machine

def machineAt (ps : List (Parameter F M)) (i : ℕ) : Option M := (ps[i]?).bind Parameter.machine

variable {m : M} {p : Parameter F M} {ps : List (Parameter F M)} {i : ℕ}

theorem mem_machines_cons : m ∈ machines (p :: ps) ↔ p.machine = some m ∨ m ∈ machines ps := by
  simp only [machines, mem_filterMap, mem_cons, exists_eq_or_imp]

variable {ps qs : List (Parameter F M)}

theorem mem_machines_append : m ∈ machines (ps ++ qs) ↔ m ∈ machines ps ∨ m ∈ machines qs := by
  simp only [machines, filterMap_append, mem_append]

theorem machines_eraseIdx_subset (h : m ∈ machines (ps.eraseIdx i)) : m ∈ machines ps :=
  ((eraseIdx_sublist ps i).filterMap _).subset h

theorem mem_machines_of_machineAt (h : machineAt ps i = some m) : m ∈ machines ps := by
  obtain ⟨p, hp, hm⟩ := bind_eq_some_iff.mp h
  exact mem_filterMap.mpr ⟨p, mem_of_getElem? hp, hm⟩

theorem lt_length_of_machineAt (h : machineAt ps i = some m) : i < ps.length := by
  obtain ⟨p, hp, -⟩ := Option.bind_eq_some_iff.mp h
  exact (List.getElem?_eq_some_iff.mp hp).1

theorem mem_machines_eraseIdx (h : machineAt ps i ≠ some m) :
    m ∈ machines (ps.eraseIdx i) ↔ m ∈ machines ps := by
  induction ps generalizing i with
  | nil => simp
  | cons p ps ih =>
    cases i with
    | zero =>
      rw [mem_machines_cons]
      tauto
    | succ i =>
      rw [eraseIdx_cons_succ, mem_machines_cons, mem_machines_cons, ih h]

theorem mem_machines_insertIdx (hi : i ≤ ps.length) :
    m ∈ machines (ps.insertIdx i p) ↔ p.machine = some m ∨ m ∈ machines ps := by
  have hper := perm_insertIdx p ps hi
  rw [machines, (hper.filterMap _).mem_iff, ← machines, mem_machines_cons]

theorem mem_machines_insert {position : Int} {before : Bool}
    (h : Parameter.insert ps p position before = some qs) (m : M) :
    m ∈ machines qs ↔ p.machine = some m ∨ m ∈ machines ps := by
  have hend : m ∈ machines (ps ++ [p]) ↔ p.machine = some m ∨ m ∈ machines ps := by
    simp [machines, or_comm]
  unfold Parameter.insert at h
  split at h
  · split at h
    · cases h
      exact hend
    · split at h
      · cases h
      · cases h
        exact mem_machines_insertIdx (Nat.sub_le _ _)
  · simp only at h
    generalize (if before = true then position else position + 1) = q at h
    split at h
    · cases h
      exact mem_machines_insertIdx (by omega)
    · cases h
      exact hend

namespace World

/-- The list `x` and the machine `m` are linked as list and member. -/
def Linked (w : World F M) (x m : M) : Prop := x ∈ w.depends m ∧ m ∈ w.listens x

variable [DecidableEq M]

section Primitives

variable (w : World F M) (a b : M)

@[simp]
theorem parameters_addDependancy : (w.addDependancy a b).parameters = w.parameters := by
  unfold addDependancy
  split <;> rfl

@[simp]
theorem listens_addDependancy : (w.addDependancy a b).listens = w.listens := by
  unfold addDependancy
  split <;> rfl

variable (x m : M)

@[simp]
theorem mem_depends_addDependancy :
    x ∈ (w.addDependancy a b).depends m ↔ x ∈ w.depends m ∨ (m = a ∧ x = b ∧ a ≠ b) := by
  unfold addDependancy
  split
  · rename_i h
    simp [h]
  · by_cases hm : m = a
    · subst hm
      simp only [update_self, Finset.mem_insert]
      tauto
    · simp [hm]

@[simp]
theorem parameters_removeDependancy : (w.removeDependancy a b).parameters = w.parameters := by
  unfold removeDependancy
  split <;> rfl

@[simp]
theorem listens_removeDependancy : (w.removeDependancy a b).listens = w.listens := by
  unfold removeDependancy
  split <;> rfl

@[simp]
theorem mem_depends_removeDependancy :
    x ∈ (w.removeDependancy a b).depends m ↔ x ∈ w.depends m ∧ ¬ (m = a ∧ x = b) := by
  unfold removeDependancy
  split
  · rename_i h
    subst h
    -- nothing depends on itself
    have := w.irrefl b
    constructor
    · intro hx
      refine ⟨hx, ?_⟩
      rintro ⟨rfl, rfl⟩
      exact this hx
    · exact fun hx => hx.1
  · by_cases hm : m = a
    · subst hm
      simp only [update_self, Finset.mem_erase]
      tauto
    · simp [hm]

@[simp]
theorem mem_listens_listenTo :
    m ∈ (w.listenTo a b).listens x ↔ m ∈ w.listens x ∨ (x = a ∧ m = b) := by
  by_cases hx : x = a
  · subst hx
    simp only [listenTo, update_self, Finset.mem_insert]
    tauto
  · simp [listenTo, hx]

@[simp]
theorem mem_listens_stopListening :
    m ∈ (w.stopListening a b).listens x ↔ m ∈ w.listens x ∧ ¬ (x = a ∧ m = b) := by
  by_cases hx : x = a
  · subst hx
    simp only [stopListening, update_self, Finset.mem_erase]
    tauto
  · simp [stopListening, hx]

@[simp]
theorem parameters_listenTo : (w.listenTo a b).parameters = w.parameters := rfl

@[simp]
theorem depends_listenTo : (w.listenTo a b).depends = w.depends := rfl

@[simp]
theorem parameters_stopListening : (w.stopListening a b).parameters = w.parameters := rfl

@[simp]
theorem depends_stopListening : (w.stopListening a b).depends = w.depends := rfl

@[simp]
theorem linked_setParameters (ps : List (Parameter F M)) (x m : M) :
    (w.setParameters a ps).Linked x m ↔ w.Linked x m := Iff.rfl

@[simp]
theorem linked_setState (st : String) (x m : M) : (w.setState a st).Linked x m ↔ w.Linked x m :=
  Iff.rfl

@[simp]
theorem parameters_setState (st : String) : (w.setState a st).parameters = w.parameters := rfl

end Primitives

variable {w : World F M} {x : M} {m z : M} (o : Option M)

@[simp]
theorem parameters_join : (w.join x o).parameters = w.parameters := by
  cases o <;> simp [join]

@[simp]
theorem parameters_part : (w.part x o).parameters = w.parameters := by
  cases o <;> simp [part]

@[simp]
theorem parameters_leave : (w.leave x o).parameters = w.parameters := by
  cases o <;> simp [leave]

variable {o : Option M}

theorem linked_join : (w.join x o).Linked z m ↔
      w.Linked z m ∨ z ≠ m ∧ ((z = x ∧ o = some m) ∨ (m = x ∧ o = some z)) := by
  cases o with
  | none => simp [join]
  | some y =>
    have := w.irrefl x
    simp only [join, Linked, mem_listens_listenTo, depends_listenTo, mem_depends_addDependancy,
      listens_addDependancy, some.injEq]
    grind

theorem linked_part : (w.part x o).Linked z m ↔
      w.Linked z m ∧ ¬ (z = x ∧ o = some m) ∧ ¬ (m = x ∧ o = some z) := by
  cases o with
  | none => simp [part]
  | some y =>
    simp only [part, Linked, mem_listens_stopListening, depends_stopListening,
      mem_depends_removeDependancy, listens_removeDependancy, some.injEq]
    grind

theorem linked_leave : (w.leave x o).Linked z m ↔
      w.Linked z m ∧ ¬ (z = x ∧ o = some m) ∧ ¬ (m = x ∧ o = some z) := by
  cases o with
  | none => simp [leave]
  | some y =>
    simp only [leave, Linked, mem_listens_stopListening, depends_stopListening,
      mem_depends_removeDependancy, listens_removeDependancy, some.injEq]
    grind

theorem clearEntry_spec (p : Parameter F M) : (clearEntry x w p).parameters = w.parameters ∧ ∀ z m,
      ((clearEntry x w p).Linked z m ↔ w.Linked z m ∧ ¬ (z = x ∧ p.machine = some m)) := by
  unfold clearEntry
  cases hp : p.machine with
  | none => simp
  | some y =>
    refine ⟨by simp, fun z m => ?_⟩
    simp only [Linked, mem_listens_stopListening, depends_stopListening,
      mem_depends_removeDependancy, listens_removeDependancy, some.injEq]
    grind

theorem clearEntries_spec (ps : List (Parameter F M)) :
    (ps.foldl (clearEntry x) w).parameters = w.parameters ∧ ∀ z m,
      ((ps.foldl (clearEntry x) w).Linked z m ↔ w.Linked z m ∧ ¬ (z = x ∧ m ∈ machines ps)) := by
  induction ps generalizing w with
  | nil => simp [machines]
  | cons p ps ih =>
    obtain ⟨hp, hl⟩ := clearEntry_spec (w := w) (x := x) p
    obtain ⟨hps, hls⟩ := ih (w := clearEntry x w p)
    refine ⟨hps.trans hp, fun z m => ?_⟩
    rw [foldl_cons, hls, hl, mem_machines_cons]
    tauto

theorem addParameter_spec {w' : World F M} {p : Parameter F M} {position : Int} {before : Bool}
    (h : w.addParameter x p position before = some w') :
    (∀ z, z ≠ x → w'.parameters z = w.parameters z) ∧
      (∀ m, m ∈ machines (w'.parameters x) ↔ p.machine = some m ∨ m ∈ machines (w.parameters x)) ∧
      ∀ z m, w'.Linked z m ↔
        w.Linked z m ∨ z ≠ m ∧ ((z = x ∧ p.machine = some m) ∨ (m = x ∧ p.machine = some z)) := by
  obtain ⟨ps, hps, hw'⟩ := map_eq_some_iff.mp h
  have hpar : w'.parameters = update w.parameters x ps := by
    rw [← hw']
    split
    · simp [setParameters]
    · simp [setParameters]
  have hlin : ∀ z m, w'.Linked z m ↔ ((w.setParameters x ps).join x p.machine).Linked z m := by
    intro z m
    rw [← hw']
    split
    · exact linked_setState _ _ _ _ _
    · rfl
  refine ⟨fun z hz => ?_, fun m => ?_, fun z m => ?_⟩
  · rw [hpar, update_of_ne hz]
  · rw [hpar, update_self, mem_machines_insert hps]
  · rw [hlin, linked_join, linked_setParameters]

theorem removeParameter_spec {which : Int} (h : 0 ≤ which) (hlt : which < (w.parameters x).length) :
    (w.removeParameter x which).parameters =
        update w.parameters x ((w.parameters x).eraseIdx which.toNat) ∧
      ∀ z m, (w.removeParameter x which).Linked z m ↔
        (w.part x (machineAt (w.parameters x) which.toNat)).Linked z m := by
  have hran : ¬ (which < 0 ∨ (w.parameters x).length ≤ which) := by omega
  rw [removeParameter, if_neg hran]
  simp only
  split
  · exact ⟨by simp [setParameters], fun z m => linked_setState _ _ _ _ _⟩
  · exact ⟨by simp [setParameters], fun z m => Iff.rfl⟩

end World

section Consistency

variable [DecidableEq M] {isList : M → Bool} {s t : System F M}

def Member (s : System F M) (x m : M) : Prop := m ∈ machines (s.parameters x)

/-- Machines are linked to the lists they are in and, as far as nothing else links them,
to no others. -/
def Consistent (isList : M → Bool) (s : System F M) : Prop :=
  ∀ x m, isList x → ¬ s.registered x m → (Member s x m ↔ s.toWorld.Linked x m)

def MembersRegistered (isList : M → Bool) (s : System F M) : Prop :=
  ∀ x y, isList x → isList y → y ≠ x → Member s x y → s.registered y x

variable {x : M} {p : Parameter F M} {r o : M → Prop} {ps : List (Parameter F M)} {w : World F M}

/-- When an operation keeps the links right. The entry that goes must be the only one of
its machine where the operation parts the list from the machine, and not the only one
where it does not; `TAKE LAST` parts the list from the machine of the first entry. -/
def Proper (s : System F M) (op : Operation F M) (_ : System F M) : Prop :=
  match op with
  | .addParameter x p _ _ => p.machine ≠ some x
  | .removeParameter x which =>
    ∀ m, 0 ≤ which → machineAt (s.parameters x) which.toNat = some m → ¬ s.registered x m →
      m ∉ machines ((s.parameters x).eraseIdx which.toNat)
  | .takeFirst x =>
    ∀ m, machineAt (s.parameters x) 0 = some m → ¬ s.registered x m →
      m ∉ machines (s.parameters x).tail
  | .takeLast x =>
    (s.parameters x).length ≤ 1 ∨
      (∀ m, machineAt (s.parameters x) 0 = some m → s.registered x m) ∧
      ∀ m, ((s.parameters x).getLast?).bind Parameter.machine = some m → ¬ s.registered x m →
        m ∈ machines (s.parameters x).dropLast
  | .takeItem x index =>
    ∀ m, 0 ≤ index → machineAt (s.parameters x) index.toNat = some m → ¬ s.registered x m →
      m ∈ machines ((s.parameters x).eraseIdx index.toNat)
  | .clear _ => True

structure Invariant (isList : M → Bool) (s : System F M) : Prop where
  consistent : Consistent isList s
  members : MembersRegistered isList s
  irrefl : ∀ x, ¬ s.registered x x

theorem add_consistent_iff {position : Int} {before : Bool} {w : World F M}
    (hs : Invariant isList s) (hx : isList x)
    (h : s.toWorld.addParameter x p position before = some w) :
    Consistent isList ⟨w, register isList s.registered x p⟩ ↔ p.machine ≠ some x := by
  obtain ⟨hfra, hmem, hlin⟩ := addParameter_spec h
  constructor
  · intro ht hsel
    -- a list that is its own member cannot be linked to itself
    have hnot : ¬ register isList s.registered x p x x := by
      intro hreg
      rcases hreg with hreg | ⟨-, -, -, hne⟩
      · exact hs.irrefl x hreg
      · exact hne rfl
    have hlik := (ht x x hx hnot).mp ((hmem x).mpr (.inl hsel))
    exact w.irrefl x hlik.1
  · intro hp z m hz hm
    have hold : ¬ s.registered z m := fun hreg => hm (.inl hreg)
    have hs' := hs.consistent z m hz hold
    rw [hlin z m, ← hs']
    by_cases hzx : z = x
    · subst hzx
      rw [Member, hmem m]
      constructor
      · rintro (hpm | hpm)
        · refine .inr ⟨?_, .inl ⟨rfl, hpm⟩⟩
          rintro rfl
          exact hp hpm
        · exact .inl hpm
      · rintro (hpm | ⟨-, ⟨-, hpm⟩ | ⟨rfl, hpm⟩⟩)
        · exact .inr hpm
        · exact .inl hpm
        · exact absurd hpm hp
    -- another list is linked by this step only if it is the new member
    · rw [Member, hfra z hzx]
      constructor
      · exact .inl
      · rintro (hmeb | ⟨-, ⟨hzx', -⟩ | ⟨hmx, hpm⟩⟩)
        · exact hmeb
        · exact absurd hzx' hzx
        · exact absurd (.inr ⟨hmx, hpm, hz, hzx⟩) hm

/-- Entries of the list `x` have gone, and it was parted from the members in `o`. The links
in the other direction, of lists among its members, may go or stay. -/
structure Parted (w w' : World F M) (x : M) (ps : List (Parameter F M)) (o : M → Prop) : Prop where
  parameters : w'.parameters = update w.parameters x ps
  remaining : machines ps ⊆ machines (w.parameters x)
  gone : ∀ m, o m → m ∈ machines (w.parameters x)
  linked : ∀ z m, w'.Linked z m → w.Linked z m ∧ ¬ (z = x ∧ o m)
  kept : ∀ z m, w.Linked z m → ¬ (z = x ∧ o m) → ¬ (m = x ∧ o z) → w'.Linked z m

theorem Parted.linked_iff (h : Parted s.toWorld w x ps o) (hs : Invariant isList s) (hx : isList x)
    {z m : M} (hz : isList z) (hm : ¬ s.registered z m) :
    w.Linked z m ↔ s.toWorld.Linked z m ∧ ¬ (z = x ∧ o m) := by
  refine ⟨h.linked z m, fun hl => h.kept z m hl.1 hl.2 ?_⟩
  -- a list among the members of `x` has registered there, so its links are not looked at
  rintro ⟨rfl, ho⟩
  by_cases hzm : z = m
  · subst hzm
    exact s.toWorld.irrefl z hl.1.1
  · exact hm (hs.members m z hx hz hzm (h.gone z ho))

/-- The one argument for all operations but `addParameter`: the machines that the list is
parted from have to be the members that have left. -/
theorem Parted.sound (h : Parted s.toWorld w x ps o) (hs : Invariant isList s) (hx : isList x) :
    (Consistent isList ⟨w, s.registered⟩ ↔ ∀ m, ¬ s.registered x m →
      (m ∈ machines ps ↔ m ∈ machines (s.parameters x) ∧ ¬ o m)) ∧
      MembersRegistered isList ⟨w, s.registered⟩ := by
  have hpar : w.parameters x = ps := by rw [h.parameters, update_self]
  have hfra : ∀ z, z ≠ x → w.parameters z = s.parameters z := by
    intro z hz
    rw [h.parameters, update_of_ne hz]
  refine ⟨⟨fun ht m hm => ?_, fun hps z m hz hm => ?_⟩, fun z y hz hy hne hmem => ?_⟩
  · have hmem : m ∈ machines (w.parameters x) ↔ w.Linked x m := ht x m hx hm
    rw [← hpar, hmem, h.linked_iff hs hx hx hm, ← hs.consistent x m hx hm, Member]
    simp
  · show m ∈ machines (w.parameters z) ↔ w.Linked z m
    rw [h.linked_iff hs hx hz hm, ← hs.consistent z m hz hm, Member]
    by_cases hzx : z = x
    · subst hzx
      simpa [hpar] using hps m hm
    · rw [hfra z hzx]
      simp [hzx]
  · refine hs.members z y hz hy hne ?_
    replace hmem : y ∈ machines (w.parameters z) := hmem
    by_cases hzx : z = x
    · subst hzx
      exact h.remaining (hpar ▸ hmem)
    · rwa [hfra z hzx] at hmem

omit [DecidableEq M] in
theorem erase_parted_iff (ps : List (Parameter F M)) (i : ℕ) :
    (∀ m, ¬ r m → (m ∈ machines (ps.eraseIdx i) ↔ m ∈ machines ps ∧ ¬ machineAt ps i = some m)) ↔
      ∀ m, machineAt ps i = some m → ¬ r m → m ∉ machines (ps.eraseIdx i) := by
  constructor
  · intro h m hm hr hmem
    exact ((h m hr).mp hmem).2 hm
  · intro h m hr
    by_cases hm : machineAt ps i = some m
    · exact iff_of_false (h m hm hr) fun hmem => hmem.2 hm
    · rw [mem_machines_eraseIdx hm, and_iff_left hm]

omit [DecidableEq M] in
theorem erase_kept_iff {i : ℕ} :
    (∀ m, ¬ r m → (m ∈ machines (ps.eraseIdx i) ↔ m ∈ machines ps ∧ ¬ False)) ↔
      ∀ m, machineAt ps i = some m → ¬ r m → m ∈ machines (ps.eraseIdx i) := by
  constructor
  · intro h m hm hr
    exact (h m hr).mpr ⟨mem_machines_of_machineAt hm, not_false⟩
  · intro h m hr
    rw [and_iff_left not_false]
    by_cases hm : machineAt ps i = some m
    · exact iff_of_true (h m hm hr) (mem_machines_of_machineAt hm)
    · exact mem_machines_eraseIdx hm

theorem leave_parted (hps : w.parameters x = p :: ps) {qs : List (Parameter F M)}
    (hqs : machines qs ⊆ machines (p :: ps)) :
    Parted w ((w.leave x p.machine).setParameters x qs) x qs (p.machine = some ·) where
  parameters := by simp [setParameters]
  remaining := hps ▸ hqs
  gone m hm := hps ▸ mem_machines_cons.mpr (.inl hm)
  linked z m h := by
    rw [linked_setParameters, linked_leave] at h
    exact ⟨h.1, h.2.1⟩
  kept z m h hzm hmz := by
    rw [linked_setParameters, linked_leave]
    exact ⟨h, hzm, hmz⟩

/-- What a step has to keep, if it is right exactly when `P` holds. -/
def Sound (isList : M → Bool) (t : System F M) (P : Prop) : Prop :=
  (Consistent isList t ↔ P) ∧ MembersRegistered isList t

omit [DecidableEq M] in
theorem Invariant.sound {P : Prop} (hs : Invariant isList s) (hP : P) : Sound isList s P :=
  ⟨iff_of_true hs.consistent hP, hs.members⟩

theorem remove_sound (which : Int) (hs : Invariant isList s) (hx : isList x) :
    Sound isList ⟨s.toWorld.removeParameter x which, s.registered⟩
      (Proper s (.removeParameter x which) s) := by
  by_cases hran : 0 ≤ which ∧ which < (s.parameters x).length
  · obtain ⟨hpar, hlin⟩ := removeParameter_spec hran.1 hran.2
    have hpat : Parted s.toWorld (s.toWorld.removeParameter x which) x
        ((s.parameters x).eraseIdx which.toNat)
        (machineAt (s.parameters x) which.toNat = some ·) := by
      refine ⟨hpar, fun _ => machines_eraseIdx_subset, fun m => mem_machines_of_machineAt, ?_, ?_⟩
      · intro z m h
        rw [hlin, linked_part] at h
        exact ⟨h.1, h.2.1⟩
      · intro z m h hzm hmz
        rw [hlin, linked_part]
        exact ⟨h, hzm, hmz⟩
    refine (hpat.sound hs hx).imp_left fun h => h.trans ?_
    rw [erase_parted_iff]
    exact forall_congr' fun m => ⟨fun h _ => h, fun h => h hran.1⟩
  · have hout : which < 0 ∨ (s.parameters x).length ≤ which := by omega
    rw [removeParameter, if_pos hout]
    refine hs.sound fun m h0 hm => ?_
    have hlt := lt_length_of_machineAt hm
    omega

theorem takeFirst_sound (hs : Invariant isList s) (hx : isList x) :
    Sound isList ⟨(s.toWorld.takeFirst x).2, s.registered⟩ (Proper s (.takeFirst x) s) := by
  simp only [takeFirst, Proper]
  cases hps : s.parameters x with
  | nil => exact hs.sound fun m hm => nomatch hm
  | cons p ps =>
    have hsub : machines ps ⊆ machines (p :: ps) := fun m h => mem_machines_cons.mpr (.inr h)
    refine ((leave_parted hps hsub).sound hs hx).imp_left fun h => h.trans ?_
    rw [hps]
    exact erase_parted_iff (p :: ps) 0

theorem takeItem_sound (index : Int) (hs : Invariant isList s) (hx : isList x) :
    Sound isList ⟨(s.toWorld.takeItem x index).2, s.registered⟩
      (Proper s (.takeItem x index) s) := by
  unfold takeItem Proper
  split_ifs with hran
  · have hpar : Parted s.toWorld
        (s.toWorld.setParameters x ((s.parameters x).eraseIdx index.toNat)) x
        ((s.parameters x).eraseIdx index.toNat) (fun _ => False) :=
      ⟨rfl, fun _ => machines_eraseIdx_subset, fun _ => False.elim, fun z m h => ⟨h, by simp⟩,
        fun z m h _ _ => h⟩
    refine (hpar.sound hs hx).imp_left fun h => h.trans ?_
    rw [erase_kept_iff]
    exact forall_congr' fun m => ⟨fun h _ => h, fun h => h hran.1⟩
  · refine hs.sound fun m h0 hm => ?_
    have hlt := lt_length_of_machineAt hm
    omega

omit [DecidableEq M] in
theorem last_parted_iff : (∀ m, ¬ r m → (m ∈ machines (p :: ps).dropLast ↔
      m ∈ machines (p :: ps) ∧ ¬ p.machine = some m)) ↔
      (p :: ps).length ≤ 1 ∨ (∀ m, p.machine = some m → r m) ∧
        ∀ m, ((p :: ps).getLast?).bind Parameter.machine = some m → ¬ r m →
          m ∈ machines (p :: ps).dropLast := by
  cases ps with
  | nil => simp [machines]
  | cons q qs =>
    have hlen : ¬ (p :: q :: qs).length ≤ 1 := by simp
    have hfir : ∀ m, p.machine = some m → m ∈ machines (p :: q :: qs).dropLast := by
      intro m hm
      rw [dropLast_cons_cons, mem_machines_cons]
      exact .inl hm
    obtain ⟨a, ha⟩ : ∃ a, (p :: q :: qs).getLast? = some a :=
      ⟨_, getLast?_eq_some_getLast (by simp)⟩
    obtain ⟨ys, hys⟩ := getLast?_eq_some_iff.mp ha
    have hmem : ∀ m, m ∈ machines (p :: q :: qs) ↔
        m ∈ machines (p :: q :: qs).dropLast ∨ a.machine = some m := by
      intro m
      rw [hys, mem_machines_append, mem_machines_cons]
      simp [machines]
    rw [or_iff_right hlen, ha]
    constructor
    · intro h
      -- the first entry is still a member, but is the one that was left
      have hreg : ∀ m, p.machine = some m → r m := by
        intro m hm
        by_contra hr
        exact ((h m hr).mp (hfir m hm)).2 hm
      refine ⟨hreg, fun m hm hr => ?_⟩
      exact (h m hr).mpr ⟨(hmem m).mpr (.inr hm), fun hp => hr (hreg m hp)⟩
    · rintro ⟨hreg, hlas⟩ m hr
      have hp : ¬ p.machine = some m := fun hp => hr (hreg m hp)
      rw [and_iff_left hp, hmem]
      exact ⟨.inl, fun h => h.elim id fun hm => hlas m hm hr⟩

theorem takeLast_sound (hs : Invariant isList s) (hx : isList x) :
    Sound isList ⟨(s.toWorld.takeLast x).2, s.registered⟩ (Proper s (.takeLast x) s) := by
  simp only [takeLast, Proper]
  cases hps : s.parameters x with
  | nil => exact hs.sound (.inl (Nat.zero_le _))
  | cons p ps =>
    have hsub : machines (p :: ps).dropLast ⊆ machines (p :: ps) :=
      ((dropLast_sublist _).filterMap _).subset
    refine ((leave_parted hps hsub).sound hs hx).imp_left fun h => h.trans ?_
    rw [hps]
    exact last_parted_iff

theorem clear_sound (hs : Invariant isList s) (hx : isList x) :
    Sound isList ⟨s.toWorld.clear x, s.registered⟩ True := by
  obtain ⟨hpar, hlin⟩ := clearEntries_spec (w := s.toWorld) (x := x) (s.parameters x)
  have hpat : Parted s.toWorld (s.toWorld.clear x) x [] (· ∈ machines (s.parameters x)) :=
    ⟨by rw [clear, setParameters, hpar], fun m h => absurd h not_mem_nil, fun m => id,
      fun z m => (hlin z m).mp, fun z m h hzm _ => (hlin z m).mpr ⟨h, hzm⟩⟩
  refine (hpat.sound hs hx).imp_left fun h => h.trans ?_
  simp [machines]

theorem add_members {position : Int} {before : Bool} {w : World F M}
    (hs : MembersRegistered isList s) (h : s.toWorld.addParameter x p position before = some w) :
    MembersRegistered isList ⟨w, register isList s.registered x p⟩ := by
  obtain ⟨hfra, hmem, -⟩ := addParameter_spec h
  intro z y hz hy hne hmeb
  have hmeb' : y ∈ machines (w.parameters z) := hmeb
  by_cases hzx : z = x
  · subst hzx
    rcases (hmem y).mp hmeb' with hp | hold
    · exact .inr ⟨rfl, hp, hy, hne⟩
    · exact .inl (hs z y hz hy hne hold)
  · rw [hfra z hzx] at hmeb'
    exact .inl (hs z y hz hy hne hmeb')

theorem step_sound {op : Operation F M} (hs : Invariant isList s) (hste : Step isList s op t) :
    Sound isList t (Proper s op t) := by
  cases hste with
  | addParameter hx h => exact ⟨add_consistent_iff hs hx h, add_members hs.members h⟩
  | removeParameter which hx => exact remove_sound which hs hx
  | takeFirst hx => exact takeFirst_sound hs hx
  | takeLast hx => exact takeLast_sound hs hx
  | takeItem index hx => exact takeItem_sound index hs hx
  | clear hx => exact clear_sound hs hx

theorem step_invariant {op : Operation F M} (hs : Invariant isList s) (hste : Step isList s op t)
    (ht : Consistent isList t) : Invariant isList t := by
  refine ⟨ht, (step_sound hs hste).2, ?_⟩
  cases hste with
  | addParameter hx h =>
    rintro y (hreg | ⟨hyx, -, -, hne⟩)
    · exact hs.irrefl y hreg
    · exact hne hyx
  | _ => exact hs.irrefl

omit [DecidableEq M] in
theorem start_invariant (w : World F M) (isList : M → Bool) :
    Invariant isList (System.start w isList) := by
  have hemp : ∀ x, isList x → (System.start w isList).parameters x = [] := by
    intro x hx
    simp [System.start, hx]
  refine ⟨fun x m hx hm => ?_, fun x y hx _ _ hmem => ?_, fun x hreg => w.irrefl x hreg.1⟩
  · rw [Member, hemp x hx]
    exact iff_of_false not_mem_nil hm
  · rw [Member, hemp x hx] at hmem
    cases hmem

/-- The runs in which membership and links agree in every state are those in which every
operation is proper. -/
theorem consistent_run_iff (w : World F M) (isList : M → Bool) (ops : List (Operation F M))
    (s : System F M) : Runs.Run (Runs.Guarded (Step isList) fun _ _ t => Consistent isList t)
        (System.start w isList) ops s ↔
      Runs.Run (Runs.Guarded (Step isList) Proper) (System.start w isList) ops s := by
  refine Runs.run_guarded_congr (I := Invariant isList) ?_ ?_ (start_invariant w isList)
  · exact fun s op t hs hste => (step_sound hs hste).1
  · exact fun s op t hs hste ht => step_invariant hs hste ht

end Consistency

def threeMachines : World ℚ (Fin 3) where
  parameters _ := []
  depends _ := ∅
  listens _ := ∅
  currentState _ := "empty"
  irrefl _ := Finset.notMem_empty _

def entryOf (m : Fin 3) : Parameter ℚ (Fin 3) := ⟨.symbol "m" none, "m", some m⟩

/-- After `TAKE LAST` the list is still linked to the machine it gave away, and no longer
listens to the one it kept. -/
theorem takeLast_parts_from_first : ∃ s : System ℚ (Fin 3),
      Runs.Run (Step (· = 0)) (System.start threeMachines (· = 0))
        [.addParameter 0 (entryOf 1) (-1) false, .addParameter 0 (entryOf 2) (-1) false,
          .takeLast 0] s ∧ ¬ s.registered 0 1 ∧ Member s 0 1 ∧ ¬ s.toWorld.Linked 0 1 ∧
      ¬ s.registered 0 2 ∧ ¬ Member s 0 2 ∧ s.toWorld.Linked 0 2 := by
  refine ⟨_, .cons (.addParameter rfl rfl) (.cons (.addParameter rfl rfl)
    (.cons (.takeLast rfl) (.nil _))), ?_, ?_, ?_, ?_, ?_, ?_⟩
  · simp [register, System.start, threeMachines]
  · unfold Member
    decide
  · unfold World.Linked
    decide
  · simp [register, System.start, threeMachines]
  · unfold Member
    decide
  · unfold World.Linked
    decide

end Clockwork.Lists
