import Mathlib.Data.Fintype.Pi

namespace Clockwork.BufferMonitor

open List

structure Monitor where
  name : String
  group : ℕ
  address : ℕ
  len : ℕ
deriving DecidableEq

/-- The addresses are of type `unsigned int`: the sums wrap around. -/
def Monitor.Owns (m : Monitor) (adr : ℕ) : Prop :=
  ∃ i < m.len, (m.group * 65536 + m.address + i) % 2 ^ 32 = adr % 2 ^ 32

instance (m : Monitor) (adr : ℕ) : Decidable (m.Owns adr) :=
  inferInstanceAs (Decidable (∃ i < m.len, _))

/-- `add`, called for one monitor after the other. -/
def addresses (ms : List Monitor) : ℕ → Option Monitor :=
  ms.foldl (fun map m adr => if m.Owns adr then some m else map adr) fun _ => none

def Disjoint (ms : List Monitor) : Prop :=
  ms.Pairwise fun m m' => ∀ adr, m.Owns adr → ¬m'.Owns adr

theorem addresses_eq_some {ms : List Monitor} (h : Disjoint ms) {adr : ℕ} {m : Monitor} :
    addresses ms adr = some m ↔ m ∈ ms ∧ m.Owns adr := by
  induction ms using reverseRecOn with
  | nil => simp [addresses]
  | append_singleton ms m' ih =>
    obtain ⟨hms, -, hm'⟩ := pairwise_append.mp h
    have hlas : addresses (ms ++ [m']) adr =
        if m'.Owns adr then some m' else addresses ms adr := by
      simp [addresses]
    rw [hlas]
    have hmem : m ∈ ms ++ [m'] ↔ m ∈ ms ∨ m = m' := by simp
    rw [hmem]
    split_ifs with hown
    · have hoth : m ∈ ms → ¬m.Owns adr := fun hm h => hm' m hm m' (by simp) adr h hown
      constructor
      · rintro ⟨⟩
        exact ⟨.inr rfl, hown⟩
      · rintro ⟨hm | rfl, h⟩
        · exact absurd h (hoth hm)
        · rfl
    · rw [ih hms]
      constructor
      · exact fun ⟨hm, h⟩ => ⟨.inl hm, h⟩
      · rintro ⟨hm | rfl, hadr⟩
        · exact ⟨hm, hadr⟩
        · exact absurd hadr hown

/-- A cell of `w` bytes. -/
abbrev Cell (w : ℕ) := Fin w → UInt8

variable {w : ℕ}

def blank : Cell w := fun _ => 0

/-- A call of `check`, with what freshly allocated memory holds. -/
structure Call (w : ℕ) where
  size : ℕ
  base : ℕ
  data : ℕ → Cell w
  garbage : ℕ → UInt8

structure State (w : ℕ) where
  buflen : ℕ
  cmpData : ℕ → Cell w
  /-- The buffers were deleted for a size of 0; the pointers to them are still there. -/
  freed : Bool

/-- `cmp_data` at the comparison: after a resize `size` bytes of it are cleared. -/
def State.compared (s : State w) (c : Call w) (i : ℕ) : Cell w :=
  if c.size = s.buflen then s.cmpData i
  else fun k => if w * i + k < c.size then 0 else c.garbage (w * i + k)

/-- `check`; `none` is deleting the buffers a second time. -/
def check (ms : List Monitor) (s : State w) (c : Call w) : Option (State w × List Monitor) :=
  if c.size ≠ s.buflen ∧ s.freed then none
  else some (⟨c.size, c.data, s.freed || (c.size = 0 && s.buflen ≠ 0)⟩,
    ((List.range c.size).filter fun i => decide (s.compared c i ≠ c.data i)).filterMap fun i =>
      addresses ms (c.base + i))

/-- The last value seen at each address since the buffer was resized; a range that wraps around is
counted on here. -/
structure Seen (w : ℕ) where
  size : ℕ
  value : ℕ → Cell w

def Seen.before (t : Seen w) (c : Call w) (adr : ℕ) : Cell w :=
  if c.size = t.size then t.value adr else blank

def Seen.next (t : Seen w) (c : Call w) : Seen w :=
  ⟨c.size, fun adr => if c.base ≤ adr ∧ adr < c.base + c.size then c.data (adr - c.base)
    else t.before c adr⟩

def Seen.Reports (t : Seen w) (ms : List Monitor) (c : Call w) (m : Monitor) : Prop :=
  m ∈ ms ∧ ∃ i < c.size, m.Owns (c.base + i) ∧ t.before c (c.base + i) ≠ c.data i

/-- Every call of a sequence reports what it should. -/
def Right (ms : List Monitor) : State w → Seen w → List (Call w) → Prop
  | _, _, [] => True
  | s, t, c :: cs => ∃ s' changes, check ms s c = some (s', changes) ∧
      (∀ m, m ∈ changes ↔ t.Reports ms c m) ∧ Right ms s' (t.next c) cs

/-- What the sizes and bases of the calls so far leave. -/
structure Shape where
  buflen : ℕ
  base : ℕ
  freed : Bool

def Shape.next (p : Shape) (size base : ℕ) : Shape :=
  ⟨size, base, p.freed || (size = 0 && p.buflen ≠ 0)⟩

/-- A call keeps the size and, if its range has an owner, the base of the call before it; or it
changes the size of buffers that are still there, and the owned cells are cleared. -/
def Sound (w : ℕ) (ms : List Monitor) : Shape → List (ℕ × ℕ) → Prop
  | _, [] => True
  | p, (size, base) :: calls =>
    (if size = p.buflen then ∀ i < size, (∃ m ∈ ms, m.Owns (base + i)) → base = p.base
      else p.freed = false ∧ ∀ i < size, (∃ m ∈ ms, m.Owns (base + i)) → w * (i + 1) ≤ size) ∧
    Sound w ms (p.next size base) calls

variable {ms : List Monitor} {s : State w} {t : Seen w} {c : Call w} {p : Shape}

structure Agree (p : Shape) (s : State w) (t : Seen w) : Prop where
  buflen : s.buflen = p.buflen
  freed : s.freed = p.freed
  size : t.size = p.buflen
  value : ∀ i < p.buflen, s.cmpData i = t.value (p.base + i)

open Shape

theorem Agree.next (c : Call w) : Agree (p.next c.size c.base)
    ⟨c.size, c.data, (p.next c.size c.base).freed⟩ (t.next c) := by
  refine ⟨rfl, rfl, rfl, fun i hi => ?_⟩
  have hi : i < c.size := hi
  simp [Seen.next, Shape.next, hi]

theorem Agree.check (h : Agree p s t) (hms : Disjoint ms)
    (hfre : c.size = p.buflen ∨ p.freed = false) :
    ∃ changes, check ms s c =
        some (⟨c.size, c.data, (p.next c.size c.base).freed⟩, changes) ∧
      ∀ m, m ∈ changes ↔ m ∈ ms ∧ ∃ i < c.size, m.Owns (c.base + i) ∧
        s.compared c i ≠ c.data i := by
  have hdef : ¬(c.size ≠ s.buflen ∧ s.freed = true) := by
    rw [h.buflen, h.freed]
    rcases hfre with hsiz | hfre
    · simp [hsiz]
    · simp [hfre]
  refine ⟨_, by rw [BufferMonitor.check, if_neg hdef, Shape.next, h.buflen, h.freed], fun m => ?_⟩
  simp only [mem_filterMap, mem_filter, mem_range, decide_eq_true_eq, addresses_eq_some hms]
  constructor
  · rintro ⟨i, ⟨hi, hne⟩, hm, hown⟩
    exact ⟨hm, i, hi, hown, hne⟩
  · rintro ⟨hm, i, hi, hown, hne⟩
    exact ⟨i, ⟨hi, hne⟩, hm, hown⟩

theorem right_of_sound (hms : Disjoint ms) {calls : List (Call w)} (h : Agree p s t)
    (hsou : Sound w ms p (calls.map fun c => (c.size, c.base))) : Right ms s t calls := by
  induction calls generalizing p s t with
  | nil => trivial
  | cons c calls ih =>
    obtain ⟨hhea, htai⟩ := hsou
    have hfre : c.size = p.buflen ∨ p.freed = false := by
      by_cases hsiz : c.size = p.buflen
      · exact .inl hsiz
      · rw [if_neg hsiz] at hhea
        exact .inr hhea.1
    obtain ⟨changes, hche, hcha⟩ := h.check hms hfre
    refine ⟨_, changes, hche, fun m => ?_, ih (.next c) htai⟩
    rw [hcha]
    refine and_congr_right fun hm => exists_congr fun i => and_congr_right fun hi =>
      and_congr_right fun hown => ?_
    -- at an owned cell both compare with the same value
    have hcel : s.compared c i = t.before c (c.base + i) := by
      rw [State.compared, Seen.before, h.buflen, h.size]
      split_ifs at hhea ⊢ with hsiz
      · rw [hhea i hi ⟨m, hm, hown⟩, h.value i (hsiz ▸ hi)]
      · funext k
        have hcle := hhea.2 i hi ⟨m, hm, hown⟩
        have hk : w * i + k < c.size := by
          rw [Nat.mul_succ] at hcle
          omega
        simp [hk, blank]
    rw [hcel]

-- Conversely, let the last call have seen one value at one address and blanks elsewhere.

def cells (a : ℕ) (v : Cell w) (adr : ℕ) : Cell w := if adr = a then v else blank

@[simp] theorem cells_blank (a adr : ℕ) : cells a blank adr = (blank : Cell w) := by simp [cells]

def Shape.state (p : Shape) (a : ℕ) (v : Cell w) : State w :=
  ⟨p.buflen, fun i => cells a v (p.base + i), p.freed⟩

def Shape.seen (p : Shape) (a : ℕ) (v : Cell w) : Seen w := ⟨p.buflen, cells a v⟩

theorem agree_cells (p : Shape) (a : ℕ) (v : Cell w) : Agree p (p.state a v) (p.seen a v) :=
  ⟨rfl, rfl, rfl, fun _ _ => rfl⟩

theorem of_right_cons (hms : Disjoint ms) (h : Agree p s t) {calls : List (Call w)}
    (hrig : Right ms s t (c :: calls)) :
    (c.size = p.buflen ∨ p.freed = false) ∧
    ((∀ i < c.size, t.before c (c.base + i) = c.data i) →
      ∀ i < c.size, (∃ m ∈ ms, m.Owns (c.base + i)) → s.compared c i = c.data i) ∧
    Right ms ⟨c.size, c.data, (p.next c.size c.base).freed⟩ (t.next c) calls := by
  obtain ⟨s', changes, hche, hrep, htai⟩ := hrig
  have hfre : c.size = p.buflen ∨ p.freed = false := by
    by_contra hnot
    rw [not_or, Bool.not_eq_false] at hnot
    rw [check, if_pos (by rwa [h.buflen, h.freed])] at hche
    cases hche
  obtain ⟨changes', hche', hcha⟩ := h.check hms hfre
  obtain ⟨rfl, rfl⟩ := Prod.mk.inj (Option.some.inj (hche'.symm.trans hche))
  refine ⟨hfre, fun hsam i hi ⟨m, hm, hown⟩ => ?_, htai⟩
  by_contra hne
  obtain ⟨-, j, hj, -, hsee⟩ := (hrep m).mp ((hcha m).mpr ⟨hm, i, hi, hown, hne⟩)
  exact hsee (hsam j hj)

theorem next_cells {size base a : ℕ} {v : Cell w} (hv : v ≠ blank → base ≤ a ∧ a < base + size)
    (garbage : ℕ → UInt8) :
    (p.seen 0 blank).next ⟨size, base, fun i => cells a v (base + i), garbage⟩ =
      (p.next size base).seen a v := by
  simp only [Seen.next, Seen.before, seen, Shape.next, Seen.mk.injEq, true_and, cells_blank]
  funext adr
  rw [ite_self]
  split_ifs with hadr
  · rw [Nat.add_sub_of_le hadr.1]
  · unfold cells
    split_ifs with ha
    · by_contra hne
      exact hadr (ha ▸ hv (Ne.symm hne))
    · rfl

theorem sound_of_right (hw : 0 < w) (hms : Disjoint ms) {calls : List (ℕ × ℕ)}
    (h : ∀ a (v : Cell w), (v ≠ blank → p.base ≤ a ∧ a < p.base + p.buflen) →
      ∀ cs : List (Call w), cs.map (fun c => (c.size, c.base)) = calls →
        Right ms (p.state a v) (p.seen a v) cs) : Sound w ms p calls := by
  induction calls generalizing p with
  | nil => trivial
  | cons call calls ih =>
    obtain ⟨size, base⟩ := call
    let blanks := calls.map fun call : ℕ × ℕ =>
      (⟨call.1, call.2, fun _ => blank, fun _ => 0⟩ : Call w)
    have hbla : blanks.map (fun c => (c.size, c.base)) = calls := by
      simp [blanks, Function.comp_def]
    have hcal : ∀ a (v : Cell w), (v ≠ blank → p.base ≤ a ∧ a < p.base + p.buflen) →
        ∀ data garbage, _ := fun a v hv data garbage =>
      of_right_cons (c := ⟨size, base, data, garbage⟩) hms (agree_cells p a v)
        (h a v hv (_ :: blanks) (by rw [map_cons, hbla]))
    refine ⟨?_, ih fun a v hv cs hcs => ?_⟩
    · split_ifs with hsiz
      · intro i hi hown
        by_contra hbas
        -- the cell compared holds the value of another address
        have hi' : p.base ≤ p.base + i ∧ p.base + i < p.base + p.buflen := by omega
        have hsam := (hcal (p.base + i) (fun _ => 255) (fun _ => hi')
          (fun k => cells (p.base + i) (fun _ => 255) (base + k)) fun _ => 0).2.1
          (fun k _ => by simp [Seen.before, seen, hsiz]) i hi hown
        simp only [State.compared, state, hsiz, if_true, cells, Nat.add_right_cancel_iff,
          hbas, if_false] at hsam
        exact absurd (congrFun hsam ⟨0, hw⟩) (by simp [blank])
      · have hzer := hcal 0 blank (fun h => absurd rfl h) (fun _ => blank) fun _ => 255
        refine ⟨hzer.1.resolve_left hsiz, fun i hi hown => ?_⟩
        by_contra hlon
        -- the last byte of the cell was not cleared
        have hsam := hzer.2.1 (fun k _ => by simp [Seen.before, seen, cells]) i hi hown
        have hlas : ¬w * i + (w - 1) < size := by
          rw [Nat.mul_succ] at hlon
          omega
        have hbyt := congrFun hsam ⟨w - 1, by omega⟩
        simp [State.compared, state, hsiz, hlas, blank] at hbyt
    · have htai := (of_right_cons (c := ⟨size, base, fun i => cells a v (base + i), fun _ => 0⟩)
        hms (agree_cells p 0 blank) (h 0 blank (fun h => absurd rfl h) (_ :: cs)
          (by rw [map_cons, hcs]))).2.2
      exact next_cells hv _ ▸ htai

/-- Whatever the calls read, they report the changed monitors exactly when their sizes and bases
are sound. -/
theorem check_right_iff (hw : 0 < w) (hms : Disjoint ms) (calls : List (ℕ × ℕ)) :
    (∀ cs : List (Call w), cs.map (fun c => (c.size, c.base)) = calls →
      Right ms ⟨0, fun _ => blank, false⟩ ⟨0, fun _ => blank⟩ cs) ↔
    Sound w ms ⟨0, 0, false⟩ calls := by
  constructor
  · intro h
    refine sound_of_right hw hms fun a v hv cs hcs => ?_
    obtain rfl : v = blank := by
      by_contra hne
      exact absurd (hv hne).2 (Nat.not_lt.mpr (hv hne).1)
    have hcel : cells a blank = fun _ => (blank : Cell w) := funext (cells_blank a)
    simpa [state, seen, hcel] using h cs hcs
  · rintro h cs rfl
    exact right_of_sound hms ⟨rfl, rfl, rfl, fun i hi => absurd hi i.not_lt_zero⟩ h

theorem check_right_twice :
    Right [⟨"speed", 4, 0, 1⟩] ⟨0, fun _ => blank, false⟩ ⟨0, fun _ => blank⟩
      [⟨2, 262144, fun _ => (blank : Cell 2), fun _ => 7⟩,
        ⟨2, 262144, fun _ _ => 1, fun _ => 7⟩] := by
  refine (check_right_iff (by decide) (pairwise_singleton _ _)
    [(2, 262144), (2, 262144)]).mpr ⟨⟨rfl, ?_⟩, fun _ _ _ => rfl, trivial⟩ _ rfl
  rintro i hi ⟨m, hm, k, hk, hown⟩
  obtain rfl := mem_singleton.mp hm
  dsimp only at hk hown
  omega

/-- With 16-bit cells the second cell of a new buffer is compared with what the memory held. -/
theorem second_cell_not_cleared :
    ¬Right [⟨"speed", 0, 1, 1⟩] ⟨0, fun _ => blank, false⟩ ⟨0, fun _ => blank⟩
      [⟨2, 0, fun _ => (blank : Cell 2), fun _ => 255⟩] := by
  rintro ⟨s', changes, hche, hrep, -⟩
  obtain ⟨-, rfl⟩ := Prod.mk.inj (Option.some.inj hche)
  obtain ⟨-, i, -, -, hne⟩ := (hrep ⟨"speed", 0, 1, 1⟩).mp (by decide)
  exact hne rfl

end Clockwork.BufferMonitor
