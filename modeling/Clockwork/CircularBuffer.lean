import Clockwork.Library.RingBuffer
import Mathlib.Data.Rat.Cast.Order
import Mathlib.Algebra.Order.Group.Unbundled.Abs

-- The circular buffer of timed samples (`buffering.c`), with exact arithmetic for `double`.

namespace Clockwork

open List

/-- The arrays `values` and `times` are the two halves of the cells. The `unsigned int` arithmetic
of the places does not wrap, as a size is an `int`. -/
structure CircularBuffer (K : Type*) extends RingBuffer (K × UInt64) where
  total : K

namespace CircularBuffer

variable {K : Type} [Field K]

/-- The memory that `malloc` returns has some content. -/
def createBuffer (size : ℤ) (memory : ℤ → K × UInt64) : Option (CircularBuffer K) :=
  if size ≤ 0 then none else some ⟨.new size.toNat memory, 0⟩

def stored (sample : Int64 × K) : K × UInt64 := (sample.2, sample.1.toUInt64)

variable (buf : CircularBuffer K)

def addSample (sample : Int64 × K) : CircularBuffer K where
  toRingBuffer := buf.push (stored sample)
  total :=
    (if buf.next = buf.back then buf.total - (buf.cells buf.next).1 else buf.total) + sample.2

abbrev bufferLength : ℤ := buf.length

/-- An access to an empty buffer aborts. -/
def bufferIndexFor (i : ℤ) : Option ℤ :=
  if buf.bufferLength = 0 then none
  else if buf.bufferLength ≤ i then some buf.back
  else some (buf.place i)

def getBufferValue (n : ℤ) : Option K :=
  (buf.bufferIndexFor n).map fun idx => (buf.cells idx).1

def getBufferTime (n : ℤ) : Option Int64 :=
  (buf.bufferIndexFor n).map fun idx => (buf.cells idx).2.toInt64

/-- A loop that counts down to zero and adds up what it reads. -/
def sumDown {A : Type*} [AddCommMonoid A] (read : ℕ → Option A) (n : ℕ) : Option A :=
  (range n).reverse.foldlM (fun tot i => (read i).map (tot + ·)) 0

def bufferSum (n : ℤ) : Option K :=
  sumDown (buf.getBufferValue ·) (min buf.bufferLength n).toNat

/-- The buffer holds the samples, newest first. -/
structure Retains (recent : List (K × UInt64)) : Prop extends
    buf.toRingBuffer.Holds recent where
  total : buf.total = (recent.map Prod.fst).sum

/-- Every created buffer holds the last samples, whatever was added. -/
theorem created_retains {size : ℤ} (h : 1 ≤ size) (memory : ℤ → K × UInt64)
    (samples : List (Int64 × K)) :
    ∃ buf, (createBuffer size memory).map (samples.foldl addSample) = some buf ∧
      buf.size = size.toNat ∧ buf.Retains ((samples.reverse.take size.toNat).map stored) := by
  refine ⟨_, by rw [createBuffer, if_neg (by omega), Option.map_some], ?_⟩
  have hstep (buf : CircularBuffer K) (recent) (sample)
      (h : buf.size = size.toNat ∧ buf.Retains recent) :
      (buf.addSample sample).size = size.toNat ∧
        (buf.addSample sample).Retains ((stored sample :: recent).take size.toNat) := by
    obtain ⟨hsiz, h⟩ := h
    have htot := h.toHolds.push_total Prod.fst (stored sample)
    rw [← h.total] at htot
    exact ⟨hsiz, hsiz ▸ ⟨h.toHolds.push _, htot⟩⟩
  have hnew : (RingBuffer.new size.toNat memory).Holds [] := RingBuffer.new_holds (by omega) memory
  simpa using RingBuffer.foldl_last hstep samples ⟨rfl, hnew, rfl⟩ hnew.length_le

section Recent

variable {buf : CircularBuffer K} {recent : List (K × UInt64)} (h : buf.Retains recent)

include h

theorem Retains.length_eq : buf.bufferLength = recent.length := h.toHolds.length_eq

theorem Retains.cell_eq (i : ℕ) :
    (buf.bufferIndexFor i).map buf.cells = recent[min i (recent.length - 1)]? := by
  have hlen := h.length_eq
  unfold bufferIndexFor
  split_ifs with hnil hle
  · simp [length_eq_zero_iff.mp (by omega : recent.length = 0)]
  · have hcel := h.cells (recent.length - 1) (by omega)
    rw [Nat.cast_sub (by omega), Nat.cast_one, ← h.back (ne_nil_of_length_pos (by omega))] at hcel
    rw [Nat.min_eq_right (by omega), Option.map_some, hcel, getElem?_eq_getElem]
  · rw [Nat.min_eq_left (by omega), Option.map_some, h.cells i (by omega), getElem?_eq_getElem]

theorem Retains.value_eq (i : ℕ) :
    buf.getBufferValue i = (recent.map Prod.fst)[min i (recent.length - 1)]? := by
  rw [getElem?_map, ← h.cell_eq, Option.map_map]
  rfl

theorem Retains.cell_getD {i : ℕ} (hi : i < recent.length) :
    (buf.cells (buf.place i)).1 = (recent.map Prod.fst).getD i 0 := by
  simp [h.cells i hi, hi]

omit h in
theorem sumDown_eq {A : Type*} [AddCommMonoid A] {read : ℕ → Option A} {xs : List A} {n : ℕ}
    (hread : ∀ i < xs.length, read i = xs[i]?) (hn : n ≤ xs.length) :
    sumDown read n = some (xs.take n).sum := by
  suffices ∀ a, (range n).reverse.foldlM (fun tot i => (read i).map (tot + ·)) a =
      some (a + (xs.take n).sum) by rw [sumDown, this, zero_add]
  induction n with
  | zero => simp
  | succ n ih =>
    intro a
    rw [range_succ, reverse_append, reverse_singleton, singleton_append, foldlM_cons,
      hread n hn, getElem?_eq_getElem hn, take_succ_eq_append_getElem hn, sum_append, sum_singleton]
    refine (ih (by omega) (a + xs[n])).trans ?_
    rw [add_assoc, add_comm xs[n]]

theorem Retains.bufferSum_eq (n : ℤ) :
    buf.bufferSum n = some ((recent.map Prod.fst).take n.toNat).sum := by
  have hlen : (recent.map Prod.fst).length = recent.length := length_map _
  have hread : ∀ i < (recent.map Prod.fst).length,
      buf.getBufferValue i = (recent.map Prod.fst)[i]? := by
    intro i hi
    rw [h.value_eq, Nat.min_eq_left (by omega)]
  have hmin : (min buf.bufferLength n).toNat = min n.toNat (recent.map Prod.fst).length := by
    rw [h.length_eq, hlen]
    omega
  rw [bufferSum, hmin, sumDown_eq hread (Nat.min_le_right _ _), ← take_take, take_length]

end Recent

/-- The buffer represents the list of the last samples. -/
theorem represents_recent {size : ℤ} (hsize : 1 ≤ size) (memory : ℤ → K × UInt64)
    (samples : List (Int64 × K)) :
    ∃ buf, (createBuffer size memory).map (samples.foldl addSample) = some buf ∧
      ∃ recent, recent = samples.reverse.take size.toNat ∧
        buf.bufferLength = recent.length ∧
        (∀ i : ℕ, buf.getBufferValue i = (recent.map Prod.snd)[min i (recent.length - 1)]? ∧
          buf.getBufferTime i = (recent.map Prod.fst)[min i (recent.length - 1)]?) ∧
        (∀ n : ℤ, buf.bufferSum n = some ((recent.map Prod.snd).take n.toNat).sum) ∧
        buf.total = (recent.map Prod.snd).sum := by
  obtain ⟨buf, hbuf, -, h⟩ := created_retains hsize memory samples
  generalize hrec : samples.reverse.take size.toNat = recent at h
  have hval : (recent.map stored).map Prod.fst = recent.map Prod.snd := map_map
  have hlen : (recent.map stored).length = recent.length := length_map _
  refine ⟨buf, hbuf, _, rfl, ?_, fun i => ⟨?_, ?_⟩, fun n => ?_, ?_⟩
  · rw [h.length_eq, hlen]
  · rw [h.value_eq, hlen, hval]
  · have hcel := congrArg (Option.map fun cell => cell.2.toInt64) (h.cell_eq i)
    rw [hlen, ← getElem?_map, map_map, Option.map_map] at hcel
    refine hcel.trans (congrArg (fun f => (recent.map f)[_]?) (funext fun sample => ?_))
    exact Int64.toInt64_toUInt64 sample.1
  · rw [h.bufferSum_eq, hval]
  · rw [h.total, hval]

theorem last_two_of_three :
    ∃ buf, (createBuffer 2 fun _ => ((0 : ℚ), 0)).map ([(1, 4), (2, 5), (3, 6)].foldl addSample) =
      some buf ∧ buf.bufferLength = 2 := by
  obtain ⟨buf, hbuf, _, rfl, hlen, -⟩ :=
    represents_recent (by decide : (1 : ℤ) ≤ 2) (fun _ => ((0 : ℚ), 0)) [(1, 4), (2, 5), (3, 6)]
  exact ⟨buf, hbuf, hlen⟩

section Movement

variable [LinearOrder K]

/-- The loop of `findMovement`, with the steps that `max_len` leaves. -/
def search (buf : CircularBuffer K) (amount current : K) : ℕ → ℤ → ℤ → ℤ
  | 0, _, n => n
  | steps + 1, idx, n =>
    if idx = buf.back then n
    else if amount ≤ |current - (buf.cells (buf.prev idx)).1| then n + 1
    else search buf amount current steps (buf.prev idx) (n + 1)

def findMovement (buf : CircularBuffer K) (amount : K) (maxLen : ℤ) : Option ℤ :=
  if buf.bufferLength = 0 then none
  else some (buf.search amount (buf.cells buf.front).1 maxLen.toNat buf.front 0)

/-- What lies at least `amount` away, back to `max_len`. -/
def moved (vals : List K) (amount : K) (maxLen : ℕ) : Set ℕ :=
  {k | 1 ≤ k ∧ k ≤ min maxLen (vals.length - 1) ∧ amount ≤ |vals.getD 0 0 - vals.getD k 0|}

variable {buf : CircularBuffer K} {recent : List (K × UInt64)}

theorem Retains.search_eq (h : buf.Retains recent) (amount current : K) (steps : ℕ) {n : ℕ}
    (hn : n < recent.length) :
    buf.search amount current steps (buf.place n) n =
      (((range' (n + 1) (min steps (recent.length - 1 - n))).find? fun k =>
        amount ≤ |current - (recent.map Prod.fst).getD k 0|).getD
          (n + min steps (recent.length - 1 - n)) : ℕ) := by
  induction steps generalizing n with
  | zero => simp [search]
  | succ steps ih =>
    have hle := h.length_le
    have hend : buf.place n = buf.back ↔ n + 1 = recent.length := by
      rw [h.back (ne_nil_of_length_pos (by omega)),
        RingBuffer.place_inj (by omega) (by omega) (by omega) (by omega)]
      omega
    rw [search, RingBuffer.prev_place h.size]
    by_cases heq : n + 1 = recent.length
    · simp [hend.mpr heq, ← heq]
    · have hlt : n + 1 < recent.length := by omega
      have hmin : min (steps + 1) (recent.length - 1 - n) =
          min steps (recent.length - 1 - (n + 1)) + 1 := by omega
      have hcel := h.cell_getD hlt
      have hnex := ih hlt
      rw [Nat.cast_succ] at hcel hnex
      rw [if_neg (mt hend.mp heq), hcel, hnex, hmin, range'_succ, find?_cons]
      by_cases hmov : amount ≤ |current - (recent.map Prod.fst).getD (n + 1) 0|
      · rw [if_pos hmov, decide_eq_true hmov]
        rfl
      · rw [if_neg hmov, decide_eq_false hmov, Nat.add_assoc n 1 (min _ _),
          Nat.add_comm 1 (min _ _)]

theorem Retains.findMovement_eq (h : buf.Retains recent) (hpos : 0 < recent.length) (amount : K)
    (maxLen : ℕ) :
    ∃ k : ℕ, buf.findMovement amount maxLen = some ↑k ∧
      (IsLeast (moved (recent.map Prod.fst) amount maxLen) k ∨
        moved (recent.map Prod.fst) amount maxLen = ∅ ∧ k = min maxLen (recent.length - 1)) := by
  have hfro := h.front (ne_nil_of_length_pos hpos)
  have hnew := h.cell_getD hpos
  have hsea := h.search_eq amount ((recent.map Prod.fst).getD 0 0) maxLen hpos
  rw [Nat.zero_add, Nat.sub_zero, Nat.zero_add] at hsea
  rw [Nat.cast_zero, ← hfro] at hnew hsea
  refine ⟨_, by rw [findMovement, h.length_eq, if_neg (by omega), hnew, Int.toNat_natCast, hsea],
    ?_⟩
  have hmem (k : ℕ) : k ∈ moved (recent.map Prod.fst) amount maxLen ↔
      k ∈ range' 1 (min maxLen (recent.length - 1)) ∧
        amount ≤ |(recent.map Prod.fst).getD 0 0 - (recent.map Prod.fst).getD k 0| := by
    rw [moved, Set.mem_ofPred_eq, length_map, mem_range'_1, Nat.add_comm, Nat.lt_succ_iff,
      and_assoc]
  cases hfin : find? _ _ with
  | none =>
    rw [find?_eq_none] at hfin
    refine .inr ⟨Set.eq_empty_of_forall_notMem fun k hk => ?_, rfl⟩
    obtain ⟨hran, hmov⟩ := (hmem k).mp hk
    exact hfin k hran (decide_eq_true hmov)
  | some k =>
    obtain ⟨hmov, hran, hbef⟩ := find?_range'_eq_some.mp hfin
    refine .inl ⟨(hmem k).mpr ⟨hran, of_decide_eq_true hmov⟩, fun j hj => ?_⟩
    by_contra hlt
    have hnot := hbef j hj.1 (not_le.mp hlt)
    rw [decide_eq_true ((hmem j).mp hj).2] at hnot
    cases hnot

/-- The first of the samples back to `max_len` that differs enough, or the last one looked at. -/
theorem findMovement_least {size : ℤ} (hsize : 1 ≤ size) (memory : ℤ → K × UInt64)
    {samples : List (Int64 × K)} (hsam : samples ≠ []) (amount : K) (maxLen : ℕ) :
    ∃ buf, (createBuffer size memory).map (samples.foldl addSample) = some buf ∧
      ∃ vals, vals = (samples.reverse.take size.toNat).map Prod.snd ∧
      ∃ k : ℕ, buf.findMovement amount maxLen = some ↑k ∧
        (IsLeast (moved vals amount maxLen) k ∨
          moved vals amount maxLen = ∅ ∧ k = min maxLen (vals.length - 1)) := by
  obtain ⟨buf, hbuf, -, h⟩ := created_retains hsize memory samples
  have hlen := length_pos_iff.mpr hsam
  have hmov := h.findMovement_eq (by simp; omega) amount maxLen
  rw [map_map, length_map] at hmov
  refine ⟨buf, hbuf, _, rfl, ?_⟩
  rw [length_map]
  exact hmov

theorem movement_one_back :
    ∃ buf, (createBuffer 2 fun _ => ((0 : ℚ), 0)).map ([(1, 4), (2, 9)].foldl addSample) =
      some buf ∧ buf.findMovement 3 5 = some 1 := by
  obtain ⟨buf, hbuf, _, rfl, k, hk, h⟩ := findMovement_least (by decide : (1 : ℤ) ≤ 2)
    (fun _ => ((0 : ℚ), 0)) (cons_ne_nil (1, 4) [(2, 9)]) 3 5
  have hone : k = 1 := by
    rcases h with ⟨⟨h1, hle, -⟩, -⟩ | ⟨-, hmin⟩
    · exact Nat.le_antisymm hle h1
    · exact hmin
  subst hone
  exact ⟨buf, hbuf, hk⟩

end Movement

end CircularBuffer

end Clockwork
