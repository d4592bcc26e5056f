import Clockwork.IOMap
import Mathlib.Data.List.Pairwise
import Mathlib.Tactic.IntervalCases

namespace Clockwork.IOComponent

open List IOAddress

open Image (Byte bit byte)

variable {C : Type}

section Arrays

variable {α : Type} {x : α}

theorem setAt_eq_some {xs ys : List α} {i : ℕ} :
    setAt xs i x = some ys ↔ i < xs.length ∧ ys = xs.set i x := by
  unfold setAt
  split <;> simp [*, eq_comm]

theorem fill_spec {f : ℕ → ℕ} {n : ℕ} {xs ys : List α}
    (h : (range n).foldlM (fun xs i => setAt xs (f i) x) xs = some ys) :
    ys.length = xs.length ∧ (∀ i < n, f i < xs.length) ∧
      ∀ b, ys[b]? = if ∃ i < n, b = f i then some x else xs[b]? := by
  induction n generalizing ys with
  | zero =>
    obtain rfl : xs = ys := by simpa using h
    simp
  | succ n ih =>
    rw [range_succ, foldlM_append] at h
    obtain ⟨zs, hzs, h⟩ := Option.bind_eq_some_iff.mp h
    obtain ⟨hlen, hin, hget⟩ := ih hzs
    obtain ⟨hn, rfl⟩ : f n < zs.length ∧ ys = zs.set (f n) x := by
      simpa [setAt_eq_some] using h
    rw [hlen] at hn
    refine ⟨by simpa using hlen, fun i hi => ?_, fun b => ?_⟩
    · rcases Nat.lt_succ_iff_lt_or_eq.mp hi with hi | rfl
      · exact hin i hi
      · exact hn
    · by_cases hb : b = f n
      · subst hb
        have hex : ∃ i < n + 1, f n = f i := ⟨n, Nat.lt_succ_self n, rfl⟩
        rw [if_pos hex, getElem?_set_self (hlen ▸ hn)]
      · have hiff : (∃ i < n + 1, b = f i) ↔ ∃ i < n, b = f i := by
          constructor
          · rintro ⟨i, hi, hbi⟩
            rcases Nat.lt_succ_iff_lt_or_eq.mp hi with hi | rfl
            · exact ⟨i, hi, hbi⟩
            · exact absurd hbi hb
          · rintro ⟨i, hi, hbi⟩
            exact ⟨i, Nat.lt_succ_of_lt hi, hbi⟩
        rw [getElem?_set_ne (Ne.symm hb), hget, if_congr hiff rfl rfl]

theorem fill_isSome {f : ℕ → ℕ} {n : ℕ} {xs : List α} (h : ∀ i < n, f i < xs.length) :
    ∃ ys, (range n).foldlM (fun xs i => setAt xs (f i) x) xs = some ys := by
  induction n with
  | zero => exact ⟨xs, rfl⟩
  | succ n ih =>
    obtain ⟨zs, hzs⟩ := ih fun i hi => h i (Nat.lt_succ_of_lt hi)
    have hlen := (fill_spec hzs).1
    rw [range_succ, foldlM_append, hzs]
    simpa [setAt_eq_some, hlen] using h n (Nat.lt_succ_self n)

end Arrays

theorem markBits_spec (n offset : ℕ) {k : ℕ} (hk : k < 8) (res : List Byte)
    (h : 8 * offset + k + n ≤ 8 * res.length) :
    ∃ res', markBits n offset (1#8 <<< k) res = some res' ∧ res'.length = res.length ∧
      ∀ b, bit res' b = (bit res b || decide (8 * offset + k ≤ b ∧ b < 8 * offset + k + n)) := by
  induction n generalizing offset k res with
  | zero =>
    refine ⟨res, rfl, rfl, fun b => ?_⟩
    simp
  | succ n ih =>
    have hoff : offset < res.length := by omega
    have hset : setAt res offset (byte res offset ||| (1#8 <<< k)) =
        some (res.set offset (byte res offset ||| (1#8 <<< k))) := by
      rw [setAt_eq_some]
      exact ⟨hoff, rfl⟩
    have hlas : (1#8 <<< k) <<< 1 = 0 ↔ k = 7 := by
      interval_cases k <;> decide
    have hshi : (1#8 <<< k) <<< 1 = 1#8 <<< (k + 1) := by
      rw [BitVec.shiftLeft_add]
    -- the bits still to be set start one further on
    have hste : ∀ offset' k', 8 * offset' + k' = 8 * offset + k + 1 → k' < 8 →
        markBits (n + 1) offset (1#8 <<< k) res =
          markBits n offset' (1#8 <<< k') (res.set offset (byte res offset ||| (1#8 <<< k))) →
        ∃ res', markBits (n + 1) offset (1#8 <<< k) res = some res' ∧ res'.length = res.length ∧
          ∀ b, bit res' b =
            (bit res b || decide (8 * offset + k ≤ b ∧ b < 8 * offset + k + (n + 1))) := by
      intro offset' k' hcur hk' heq
      obtain ⟨res', hres', hlen, hbit⟩ :=
        ih offset' hk' (res.set offset (byte res offset ||| (1#8 <<< k)))
          (by rw [length_set]; omega)
      refine ⟨res', heq.trans hres', by simpa using hlen, fun b => ?_⟩
      rw [hbit, Image.bit_set_or hoff hk, Bool.or_assoc, ← Bool.decide_or]
      congr 1
      rw [decide_eq_decide]
      omega
    by_cases hk7 : k = 7
    · refine hste (offset + 1) 0 (by omega) (by omega) ?_
      rw [markBits, hset, Option.bind_eq_bind, Option.bind_some, if_pos (hlas.mpr hk7)]
      rfl
    · refine hste offset (k + 1) (by omega) (by omega) ?_
      rw [markBits, hset, Option.bind_eq_bind, Option.bind_some, if_neg (mt hlas.mp hk7), hshi]

variable {L : Layout C} {cs : List C} {r : ℕ × ℕ} {c : C} {map : IOMap C} {b : ℕ} {a : IOAddress}

theorem widen_spec {r r' : ℕ × ℕ} (h : cs.foldlM (widen L) r = some r') (hr : r.2 < 10000) :
    r'.2 < 10000 ∧ r.2 ≤ r'.2 ∧ r'.1 ≤ r.1 ∧
      (∀ c ∈ cs, (L.address c).lastByte ≤ r'.2 ∧ r'.1 ≤ (L.address c).firstByte) ∧
      (r'.2 = r.2 ∨ ∃ c ∈ cs, r'.2 = (L.address c).lastByte) := by
  induction cs generalizing r with
  | nil =>
    obtain rfl : r = r' := by simpa using h
    simp [hr]
  | cons c cs ih =>
    rw [foldlM_cons] at h
    obtain ⟨t, ht, h⟩ := Option.bind_eq_some_iff.mp h
    unfold widen at ht
    simp only [Option.ite_none_right_eq_some, Option.some.injEq] at ht
    obtain ⟨ht, rfl⟩ := ht
    obtain ⟨hlt, hmax, hmin, hall, hex⟩ := ih h ht
    dsimp only at hlt hmax hmin hex
    refine ⟨hlt, ?_, ?_, fun d hd => ?_, ?_⟩
    · split at hmax <;> omega
    · split at hmin <;> omega
    · rcases mem_cons.mp hd with rfl | hd
      · constructor
        · split at hmax <;> omega
        · split at hmin <;> omega
      · exact hall d hd
    · rcases hex with hex | ⟨d, hd, hex⟩
      · split at hex
        · exact .inr ⟨c, mem_cons_self, hex⟩
        · exact .inl hex
      · exact .inr ⟨d, mem_cons_of_mem c hd, hex⟩

theorem widen_isSome (hr : r.2 < 10000) (h : ∀ c ∈ cs, (L.address c).lastByte < 10000) :
    ∃ r', cs.foldlM (widen L) r = some r' := by
  induction cs generalizing r with
  | nil => exact ⟨r, rfl⟩
  | cons c cs ih =>
    have hc := h c mem_cons_self
    have hmax : (if r.2 < (L.address c).lastByte then (L.address c).lastByte else r.2) < 10000 := by
      split <;> omega
    rw [foldlM_cons, widen, if_pos hmax]
    exact ih hmax fun d hd => h d (mem_cons_of_mem c hd)

theorem findOffsets_spec (h : findOffsets L = some r) : r.2 < 10000 ∧
      (∀ c ∈ L.queue, (L.address c).lastByte ≤ r.2 ∧ r.1 ≤ (L.address c).firstByte) ∧
      (r.2 = 0 ∨ ∃ c ∈ L.queue, r.2 = (L.address c).lastByte) := by
  unfold findOffsets at h
  obtain ⟨t, ht, h⟩ := Option.bind_eq_some_iff.mp h
  obtain ⟨hlt, -, -, hall, hex⟩ := widen_spec ht (by decide)
  cases h
  split
  · exact ⟨hlt, fun c hc => ⟨(hall c hc).1, by have := (hall c hc).2; dsimp only; omega⟩, hex⟩
  · exact ⟨hlt, hall, hex⟩

theorem findOffsets_isSome (h : ∀ c ∈ L.queue, (L.address c).lastByte < 10000) :
    ∃ r, findOffsets L = some r := by
  obtain ⟨r, hr⟩ := widen_isSome (r := (1000000, 0)) (by decide) h
  exact ⟨_, by rw [findOffsets, hr]; rfl⟩

def Layout.Enters (L : Layout C) (b : ℕ) (c : C) : Prop :=
  L.ioName c ≠ "" ∧ ∃ i < (L.address c).bitlen, b = (L.address c).indexOf i

instance (L : Layout C) (b : ℕ) (c : C) : Decidable (L.Enters b c) :=
  inferInstanceAs (Decidable (_ ∧ ∃ i < _, _))

def Layout.ListedAt (L : Layout C) (i : ℕ) (c : C) : Prop :=
  L.ioName c ≠ "" ∧ (L.address c).firstByte = i

instance (L : Layout C) (i : ℕ) (c : C) : Decidable (L.ListedAt i c) :=
  inferInstanceAs (Decidable (_ ∧ _))

def Layout.Inside (L : Layout C) (maps : List (Option C) × List (List C)) (c : C) : Prop :=
  L.ioName c ≠ "" → (L.address c).firstByte < maps.2.length ∧
    ∀ i < (L.address c).bitlen, (L.address c).indexOf i < maps.1.length

variable {maps maps' : List (Option C) × List (List C)}

theorem enterComponent_spec (h : enterComponent L maps c = some maps') :
    maps'.1.length = maps.1.length ∧ maps'.2.length = maps.2.length ∧ L.Inside maps c ∧
      (∀ b, maps'.1[b]? = if L.Enters b c then some (some c) else maps.1[b]?) ∧
      ∀ i, maps'.2.getD i [] = maps.2.getD i [] ++ if L.ListedAt i c then [c] else [] := by
  unfold enterComponent at h
  split at h
  · next hnam =>
    cases h
    simp [Layout.Inside, Layout.Enters, Layout.ListedAt, hnam]
  · next hnam =>
    obtain ⟨index, hind, h⟩ := Option.bind_eq_some_iff.mp h
    obtain ⟨ioMap, hiom, h⟩ := Option.bind_eq_some_iff.mp h
    cases h
    obtain ⟨hlen, hin, hget⟩ := fill_spec hind
    obtain ⟨hfir, rfl⟩ := setAt_eq_some.mp hiom
    refine ⟨hlen, by simp, fun _ => ⟨hfir, hin⟩, fun b => ?_, fun i => ?_⟩
    · simp only [hget, Layout.Enters, ne_eq, hnam, not_false_eq_true, true_and]
    · by_cases hi : i = (L.address c).firstByte
      · subst hi
        simp [Layout.ListedAt, hnam, getD_eq_getElem?_getD, hfir]
      · have hlis : ¬L.ListedAt i c := fun hl => hi hl.2.symm
        simp [hlis, getD_eq_getElem?_getD, getElem?_set_ne (Ne.symm hi)]

variable {maps : List (Option C) × List (List C)}

theorem enterComponent_isSome (h : L.Inside maps c) :
    ∃ maps', enterComponent L maps c = some maps' := by
  unfold enterComponent
  split
  · exact ⟨maps, rfl⟩
  · next hnam =>
    obtain ⟨index, hind⟩ := fill_isSome (x := some c) (h hnam).2
    obtain ⟨ioMap, hiom⟩ : ∃ ioMap, listComponent (L.address c) c maps.2 = some ioMap :=
      ⟨_, if_pos (h hnam).1⟩
    exact ⟨(index, ioMap), by rw [indexComponent, hind, hiom]; rfl⟩

theorem enterComponents_spec (h : cs.foldlM (enterComponent L) maps = some maps') :
    (∀ c ∈ cs, L.Inside maps c) ∧
      (∀ b, maps'.1[b]? = ((cs.reverse.find? (L.Enters b)).map some).or maps.1[b]?) ∧
      ∀ i, maps'.2.getD i [] = maps.2.getD i [] ++ cs.filter (L.ListedAt i) := by
  induction cs generalizing maps with
  | nil =>
    obtain rfl : maps = maps' := by simpa using h
    simp
  | cons c cs ih =>
    rw [foldlM_cons] at h
    obtain ⟨mid, hmid, h⟩ := Option.bind_eq_some_iff.mp h
    obtain ⟨hlen₁, hlen₂, hin, hind, hlis⟩ := enterComponent_spec hmid
    obtain ⟨hin', hind', hlis'⟩ := ih h
    refine ⟨fun d hd => ?_, fun b => ?_, fun i => ?_⟩
    · rcases mem_cons.mp hd with rfl | hd
      · exact hin
      · simpa only [Layout.Inside, hlen₁, hlen₂] using hin' d hd
    · rw [hind', hind, reverse_cons, find?_append]
      by_cases hc : L.Enters b c
      · cases hfin : cs.reverse.find? (L.Enters b) <;> simp [hc]
      · simp [hc]
    · rw [hlis', hlis, filter_cons]
      by_cases hc : L.ListedAt i c <;> simp [hc]

theorem enterComponents_isSome
    (h : ∀ c ∈ cs, L.Inside maps c) : ∃ maps', cs.foldlM (enterComponent L) maps = some maps' := by
  induction cs generalizing maps with
  | nil => exact ⟨maps, rfl⟩
  | cons c cs ih =>
    obtain ⟨mid, hmid⟩ := enterComponent_isSome (h c mem_cons_self)
    obtain ⟨hlen₁, hlen₂, -, -, -⟩ := enterComponent_spec hmid
    rw [foldlM_cons, hmid]
    refine ih fun d hd => ?_
    simpa only [Layout.Inside, hlen₁, hlen₂] using h d (mem_cons_of_mem c hd)

section

variable (h : setupIOMap L = some map)

include h

theorem setupIOMap_eq_some :
    findOffsets L = some (map.minOffset, map.maxOffset) ∧ L.queue.foldlM (enterComponent L)
        (replicate ((map.maxOffset + 1) * 8) none, replicate (map.maxOffset + 1) []) =
          some (map.indexedComponents, map.ioMap) := by
  unfold setupIOMap at h
  obtain ⟨⟨lo, hi⟩, hoff, h⟩ := Option.bind_eq_some_iff.mp h
  obtain ⟨⟨index, ioMap⟩, hmap, h⟩ := Option.bind_eq_some_iff.mp h
  obtain ⟨mask, -, h⟩ := Option.bind_eq_some_iff.mp h
  cases h
  exact ⟨hoff, hmap⟩

theorem index_eq (b : ℕ) : map.index b = L.queue.reverse.find? (L.Enters b) := by
  obtain ⟨-, hmap⟩ := setupIOMap_eq_some h
  obtain ⟨-, hind, -⟩ := enterComponents_spec hmap
  rw [IOMap.index, hind b]
  cases L.queue.reverse.find? (L.Enters b) with
  | some c => rfl
  | none =>
    rw [Option.map_none, getElem?_replicate]
    split <;> rfl

theorem enters_of_index (hc : map.index b = some c) : c ∈ L.queue ∧ L.Enters b c := by
  rw [index_eq h] at hc
  exact ⟨mem_reverse.mp (mem_of_find?_eq_some hc), by simpa using find?_some hc⟩

theorem mem_ioMap {i : ℕ} : c ∈ map.ioMap.getD i [] ↔ c ∈ L.queue ∧ L.ListedAt i c := by
  obtain ⟨-, hmap⟩ := setupIOMap_eq_some h
  obtain ⟨-, -, hlis⟩ := enterComponents_spec hmap
  have hemp : (replicate (map.maxOffset + 1) ([] : List C)).getD i [] = [] := by
    rw [getD_eq_getElem?_getD, getElem?_replicate]
    split <;> rfl
  rw [hlis, hemp]
  simp

end

def Layout.Disjoint (L : Layout C) : Prop :=
  L.queue.Pairwise fun c d => ∀ b, ¬((L.address c).Owns b ∧ (L.address d).Owns b)

theorem Layout.Disjoint.eq_of_owns {c d : C} (h : L.Disjoint) (hc : c ∈ L.queue)
    (hd : d ∈ L.queue) (hbc : (L.address c).Owns b) (hbd : (L.address d).Owns b) : c = d := by
  by_contra hne
  have hsym : Std.Symm fun c d => ∀ b, ¬((L.address c).Owns b ∧ (L.address d).Owns b) :=
    ⟨fun _ _ hcd b hb => hcd b hb.symm⟩
  exact List.Pairwise.forall h hc hd hne b ⟨hbc, hbd⟩

/-- The process data holds every bit, the index maps the bits of each component to it, and
the process mask consists of these bits. -/
structure WellMapped (L : Layout C) (map : IOMap C) : Prop where
  inside : ∀ c ∈ L.queue, ∀ b, (L.address c).Owns b → b < 8 * map.processDataSize
  indexed : L.Disjoint → ∀ c ∈ L.queue, L.ioName c ≠ "" →
    ∀ b, map.index b = some c ↔ (L.address c).Owns b
  masked : ∀ b, bit map.processMask b = true ↔ ∃ c ∈ L.queue, (L.address c).Owns b

structure Layout.Fits (L : Layout C) : Prop where
  bounded : ∀ c ∈ L.queue, (L.address c).lastByte < 10000
  /-- each component ends within the last byte that was found for some component -/
  covered : ∀ c ∈ L.queue, 0 < (L.address c).bitlen →
    ∃ d ∈ L.queue, (L.address c).start + (L.address c).bitlen ≤ 8 * ((L.address d).lastByte + 1)
  /-- bit positions stay within the first byte; where they do not, the index is only
  required to have room for the entries -/
  indexed : ∀ c ∈ L.queue, L.ioName c ≠ "" → 0 < (L.address c).bitlen →
    (L.address c).ioBitpos < 8 ∨ ¬L.Disjoint ∧ ∃ d ∈ L.queue,
      (L.address c).start + (L.address c).bitlen + 8 * ((L.address c).ioBitpos / 8) ≤
        8 * ((L.address d).lastByte + 1)

theorem le_size_iff (h : findOffsets L = some r) (hc : c ∈ L.queue) (n : ℕ) :
    n ≤ 8 * (r.2 + 1) ↔ ∃ d ∈ L.queue, n ≤ 8 * ((L.address d).lastByte + 1) := by
  obtain ⟨-, hall, hex⟩ := findOffsets_spec h
  constructor
  · intro hn
    rcases hex with h0 | ⟨d, hd, hmax⟩
    · exact ⟨c, hc, by omega⟩
    · exact ⟨d, hd, by omega⟩
  · rintro ⟨d, hd, hn⟩
    have hlas := (hall d hd).1
    omega

section

variable (h : a.start + a.bitlen ≤ 80000)

include h

/-- Nothing wraps around in the arithmetic on a component that ends below `80000`. -/
theorem firstByte_eq : a.firstByte = a.ioOffset + a.ioBitpos / 8 := by
  unfold start at h
  rw [firstByte, Nat.mod_eq_of_lt (by omega)]

theorem indexOf_eq {i : ℕ} (hi : i < a.bitlen) :
    a.indexOf i = a.start + 8 * (a.ioBitpos / 8) + i := by
  rw [indexOf, firstByte_eq h]
  unfold start at h ⊢
  omega

theorem firstByte_le_lastByte : a.firstByte ≤ a.lastByte := by
  have hfir := firstByte_eq h
  unfold start at h
  unfold lastByte
  split <;> omega

end

theorem markComponent_spec {res : List Byte} (hsiz : res.length ≤ 10000)
    (h : 0 < a.bitlen → a.start + a.bitlen ≤ 8 * res.length) :
    ∃ res', markComponent a res = some res' ∧ res'.length = res.length ∧
      ∀ b, bit res' b = (bit res b || decide (a.Owns b)) := by
  rcases Nat.eq_zero_or_pos a.bitlen with h0 | hpos
  · refine ⟨res, by rw [markComponent, h0, markBits], rfl, fun b => ?_⟩
    have hnon : ¬a.Owns b := by
      unfold IOAddress.Owns
      omega
    simp [hnon]
  · have hsta : 8 * a.firstByte + a.ioBitpos % 8 = a.start := by
      rw [firstByte_eq (by omega)]
      unfold start
      omega
    obtain ⟨res', hres', hlen, hbit⟩ := markBits_spec a.bitlen a.firstByte
      (Nat.mod_lt a.ioBitpos (by decide : 8 > 0)) res (by omega)
    exact ⟨res', hres', hlen, fun b => by rw [hbit, hsta]; rfl⟩

theorem markComponents_spec (cs : List C) (res : List Byte) (hsiz : res.length ≤ 10000)
    (h : ∀ c ∈ cs, 0 < (L.address c).bitlen →
      (L.address c).start + (L.address c).bitlen ≤ 8 * res.length) :
    ∃ res', cs.foldlM (fun res c => markComponent (L.address c) res) res = some res' ∧
      res'.length = res.length ∧
      ∀ b, bit res' b = true ↔ bit res b = true ∨ ∃ c ∈ cs, (L.address c).Owns b := by
  induction cs generalizing res with
  | nil => exact ⟨res, rfl, rfl, by simp⟩
  | cons c cs ih =>
    obtain ⟨mid, hmid, hlen, hbit⟩ := markComponent_spec hsiz (h c mem_cons_self)
    obtain ⟨res', hres', hlen', hbit'⟩ := ih mid (hlen ▸ hsiz) fun d hd => by
      rw [hlen]
      exact h d (mem_cons_of_mem c hd)
    refine ⟨res', by rw [foldlM_cons, hmid]; exact hres', hlen'.trans hlen, fun b => ?_⟩
    rw [hbit', hbit]
    simp [or_assoc]

theorem Layout.Fits.le_size (h : L.Fits) (hr : findOffsets L = some r) (hc : c ∈ L.queue)
    (hpos : 0 < (L.address c).bitlen) :
    (L.address c).start + (L.address c).bitlen ≤ 8 * (r.2 + 1) :=
  (le_size_iff hr hc _).mpr (h.covered c hc hpos)

theorem enters_iff_owns
    (hsma : 0 < (L.address c).bitlen → (L.address c).start + (L.address c).bitlen ≤ 80000)
    (hpos : 0 < (L.address c).bitlen → L.ioName c ≠ "" → (L.address c).ioBitpos < 8) :
    L.Enters b c ↔ L.ioName c ≠ "" ∧ (L.address c).Owns b := by
  refine and_congr_right fun hnam => ?_
  constructor
  · rintro ⟨i, hi, rfl⟩
    have hlt := hpos (by omega) hnam
    rw [indexOf_eq (hsma (by omega)) hi]
    unfold IOAddress.Owns
    omega
  · rintro ⟨hle, hlt⟩
    have hi : b - (L.address c).start < (L.address c).bitlen := by omega
    have hbit := hpos (by omega) hnam
    refine ⟨b - (L.address c).start, hi, ?_⟩
    rw [indexOf_eq (hsma (by omega)) hi]
    omega

theorem Layout.Fits.inside (h : L.Fits) (hr : findOffsets L = some r) (hc : c ∈ L.queue) :
    L.Inside (replicate ((r.2 + 1) * 8) none, replicate (r.2 + 1) []) c := by
  intro hnam
  obtain ⟨hlt, hall, -⟩ := findOffsets_spec hr
  have hlas := (hall c hc).1
  rw [length_replicate, length_replicate]
  rcases Nat.eq_zero_or_pos (L.address c).bitlen with h0 | hpos
  · have heq : (L.address c).lastByte = (L.address c).firstByte := by
      rw [lastByte, if_neg (by omega)]
    exact ⟨by omega, fun i hi => by omega⟩
  · have hle := h.le_size hr hc hpos
    have hfir := firstByte_le_lastByte (a := L.address c) (by omega)
    refine ⟨by omega, fun i hi => ?_⟩
    rw [indexOf_eq (by omega) hi]
    rcases h.indexed c hc hnam hpos with hbit | ⟨-, hroo⟩
    · omega
    · have hroo' := (le_size_iff hr hc _).mpr hroo
      omega

theorem Layout.Fits.index_iff (h : L.Fits) (hmap : setupIOMap L = some map) (hdis : L.Disjoint)
    (hc : c ∈ L.queue) (hnam : L.ioName c ≠ "") (b : ℕ) :
    map.index b = some c ↔ (L.address c).Owns b := by
  obtain ⟨hoff, -⟩ := setupIOMap_eq_some hmap
  have hlt := (findOffsets_spec hoff).1
  have hene : ∀ d ∈ L.queue, L.Enters b d ↔ L.ioName d ≠ "" ∧ (L.address d).Owns b := by
    intro d hd
    refine enters_iff_owns (fun hpos => ?_) fun hpos hn => ?_
    · have hle := h.le_size hoff hd hpos
      omega
    · exact (h.indexed d hd hn hpos).resolve_right fun hnot => hnot.1 hdis
  constructor
  · intro hind
    exact ((hene c hc).mp (enters_of_index hmap hind).2).2
  · intro hown
    rw [index_eq hmap]
    have hex : (L.queue.reverse.find? (L.Enters b)).isSome = true := by
      rw [find?_isSome]
      exact ⟨c, mem_reverse.mpr hc, by simpa using (hene c hc).mpr ⟨hnam, hown⟩⟩
    obtain ⟨d, hd⟩ := Option.isSome_iff_exists.mp hex
    have hmem : d ∈ L.queue := mem_reverse.mp (mem_of_find?_eq_some hd)
    have hent : L.Enters b d := by simpa using find?_some hd
    rw [hd, hdis.eq_of_owns hmem hc ((hene d hmem).mp hent).2 hown]

/-- `setupIOMap` maps exactly the layouts well whose components fit the arithmetic of its
three loops. -/
theorem setupIOMap_wellMapped_iff (L : Layout C) :
    (∃ map, setupIOMap L = some map ∧ WellMapped L map) ↔ L.Fits := by
  constructor
  · rintro ⟨map, hmap, hwel⟩
    obtain ⟨hoff, hmas⟩ := setupIOMap_eq_some hmap
    obtain ⟨hlt, hall, -⟩ := findOffsets_spec hoff
    have hend : ∀ c ∈ L.queue, 0 < (L.address c).bitlen →
        (L.address c).start + (L.address c).bitlen ≤ 8 * (map.maxOffset + 1) := by
      intro c hc hpos
      have hlas := hwel.inside c hc ((L.address c).start + (L.address c).bitlen - 1)
        ⟨by omega, by omega⟩
      rw [IOMap.processDataSize] at hlas
      omega
    refine ⟨fun c hc => ?_, fun c hc hpos => ?_, fun c hc hnam hpos => ?_⟩
    · exact (hall c hc).1.trans_lt hlt
    · exact (le_size_iff hoff hc _).mp (hend c hc hpos)
    · have hle := hend c hc hpos
      by_cases hbit : (L.address c).ioBitpos < 8
      · exact .inl hbit
      · refine .inr ⟨fun hdis => ?_, ?_⟩
        · -- the first bit is not entered: the entries start a byte or more too late
          have hfir : (L.address c).Owns (L.address c).start := ⟨le_refl _, by omega⟩
          obtain ⟨-, -, i, hi, heq⟩ :=
            enters_of_index hmap ((hwel.indexed hdis c hc hnam _).mpr hfir)
          rw [indexOf_eq (by omega) hi] at heq
          omega
        · obtain ⟨hin, -, -⟩ := enterComponents_spec hmas
          have hroo := (hin c hc hnam).2 ((L.address c).bitlen - 1) (by omega)
          rw [indexOf_eq (by omega) (by omega), length_replicate] at hroo
          exact (le_size_iff hoff hc _).mp (by dsimp only; omega)
  · intro hfit
    obtain ⟨r, hr⟩ := findOffsets_isSome hfit.bounded
    have hlt := (findOffsets_spec hr).1
    obtain ⟨maps, hmas⟩ := enterComponents_isSome fun c hc => hfit.inside hr hc
    obtain ⟨mask, hmak, -, hbit⟩ := markComponents_spec (L := L) L.queue
      (replicate (r.2 + 1) 0) (by rw [length_replicate]; omega)
      (fun c hc hpos => by rw [length_replicate]; exact hfit.le_size hr hc hpos)
    have hmap : setupIOMap L = some ⟨r.1, r.2, maps.1, maps.2, mask⟩ := by
      rw [setupIOMap, hr, Option.bind_eq_bind, Option.bind_some]
      dsimp only
      rw [hmas, Option.bind_eq_bind, generateProcessMask, hmak]
      rfl
    refine ⟨_, hmap, ?_, fun hdis c hc hnam b => hfit.index_iff hmap hdis hc hnam b, ?_⟩
    · rintro c hc b ⟨hsta, hb⟩
      have hle := hfit.le_size hr hc (by omega)
      change b < 8 * (r.2 + 1)
      omega
    · intro b
      rw [hbit, Image.bit_replicate_zero]
      simp

def nibble : Layout Unit where
  queue := [()]
  address _ := ⟨0, 6, 4, false⟩
  ioName _ := "nibble"

def ninthBit : Layout Bool where
  queue := [false, true]
  address c := if c then ⟨3, 0, 1, false⟩ else ⟨0, 8, 1, false⟩
  ioName c := if c then "upper" else "lower"

/-- The process data ends after the first byte, and the mask is written beyond it; bit 8 of
byte 0 is entered at 16. -/
theorem nibble_not_mapped : (findOffsets nibble = some (0, 0) ∧ (nibble.address ()).Owns 9 ∧
      ¬∃ map, setupIOMap nibble = some map ∧ WellMapped nibble map) ∧
    ((setupIOMap ninthBit).map (fun map => (map.index 8, map.index 16)) = some (none, some false) ∧
      ¬∃ map, setupIOMap ninthBit = some map ∧ WellMapped ninthBit map) := by
  refine ⟨⟨by decide, by decide, ?_⟩, by decide, ?_⟩
  · rintro ⟨map, hmap, -⟩
    have hnon : setupIOMap nibble = none := by decide
    rw [hnon] at hmap
    cases hmap
  · rintro ⟨map, hmap, hwel⟩
    have hdis : ninthBit.Disjoint := by
      refine pairwise_cons.mpr ⟨fun d hd b hb => ?_, pairwise_singleton _ _⟩
      obtain rfl := mem_singleton.mp hd
      obtain ⟨⟨-, hlow⟩, hhig, -⟩ := hb
      exact absurd (hhig.trans_lt hlow) (by decide)
    have hind := (hwel.indexed hdis false (by decide) (by decide) 8).mpr (by decide)
    have hnon : ((setupIOMap ninthBit).map fun map => map.index 8) = some none := by decide
    rw [hmap, Option.map_some, hind] at hnon
    cases hnon

end Clockwork.IOComponent
