import Clockwork.ProcessAll

namespace Clockwork.IOComponent

open Image (Byte bit byte setBit)
open BitVec List

def updateByte (pd data mask : Byte) : Byte :=
  if mask ≠ 0 ∧ data ≠ pd then
    [0, 1, 2, 3, 4, 5, 6, 7].foldl
      (fun pd j =>
        if mask.getLsbD j then
          if pd.getLsbD j ≠ data.getLsbD j then setBit pd j (data.getLsbD j) else pd
        else pd) pd
  else pd

def updateDomain (pd data mask : List Byte) : List Byte :=
  List.zipWith (fun d x => updateByte d x.1 x.2) pd (data.zip mask)

def maskedByte (dest src mask : Byte) : Byte := dest &&& ~~~mask ||| src &&& mask

def masked (dest src mask : List Byte) : List Byte :=
  List.zipWith (fun d x => maskedByte d x.1 x.2) dest (src.zip mask)

theorem getLsbD_foldl_setBit (src mask : Byte) (js : List ℕ) (hjs : ∀ j ∈ js, j < 8) (d : Byte)
    (i : ℕ) :
    (js.foldl (fun d j => if mask.getLsbD j then setBit d j (src.getLsbD j) else d) d).getLsbD i =
      if i ∈ js ∧ mask.getLsbD i then src.getLsbD i else d.getLsbD i := by
  induction js generalizing d with
  | nil => simp
  | cons j js ih =>
    obtain ⟨hj, hjs⟩ := forall_mem_cons.mp hjs
    rw [foldl_cons, ih hjs]
    by_cases hm : mask.getLsbD j
    · simp only [hm, if_true, Image.getLsbD_setBit _ hj, mem_cons]
      by_cases hij : i = j
      · subst hij
        simp [hm]
      · simp [hij]
    · simp only [hm, Bool.false_eq_true, if_false, mem_cons]
      by_cases hij : i = j
      · subst hij
        simp [hm]
      · simp [hij]

theorem foldl_setBit_eq (src mask d : Byte) (js : List ℕ) (hjs : ∀ j, j ∈ js ↔ j < 8) :
    js.foldl (fun d j => if mask.getLsbD j then setBit d j (src.getLsbD j) else d) d =
      maskedByte d src mask := by
  refine eq_of_getLsbD_eq fun i hi => ?_
  rw [getLsbD_foldl_setBit src mask js fun j => (hjs j).mp, maskedByte, getLsbD_or, getLsbD_and,
    getLsbD_and, getLsbD_not]
  cases mask.getLsbD i <;> simp [hi, hjs]

theorem copyByte_eq (d src mask : Byte) : copyByte d src mask = maskedByte d src mask :=
  foldl_setBit_eq src mask d _ fun j => by simp; omega

theorem updateByte_eq (d src mask : Byte) : updateByte d src mask = maskedByte d src mask := by
  unfold updateByte
  split
  · rw [← foldl_setBit_eq src mask d [0, 1, 2, 3, 4, 5, 6, 7] fun j => by simp; omega]
    refine foldl_ext _ _ _ fun q j hj => ?_
    -- a bit that has not changed may be set as well
    split
    · split
      · rfl
      · next heq =>
        rw [← not_ne_iff.mp heq, Image.setBit_getLsbD _ (by simp at hj; omega)]
    · rfl
  · next hsam =>
    rw [not_and_or, not_ne_iff, not_ne_iff] at hsam
    refine eq_of_getLsbD_eq fun i hi => ?_
    rw [maskedByte, getLsbD_or, getLsbD_and, getLsbD_and, getLsbD_not]
    obtain rfl | rfl := hsam
    · simp [hi]
    · cases mask.getLsbD i <;> simp [hi]

variable {C : Type} [DecidableEq C]

/-- The loop of `processAll` without the notifications of the first call. -/
def mergeData (map : IOMap C) (s : State C) (dest data mask : List Byte) : List Byte :=
  ((List.range map.processDataSize).foldl (fun r i => mergeByte map data mask i r)
    ⟨dest, none, s.updatedComponentsIn⟩).processData

theorem scan_of_last (map : IOMap C) (s : State C) (dest data mask : List Byte) :
    ∃ r, scan map data mask { s with processData := dest, lastProcessData := some [] } = some r ∧
      r.processData = mergeData map s dest data mask := by
  refine ⟨_, ?_, rfl⟩
  have hsca : scanByte map false data mask = fun r i => pure (mergeByte map data mask i r) := rfl
  rw [scan, Option.isNone_some, hsca, foldlM_pure]
  rfl

section Masked

variable {dest src mask : List Byte} (hsrc : src.length = dest.length)
  (hmas : mask.length = dest.length)

include hsrc hmas

theorem length_masked : (masked dest src mask).length = dest.length := by
  simp [masked, hsrc, hmas]

theorem byte_masked (i : ℕ) :
    byte (masked dest src mask) i = maskedByte (byte dest i) (byte src i) (byte mask i) := by
  unfold masked byte
  by_cases hi : i < dest.length
  · simp [hi, hsrc, hmas]
  · simp [Nat.le_of_not_lt hi, hsrc, hmas, maskedByte]

theorem bit_masked (b : ℕ) : bit (masked dest src mask) b = mergedBit src mask dest b := by
  rw [bit, byte_masked hsrc hmas, maskedByte, getLsbD_or, getLsbD_and, getLsbD_and, getLsbD_not,
    mergedBit, bit, bit, bit]
  simp [Nat.mod_lt]

theorem masked_masked : masked (masked dest src mask) src mask = masked dest src mask := by
  have hlen := length_masked hsrc hmas
  refine Image.ext (by simp [masked, hsrc, hmas]) fun b => ?_
  rw [bit_masked (hsrc.trans hlen.symm) (hmas.trans hlen.symm), mergedBit, bit_masked hsrc hmas,
    mergedBit]
  cases bit mask b <;> simp

theorem processData_of_scan {map : IOMap C} (hmap : map.processDataSize = dest.length) {s : State C}
    (hs : s.processData = dest) {r : Scan C} (h : scan map src mask s = some r) :
    r.processData = masked dest src mask := by
  subst hs
  refine Image.ext ?_ fun b => ?_
  · rw [(scan_spec hmap.symm h).length, length_masked hsrc hmas]
  · rw [scan_bit hmap.symm (hmas.trans hmap.symm) h, bit_masked hsrc hmas]

end Masked

/-- The three routines are the same function, and doing any of them twice is doing it once. -/
theorem merges_masked (map : IOMap C) (s : State C) {dest src mask : List Byte}
    (hsrc : src.length = dest.length) (hmas : mask.length = dest.length)
    (hmap : map.processDataSize = dest.length) :
    (∀ merge ∈ [copyMaskedBits, updateDomain, mergeData map s],
      merge dest src mask = masked dest src mask ∧
        merge (merge dest src mask) src mask = merge dest src mask) ∧
    ∀ r, s.processData = dest → scan map src mask s = some r →
      r.processData = masked dest src mask := by
  refine ⟨fun merge hmer => ?_, fun r hs => processData_of_scan hsrc hmas hmap hs⟩
  have hall : ∀ d : List Byte, d.length = dest.length →
      merge d src mask = masked d src mask := by
    intro d hd
    simp only [mem_cons, not_mem_nil, or_false] at hmer
    obtain rfl | rfl | rfl := hmer
    · simp only [copyMaskedBits, copyByte_eq, masked]
    · simp only [updateDomain, updateByte_eq, masked]
    · obtain ⟨r, hr, hdat⟩ := scan_of_last map s d src mask
      rw [← hdat]
      exact processData_of_scan (hsrc.trans hd.symm) (hmas.trans hd.symm) (hmap.trans hd.symm) rfl
        hr
  rw [hall dest rfl, hall _ (length_masked hsrc hmas), masked_masked hsrc hmas]
  exact ⟨rfl, rfl⟩

theorem pair_merged : mergeData pairMap pairState [255#8] [0#8] [2#8] = [253#8] := by
  have hsrc : [0#8].length = [255#8].length := rfl
  have hmas : [2#8].length = [255#8].length := rfl
  have h := ((merges_masked pairMap pairState hsrc hmas rfl).1 _ (.tail _ (.tail _ (.head _)))).1
  exact h.trans (by decide)

/-- Whatever the updates of the domain are, the last one whose mask has a bit decides it. -/
theorem bit_updates {dest : List Byte} {us : List (List Byte × List Byte)}
    (h : ∀ u ∈ us, u.1.length = dest.length ∧ u.2.length = dest.length) (b : ℕ) :
    bit (us.foldl (fun d u => updateDomain d u.1 u.2) dest) b =
      (us.filter fun u => bit u.2 b).getLast?.elim (bit dest b) fun u => bit u.1 b := by
  induction us generalizing dest with
  | nil => rfl
  | cons u us ih =>
    obtain ⟨⟨hsrc, hmas⟩, h⟩ := forall_mem_cons.mp h
    have hupd : updateDomain dest u.1 u.2 = masked dest u.1 u.2 := by
      simp only [updateDomain, updateByte_eq, masked]
    rw [foldl_cons, hupd, ih (by simpa [length_masked hsrc hmas] using h), bit_masked hsrc hmas,
      mergedBit]
    cases hb : bit u.2 b with
    | false => simp [hb]
    | true =>
      rw [filter_cons, if_pos hb, getLast?_cons]
      cases (us.filter fun u => bit u.2 b).getLast? <;> simp

theorem last_update_decides : bit ([([1#8], [1#8]), ([0#8], [3#8])].foldl
    (fun d u => updateDomain d u.1 u.2) [2#8]) 0 = false :=
  bit_updates (by decide) 0

end Clockwork.IOComponent
