import Clockwork.SetOperations

namespace Clockwork.SetOperations

open List Function

namespace Env

variable {F M : Type}

theorem filter_of_first {p : Item F M → Bool} {as : List (Item F M)} {i : ℕ} (hi : i < as.length)
    (hbef : ∀ a ∈ as.take i, p a = false) (hp : p as[i] = true) :
    as.filter p = as[i] :: (as.drop (i + 1)).filter p := by
  have hnil : (as.take i).filter p = [] := by
    rw [filter_eq_nil_iff]
    exact fun a ha => by simp [hbef a ha]
  conv_lhs => rw [← take_append_drop i as, filter_append, hnil, nil_append,
    drop_eq_getElem_cons hi, filter_cons_of_pos hp]

variable [Double F]

section Difference

variable (env : Env F M) (owner : M) (prop : String)

def compareItems (a b : Item F M) : Except Failure Bool :=
  if a.val.kind = .symbol ∧ isPlain b.val then env.compareSymbolAndValue owner a prop b.val
  else if b.val.kind = .symbol ∧ isPlain a.val then env.compareSymbolAndValue owner b prop a.val
  else .ok (a.val.eq b.val)

def foundIn (a : Item F M) : List (Item F M) → Except Failure Bool
  | [] => .ok false
  | b :: bs =>
    match env.compareItems owner prop a b with
    | .error f => .error f
    | .ok true => .ok true
    | .ok false => foundIn a bs

variable [DecidableEq M] (sourceA sourceB dest : M)

/-- `DifferenceSetOperation::doOperation`, from an index on. The lists are read again at each
turn. -/
def difference : ℕ → (M → List (Item F M)) → ℕ → Option (Except Failure (M → List (Item F M)))
  | 0, _, _ => none
  | fuel + 1, lists, i =>
    match (lists sourceA)[i]? with
    | none => some (.ok lists)
    | some a =>
      match env.foundIn owner prop a (lists sourceB) with
      | .error f => some (.error f)
      | .ok true => difference fuel lists (i + 1)
      | .ok false =>
        difference fuel (Function.update lists dest (lists dest ++ [env.entry dest a])) (i + 1)

def isMatch (a b : Item F M) : Bool :=
  match env.compareItems owner prop a b with
  | .ok r => r
  | .error _ => false

def unmatched (bs : List (Item F M)) (a : Item F M) : Bool := !bs.any (env.isMatch owner prop a)

def differenceOf (lists : M → List (Item F M)) : M → List (Item F M) :=
  Function.update lists dest
    (lists dest ++ (lists sourceA).filter (env.unmatched owner prop (lists sourceB)))

end Difference

variable {env : Env F M} {owner : M} {prop : String} {a : Item F M}

theorem foundIn_eq_false_iff {bs : List (Item F M)} :
    env.foundIn owner prop a bs = .ok false ↔
      ∀ b ∈ bs, env.compareItems owner prop a b = .ok false := by
  induction bs with
  | nil => simp [foundIn]
  | cons b bs ih =>
    rw [foundIn, forall_mem_cons]
    cases hb : env.compareItems owner prop a b with
    | error f => simp
    | ok r => cases r <;> simp [ih]

theorem unmatched_of_foundIn {bs : List (Item F M)} {r : Bool}
    (h : env.foundIn owner prop a bs = .ok r) : env.unmatched owner prop bs a = !r := by
  induction bs with
  | nil =>
    cases h
    rfl
  | cons b bs ih =>
    rw [foundIn] at h
    cases hb : env.compareItems owner prop a b with
    | error f => simp [hb] at h
    | ok r' =>
      cases r' with
      | true =>
        rw [hb] at h
        cases h
        simp [unmatched, isMatch, hb]
      | false =>
        rw [hb] at h
        have hres := ih h
        simp only [unmatched] at hres
        simp [unmatched, isMatch, hb, hres]

section OtherDest

variable (env owner prop) in
/-- The items that are appended to `acc` for those of a list; `bs acc` is the second list then. -/
def appended (dest : M) (bs : List (Item F M) → List (Item F M)) :
    List (Item F M) → List (Item F M) → Except Failure (List (Item F M))
  | [], acc => .ok acc
  | a :: as, acc =>
    match env.foundIn owner prop a (bs acc) with
    | .error f => .error f
    | .ok true => appended dest bs as acc
    | .ok false => appended dest bs as (acc ++ [env.entry dest a])

variable {dest : M} {bs : List (Item F M) → List (Item F M)} {B : List (Item F M)}
  {as acc cs : List (Item F M)}

theorem appended_cons_cases {a : Item F M}
    (h : env.appended owner prop dest bs (a :: as) acc = .ok cs) :
    env.foundIn owner prop a (bs acc) = .ok true ∧ env.appended owner prop dest bs as acc = .ok cs ∨
      env.foundIn owner prop a (bs acc) = .ok false ∧
        env.appended owner prop dest bs as (acc ++ [env.entry dest a]) = .ok cs := by
  rw [appended] at h
  cases hfou : env.foundIn owner prop a (bs acc) with
  | error f => simp [hfou] at h
  | ok r =>
    rw [hfou] at h
    cases r with
    | true => exact .inl ⟨rfl, h⟩
    | false => exact .inr ⟨rfl, h⟩

theorem exists_appended_eq
    (h : env.appended owner prop dest bs as acc = .ok cs) : ∃ more, cs = acc ++ more := by
  induction as generalizing acc with
  | nil =>
    cases h
    exact ⟨[], by simp⟩
  | cons a as ih =>
    rcases appended_cons_cases h with ⟨-, hres⟩ | ⟨-, hres⟩
    · exact ih hres
    · obtain ⟨more, rfl⟩ := ih hres
      exact ⟨env.entry dest a :: more, by simp⟩

section

variable (hbs : ∀ acc, ∃ more, bs acc = B ++ more)

include hbs

theorem unmatched_of_not_found {a : Item F M}
    {acc : List (Item F M)} (h : env.foundIn owner prop a (bs acc) = .ok false) :
    env.unmatched owner prop B a = true := by
  obtain ⟨more, hmor⟩ := hbs acc
  rw [foundIn_eq_false_iff, hmor] at h
  have hB : env.foundIn owner prop a B = .ok false :=
    foundIn_eq_false_iff.mpr fun b hb => h b (by simp [hb])
  simpa using unmatched_of_foundIn hB

theorem length_appended_le (h : env.appended owner prop dest bs as acc = .ok cs) :
    cs.length ≤ acc.length + (as.filter (env.unmatched owner prop B)).length := by
  induction as generalizing acc with
  | nil =>
    cases h
    simp
  | cons a as ih =>
    rw [filter_cons]
    rcases appended_cons_cases h with ⟨-, hres⟩ | ⟨hfou, hres⟩
    · have hle := ih hres
      split_ifs
      · rw [length_cons]
        omega
      · exact hle
    · have hle := ih hres
      rw [length_append, length_singleton] at hle
      rw [if_pos (unmatched_of_not_found hbs hfou), length_cons]
      omega

/-- The right items are appended exactly if each one is found when its turn comes exactly if it
matches the list as it was, and is appended as it is if it does not. -/
theorem appended_iff (as acc : List (Item F M)) :
    env.appended owner prop dest bs as acc = .ok (acc ++ as.filter (env.unmatched owner prop B)) ↔
      ∀ before a after, as = before ++ a :: after →
        env.foundIn owner prop a (bs (acc ++ before.filter (env.unmatched owner prop B))) =
            .ok (!env.unmatched owner prop B a) ∧
          (env.unmatched owner prop B a = true → env.entry dest a = a) := by
  induction as generalizing acc with
  | nil => simp [appended]
  | cons a as ih =>
    rw [Runs.forall_event_cons_iff (Q := fun before a =>
      env.foundIn owner prop a (bs (acc ++ before.filter (env.unmatched owner prop B))) =
          .ok (!env.unmatched owner prop B a) ∧
        (env.unmatched owner prop B a = true → env.entry dest a = a))]
    rw [appended, filter_nil, append_nil, filter_cons]
    cases hfou : env.foundIn owner prop a (bs acc) with
    | error f => simp
    | ok r =>
      cases r with
      | true =>
        by_cases hun : env.unmatched owner prop B a = true
        · -- one item less is appended than should be
          refine iff_of_false (fun h => ?_) (by simp [hun])
          have hle := length_appended_le hbs h
          rw [if_pos hun, length_append, length_cons] at hle
          omega
        · simp only [hun, if_false, Bool.false_eq_true]
          rw [ih]
          simp [hun]
      | false =>
        have hun := unmatched_of_not_found hbs hfou
        rw [if_pos hun]
        by_cases hent : env.entry dest a = a
        · have happ : acc ++ a :: as.filter (env.unmatched owner prop B) =
              (acc ++ [a]) ++ as.filter (env.unmatched owner prop B) := by simp
          dsimp only
          rw [hent, happ, ih]
          simp [hun]
        · refine iff_of_false (fun h => ?_) (by simp [hent, hun])
          obtain ⟨more, hmor⟩ := exists_appended_eq h
          rw [append_assoc, append_cancel_left_eq] at hmor
          exact hent (cons.inj hmor).1.symm

end

end OtherDest

variable [DecidableEq M] {sourceA sourceB dest : M} {lists : M → List (Item F M)}

theorem difference_of_ne (hne : sourceA ≠ dest) (lists : M → List (Item F M)) (fuel i : ℕ)
    (acc : List (Item F M)) : env.difference owner prop sourceA sourceB dest fuel
        (update lists dest (lists dest ++ acc)) i = some ((env.appended owner prop dest
          (fun acc => if sourceB = dest then lists sourceB ++ acc else lists sourceB)
          ((lists sourceA).drop i) acc).map fun cs => update lists dest (lists dest ++ cs)) ∨
      fuel ≤ (lists sourceA).length - i ∧ env.difference owner prop sourceA sourceB dest fuel
          (update lists dest (lists dest ++ acc)) i = none := by
  induction fuel generalizing i acc with
  | zero => exact .inr ⟨Nat.zero_le _, rfl⟩
  | succ fuel ih =>
    have hB : update lists dest (lists dest ++ acc) sourceB =
        if sourceB = dest then lists sourceB ++ acc else lists sourceB := by
      by_cases h : sourceB = dest
      · simp [h]
      · simp [h]
    rw [difference, update_of_ne hne, hB]
    by_cases hi : i < (lists sourceA).length
    · rw [getElem?_eq_getElem hi, drop_eq_getElem_cons hi, appended]
      dsimp only
      cases env.foundIn owner prop (lists sourceA)[i]
          (if sourceB = dest then lists sourceB ++ acc else lists sourceB) with
      | error f => exact .inl rfl
      | ok r =>
        cases r with
        | true =>
          refine (ih (i + 1) acc).imp_right fun h => ⟨?_, h.2⟩
          omega
        | false =>
          dsimp only
          rw [update_self, update_idem, append_assoc]
          refine (ih (i + 1) (acc ++ [env.entry dest (lists sourceA)[i]])).imp_right fun h =>
            ⟨?_, h.2⟩
          omega
    · rw [getElem?_eq_none (by omega), drop_eq_nil_of_le (by omega)]
      exact .inl rfl

theorem exists_difference_iff_of_ne (hne : sourceA ≠ dest) (out : List (Item F M)) :
    (∃ fuel, env.difference owner prop sourceA sourceB dest fuel lists 0 =
        some (.ok (update lists dest (lists dest ++ out)))) ↔ env.appended owner prop dest
        (fun acc => if sourceB = dest then lists sourceB ++ acc else lists sourceB)
        (lists sourceA) [] = .ok out := by
  have hsta : update lists dest (lists dest ++ []) = lists := by simp
  have hinj (cs : List (Item F M)) :
      update lists dest (lists dest ++ cs) =
        update lists dest (lists dest ++ out) ↔ cs = out := by
    rw [(update_injective lists dest).eq_iff, append_cancel_left_eq]
  have hres (r : Except Failure (List (Item F M))) :
      r.map (fun cs => update lists dest (lists dest ++ cs)) =
        .ok (update lists dest (lists dest ++ out)) ↔ r = .ok out := by
    cases r with
    | error f => simp [Except.map]
    | ok cs => simpa [Except.map] using hinj cs
  rw [← hres]
  constructor
  · rintro ⟨fuel, h⟩
    rcases difference_of_ne hne lists fuel 0 [] with hrun | ⟨-, hnon⟩
    · rw [hsta, h, drop_zero] at hrun
      exact (Option.some.inj hrun).symm
    · rw [hsta, h] at hnon
      cases hnon
  · intro h
    refine ⟨(lists sourceA).length + 1, ?_⟩
    rcases difference_of_ne hne lists ((lists sourceA).length + 1) 0 [] with hrun | ⟨hle, -⟩
    · rw [hsta, drop_zero] at hrun
      rw [hrun, h]
    · omega

variable {fuel i : ℕ} {lists' : M → List (Item F M)}

theorem exists_difference_eq
    (h : env.difference owner prop sourceA sourceB dest fuel lists i = some (.ok lists'))
    (x : M) : ∃ cs, lists' x = lists x ++ cs := by
  induction fuel generalizing lists i with
  | zero => cases h
  | succ fuel ih =>
    rw [difference] at h
    cases hget : (lists sourceA)[i]? with
    | none =>
      rw [hget] at h
      cases h
      exact ⟨[], by simp⟩
    | some a =>
      rw [hget] at h
      cases hfou : env.foundIn owner prop a (lists sourceB) with
      | error f => simp [hfou] at h
      | ok r =>
        simp only [hfou] at h
        cases r with
        | true => exact ih h
        | false =>
          obtain ⟨cs, hcs⟩ := ih h
          rw [hcs]
          by_cases hx : x = dest
          · subst hx
            exact ⟨env.entry x a :: cs, by simp⟩
          · exact ⟨cs, by simp [hx]⟩

theorem difference_ne_of_not_found
    (hmem : a ∈ (lists sourceA).drop i) (hent : env.entry sourceA a = a)
    (hfou : env.foundIn owner prop a (lists' sourceB) = .ok false) :
    env.difference owner prop sourceA sourceB sourceA fuel lists i ≠ some (.ok lists') := by
  intro h
  induction fuel generalizing lists i with
  | zero => cases h
  | succ fuel ih =>
    -- what the second list holds now is part of what it holds in the end
    have hnow : env.foundIn owner prop a (lists sourceB) = .ok false := by
      obtain ⟨cs, hcs⟩ := exists_difference_eq h sourceB
      rw [foundIn_eq_false_iff, hcs] at hfou
      exact foundIn_eq_false_iff.mpr fun b hb => hfou b (by simp [hb])
    have hi : i < (lists sourceA).length := by
      by_contra hle
      rw [drop_eq_nil_of_le (by omega)] at hmem
      cases hmem
    rw [drop_eq_getElem_cons hi, mem_cons] at hmem
    rw [difference, getElem?_eq_getElem hi] at h
    cases htur : env.foundIn owner prop (lists sourceA)[i] (lists sourceB) with
    | error f => simp [htur] at h
    | ok r =>
      simp only [htur] at h
      cases r with
      | true =>
        rcases hmem with heq | hres
        · rw [← heq, hnow] at htur
          cases htur
        · exact ih hres h
      | false =>
        refine ih ?_ h
        rw [update_self, drop_append_of_le_length (by omega), mem_append]
        rcases hmem with heq | hres
        · right
          rw [← heq, hent]
          exact mem_singleton_self a
        · exact .inl hres

theorem mem_of_mem_differenceOf {b : Item F M}
    (h : b ∈ env.differenceOf owner prop sourceA sourceB sourceA lists sourceB) :
    b ∈ lists sourceB := by
  unfold differenceOf at h
  by_cases hBA : sourceB = sourceA
  · subst hBA
    rw [update_self, mem_append] at h
    exact h.elim id fun hfil => (mem_filter.mp hfil).1
  · rwa [update_of_ne hBA] at h

theorem foundIn_of_difference
    (hbef : ∀ a ∈ (lists sourceA).take i, env.unmatched owner prop (lists sourceB) a = false)
    (h : env.difference owner prop sourceA sourceB sourceA fuel lists i =
      some (.ok (env.differenceOf owner prop sourceA sourceB sourceA lists))) :
    ∀ a ∈ (lists sourceA).drop i, env.foundIn owner prop a (lists sourceB) = .ok true := by
  induction fuel generalizing i with
  | zero => cases h
  | succ fuel ih =>
    by_cases hi : i < (lists sourceA).length
    · rw [drop_eq_getElem_cons hi, forall_mem_cons]
      rw [difference, getElem?_eq_getElem hi] at h
      cases htur : env.foundIn owner prop (lists sourceA)[i] (lists sourceB) with
      | error f => simp [htur] at h
      | ok r =>
        simp only [htur] at h
        have hun := unmatched_of_foundIn htur
        cases r with
        | true =>
          refine ⟨rfl, ih ?_ h⟩
          rw [take_succ_eq_append_getElem hi, forall_mem_append]
          exact ⟨hbef, by simpa using hun⟩
        | false =>
          -- the item is the first one of the difference, hence it is appended as it is
          have hent : env.entry sourceA (lists sourceA)[i] = (lists sourceA)[i] := by
            obtain ⟨cs, hcs⟩ := exists_difference_eq h sourceA
            rw [differenceOf, update_self, update_self, append_assoc,
              append_cancel_left_eq, filter_of_first hi hbef (by simpa using hun)] at hcs
            exact (cons.inj hcs).1.symm
          refine absurd h (difference_ne_of_not_found (a := (lists sourceA)[i]) ?_ hent ?_)
          · rw [update_self, drop_append_of_le_length (by omega), hent]
            simp
          · rw [foundIn_eq_false_iff] at htur ⊢
            exact fun b hb => htur b (mem_of_mem_differenceOf hb)
    · rw [drop_eq_nil_of_le (by omega)]
      simp

theorem difference_of_found (fuel i : ℕ) (hfue : (lists sourceA).length - i < fuel)
    (h : ∀ a ∈ (lists sourceA).drop i, env.foundIn owner prop a (lists sourceB) = .ok true) :
    env.difference owner prop sourceA sourceB dest fuel lists i = some (.ok lists) := by
  induction fuel generalizing i with
  | zero => omega
  | succ fuel ih =>
    rw [difference]
    by_cases hi : i < (lists sourceA).length
    · rw [drop_eq_getElem_cons hi, forall_mem_cons] at h
      rw [getElem?_eq_getElem hi]
      dsimp only
      rw [h.1]
      exact ih (i + 1) (by omega) h.2
    · rw [getElem?_eq_none (by omega)]

/-- A difference that is written to its first list is right only if there is nothing to write.
Written to another list it is right exactly if each item is found, among those that the second
list holds when its turn comes, where it matches one that was there at the start. -/
theorem difference_iff (env : Env F M) (owner : M) (prop : String) (sourceA sourceB dest : M)
    (lists : M → List (Item F M)) :
    (∃ fuel, env.difference owner prop sourceA sourceB dest fuel lists 0 =
        some (.ok (env.differenceOf owner prop sourceA sourceB dest lists))) ↔
      if sourceA = dest then
        ∀ a ∈ lists sourceA, env.foundIn owner prop a (lists sourceB) = .ok true
      else ∀ before a after, lists sourceA = before ++ a :: after → env.foundIn owner prop a
              (if sourceB = dest then
                lists sourceB ++ before.filter (env.unmatched owner prop (lists sourceB))
              else lists sourceB) = .ok (!env.unmatched owner prop (lists sourceB) a) ∧
            (env.unmatched owner prop (lists sourceB) a = true → env.entry dest a = a) := by
  by_cases hA : sourceA = dest
  · rw [if_pos hA]
    subst hA
    constructor
    · rintro ⟨fuel, h⟩
      exact foundIn_of_difference (i := 0) (by simp) h
    · intro h
      have hnot : env.differenceOf owner prop sourceA sourceB sourceA lists = lists := by
        have hfil : (lists sourceA).filter (env.unmatched owner prop (lists sourceB)) = [] := by
          rw [filter_eq_nil_iff]
          exact fun a ha => by simp [unmatched_of_foundIn (h a ha)]
        rw [differenceOf, hfil, append_nil, update_eq_self]
      rw [hnot]
      exact ⟨(lists sourceA).length + 1, difference_of_found _ 0 (by omega) (by simpa using h)⟩
  · have hgro (acc : List (Item F M)) :
        ∃ cs, (if sourceB = dest then lists sourceB ++ acc else lists sourceB) =
          lists sourceB ++ cs := by
      by_cases hB : sourceB = dest
      · exact ⟨acc, if_pos hB⟩
      · exact ⟨[], by simp [hB]⟩
    rw [if_neg hA, differenceOf, exists_difference_iff_of_ne hA]
    exact appended_iff hgro (lists sourceA) []

end Env

/-- A list that is to lose nothing grows without end. -/
theorem difference_to_itself_runs_on :
    let five : Item ℚ String := ⟨.integer 5, none⟩
    let lists := threeLists [five] [] []
    oneFlag.differenceOf "owner" "" "a" "b" "a" lists "a" = [five, five] ∧
      ¬∃ fuel r, oneFlag.difference "owner" "" "a" "b" "a" fuel lists 0 = some r := by
  intro five lists
  have hnon (fuel n : ℕ) : oneFlag.difference "owner" "" "a" "b" "a" fuel
      (update lists "a" (replicate (n + 1) five)) n = none := by
    induction fuel generalizing n with
    | zero => rfl
    | succ fuel ih =>
      have hget : (replicate (n + 1) five)[n]? = some five := by simp
      have hB : update lists "a" (replicate (n + 1) five) "b" = [] := rfl
      have hent : oneFlag.entry "a" five = five := rfl
      rw [Env.difference, update_self, hget, hB]
      dsimp only [Env.foundIn]
      rw [hent, update_idem, ← replicate_succ']
      exact ih (n + 1)
  refine ⟨by rfl, ?_⟩
  rintro ⟨fuel, r, h⟩
  have hsta : update lists "a" (replicate (0 + 1) five) = lists :=
    update_eq_self "a" lists
  have hfue := hnon fuel 0
  rw [hsta, h] at hfue
  cases hfue

end Clockwork.SetOperations
