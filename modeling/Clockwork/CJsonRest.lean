import Clockwork.CJsonText
import Clockwork.Library.Fallible

namespace Clockwork.CJson

open List Fallible Nat Except

def Bare (c : Char) : Prop := 31 < c.toNat ∧ c ≠ '"' ∧ c ≠ '\\'

instance : DecidablePred Bare := fun _ => inferInstanceAs (Decidable (_ ∧ _))

theorem bare_of_all {s : Text} (h : (s.all fun c => decide (Bare c)) = true) : ∀ c ∈ s, Bare c :=
  fun c hc => of_decide_eq_true (all_eq_true.mp h c hc)

/-- A string ends at a quote, which is passed, at a control character or with the text. -/
def Stops (tail rest : Text) : Prop :=
  tail = '"' :: rest ∨ tail = rest ∧ ∀ c ∈ rest.head?, c.toNat ≤ 31

theorem length_utf8_le (uc : ℕ) : (utf8 uc).length ≤ 3 := by
  unfold utf8
  split_ifs <;> simp

variable {c : Char}

theorem stringChars_control (h : c.toNat ≤ 31) (cs : Text) :
    stringChars 0 (c :: cs) = .ok ([], c :: cs) := by
  have hquo : c ≠ '"' := by
    rintro rfl
    exact absurd h (by decide)
  simp [stringChars, hquo, h]

theorem stringChars_of_bare (h : Bare c) (cs : Text) :
    stringChars 0 (c :: cs) = (stringChars 0 cs).map fun r => (c :: r.1, r.2) := by
  have hnot : ¬c.toNat ≤ 31 := not_le.mpr h.1
  simp [stringChars, h.2.1, hnot, h.2.2]

theorem stringChars_escaped {cs v rest : Text} (h : stringChars 0 ('\\' :: cs) = .ok (v, rest)) :
    ∃ n w v', stringChars n cs = .ok (v', rest) ∧ v = w ++ v' ∧ w.length ≤ n := by
  have hsim {d : Char} (h : (stringChars 1 cs).map (fun r => (d :: r.1, r.2)) = .ok (v, rest)) :
      ∃ n w v', stringChars n cs = .ok (v', rest) ∧ v = w ++ v' ∧ w.length ≤ n := by
    obtain ⟨⟨v', rest'⟩, hv', heq⟩ := map_eq_ok_iff.mp h
    cases heq
    exact ⟨1, [d], v', hv', rfl, le_refl 1⟩
  rw [stringChars.eq_def] at h
  dsimp only at h
  rw [if_neg (by decide), if_neg (by decide), if_neg (by simp)] at h
  split at h
  · cases h
  all_goals try exact hsim h
  split at h
  · obtain ⟨⟨v', rest'⟩, hv', heq⟩ := map_eq_ok_iff.mp h
    cases heq
    exact ⟨5, _, v', hv', rfl, (length_utf8_le _).trans (by decide)⟩
  · cases h

/-- The characters that the second loop passes over are no fewer than those it reads, and as many
only if it reads them as they are. -/
theorem stringChars_body {n : ℕ} {t v rest : Text} (h : stringChars n t = .ok (v, rest)) :
    ∃ body tail, t = body ++ tail ∧ Stops tail rest ∧ n + v.length ≤ body.length ∧
      (n = 0 → body.length ≤ v.length → body = v ∧ ∀ c ∈ body, Bare c) := by
  induction t generalizing n v with
  | nil =>
    cases n with
    | zero =>
      cases h
      exact ⟨[], [], rfl, .inr ⟨rfl, by simp⟩, le_refl 0, fun _ _ => ⟨rfl, by simp⟩⟩
    | succ n => cases h
  | cons c cs ih =>
    cases n with
    | succ n =>
      obtain ⟨body, tail, rfl, hsto, hlen, -⟩ := ih h
      refine ⟨c :: body, tail, rfl, hsto, ?_, fun hn => absurd hn (succ_ne_zero n)⟩
      rw [length_cons]
      omega
    | zero =>
      by_cases hquo : c = '"'
      · subst hquo
        obtain ⟨rfl, rfl⟩ := Prod.mk.inj (ok.inj h)
        exact ⟨[], '"' :: cs, rfl, .inl rfl, le_refl 0, fun _ _ => ⟨rfl, by simp⟩⟩
      by_cases hcon : c.toNat ≤ 31
      · rw [stringChars_control hcon] at h
        cases h
        exact ⟨[], c :: cs, rfl, .inr ⟨rfl, by simp [hcon]⟩, le_refl 0,
          fun _ _ => ⟨rfl, by simp⟩⟩
      by_cases hsla : c = '\\'
      · subst hsla
        obtain ⟨n, w, v', hv', rfl, hw⟩ := stringChars_escaped h
        obtain ⟨body, tail, rfl, hsto, hlen, -⟩ := ih hv'
        refine ⟨'\\' :: body, tail, rfl, hsto, ?_, fun _ hle => ?_⟩
        · rw [length_append, length_cons]
          omega
        · -- the backslash itself is not read
          rw [length_append, length_cons] at hle
          omega
      · have hbar : Bare c := ⟨not_le.mp hcon, hquo, hsla⟩
        rw [stringChars_of_bare hbar] at h
        obtain ⟨⟨v', rest'⟩, hv', heq⟩ := map_eq_ok_iff.mp h
        cases heq
        obtain ⟨body, tail, rfl, hsto, hlen, hsam⟩ := ih hv'
        dsimp only
        refine ⟨c :: body, tail, rfl, hsto, ?_, fun _ hle => ?_⟩
        · rw [length_cons, length_cons]
          omega
        · rw [length_cons, length_cons] at hle
          obtain ⟨hbod, hall⟩ := hsam rfl (by omega)
          exact ⟨by rw [hbod], forall_mem_cons.mpr ⟨hbar, hall⟩⟩

theorem parseString_body {u v rest : Text} (h : parseString u = .ok (v, rest)) :
    ∃ body tail, u = '"' :: (body ++ tail) ∧ Stops tail rest ∧ v.length ≤ body.length ∧
      (body.length ≤ v.length → body = v ∧ ∀ c ∈ body, Bare c) := by
  unfold parseString at h
  split at h
  · next cs =>
    obtain ⟨room, -, h⟩ := bind_eq_ok_iff.mp h
    obtain ⟨⟨s, rest'⟩, hs, h⟩ := bind_eq_ok_iff.mp h
    dsimp only at h
    split at h
    · cases h
      obtain ⟨body, tail, rfl, hsto, hlen, hsam⟩ := stringChars_body hs
      have htak := (List.takeWhile_prefix (l := s) (· ≠ '\x00')).length_le
      refine ⟨body, tail, rfl, hsto, by omega, fun hle => ?_⟩
      obtain ⟨rfl, hbar⟩ := hsam rfl (by omega)
      exact ⟨((List.takeWhile_prefix _).eq_of_length (by omega)).symm, hbar⟩
    · cases h
  · cases h

theorem Stops.suffix {tail rest : Text} (h : Stops tail rest) : rest <:+ tail := by
  rcases h with rfl | ⟨rfl, -⟩
  · exact suffix_cons _ _
  · exact suffix_rfl

theorem parseString_suffix {u v rest : Text} (h : parseString u = .ok (v, rest)) : rest <:+ u := by
  obtain ⟨body, tail, rfl, hsto, -⟩ := parseString_body h
  refine hsto.suffix.trans ?_
  exact (suffix_append body tail).trans (suffix_cons _ _)

theorem Stops.not_bare {tail rest : Text} (h : Stops (c :: tail) rest) : ¬Bare c := by
  intro hbar
  rcases h with heq | ⟨rfl, hcon⟩
  · exact hbar.2.1 (cons.inj heq).1
  · exact absurd (hcon c rfl) (not_le.mpr hbar.1)

theorem parseString_within {u v rest y z : Text} (h : parseString u = .ok (v, rest))
    (hres : rest ≠ []) (hsuf : u <:+ y ++ '"' :: z) (hz : ∀ c ∈ z, Bare c) :
    z.length ≤ rest.length ∧ v.length + z.length + 2 ≤ u.length := by
  obtain ⟨body, tail, rfl, hsto, hlen, -⟩ := parseString_body h
  have hlon : z.length < tail.length := by
    by_contra hnot
    have hall : tail <:+ y ++ '"' :: z :=
      (suffix_append body tail).trans ((suffix_cons _ _).trans hsuf)
    have htai : tail <:+ z := by
      apply suffix_of_suffix_length_le hall ?_ (not_lt.mp hnot)
      exact (suffix_cons _ z).trans (suffix_append y _)
    cases tail with
    | nil => exact hres (eq_nil_of_suffix_nil hsto.suffix)
    | cons c tail => exact hsto.not_bare (hz c (htai.mem mem_cons_self))
  have htai : tail.length ≤ rest.length + 1 := by
    rcases hsto with rfl | ⟨rfl, -⟩
    · exact le_refl _
    · exact le_succ _
  rw [length_cons, length_append]
  omega

theorem parseString_exact {s z v rest : Text} (hc : 31 < c.toNat)
    (h : parseString ('"' :: (s ++ '"' :: c :: z)) = .ok (v, rest)) (hs : s.length ≤ v.length)
    (hres : z.length < rest.length) : s = v ∧ (∀ c ∈ s, Bare c) ∧ rest = c :: z := by
  obtain ⟨body, tail, heq, hsto, hlen, hsam⟩ := parseString_body h
  replace heq := (cons.inj heq).2
  have htot := congrArg length heq
  simp only [length_append, length_cons] at htot
  rcases hsto with rfl | ⟨rfl, hcon⟩
  · rw [length_cons] at htot
    obtain ⟨rfl, htai⟩ := append_inj heq (by omega)
    obtain ⟨rfl, hbar⟩ := hsam (by omega)
    exact ⟨rfl, hbar, (cons.inj htai).2.symm⟩
  · -- the string would end at the quote or at the character after it
    have htai : tail <:+ '"' :: c :: z := by
      refine suffix_of_suffix_length_le (suffix_append body tail) ?_ ?_
      · rw [← heq]
        exact suffix_append s _
      · simp only [length_cons]
        omega
    rcases suffix_cons_iff.mp htai with rfl | htai
    · exact absurd (hcon '"' rfl) (by decide)
    · obtain rfl : tail = c :: z := htai.eq_of_length (by
        have hle := htai.length_le
        rw [length_cons] at hle ⊢
        omega)
      exact absurd (hcon c rfl) (not_le.mpr hc)

theorem parseString_bare {s : Text} (h : ∀ c ∈ s, Bare c) (rest : Text) :
    parseString ('"' :: (s ++ '"' :: rest)) = .ok (s, rest) := by
  have hesc : s.flatMap escape = s := by
    induction s with
    | nil => rfl
    | cons c s ih =>
      obtain ⟨hc, h⟩ := forall_mem_cons.mp h
      have hc' : escape c = [c] := if_pos hc
      rw [flatMap_cons, ih h, hc']
      rfl
  have hkep : s.filter kept = s := by
    refine filter_eq_self.mpr fun c hc => ?_
    simp [kept, (h c hc).1]
  have hpri := parseString_print s rest
  rw [printString, hesc, hkep] at hpri
  simpa using hpri

theorem skip_suffix {s r : Text} (h : skip s = .ok r) : r <:+ s := by
  induction s with
  | nil => cases h
  | cons c cs ih =>
    unfold skip at h
    split at h
    · exact (ih h).trans (suffix_cons c cs)
    · cases h
      exact suffix_rfl

theorem ite_tail_suffix (p : Prop) [Decidable p] (s : Text) : (if p then s.tail else s) <:+ s := by
  split_ifs
  · exact tail_suffix s
  · exact suffix_rfl

variable {F : Type} [NumberText F] {rest s : Text} {item : Item F} {c : Chain F} {n : ℕ}

theorem fraction_suffix {x y : F} {scale scale' : ℤ}
    (h : fraction x scale s = .ok (y, scale', rest)) : rest <:+ s := by
  induction s generalizing x scale with
  | nil => cases h
  | cons c cs ih =>
    unfold fraction at h
    split at h
    · split_ifs at h
      · exact (ih h).trans (suffix_cons c _)
      · cases h
        exact suffix_cons c _
    · cases h
      exact suffix_cons c []

theorem exponent_suffix {e : ℤ} (h : exponent s = .ok (e, rest)) : rest <:+ s := by
  unfold exponent at h
  dsimp only at h
  have hsuf := ite_tail_suffix (s.head? = some '-' ∨ s.head? = some '+') s
  generalize (if s.head? = some '-' ∨ s.head? = some '+' then s.tail else s) = t at h hsuf
  split_ifs at h
  all_goals
    obtain ⟨-, rfl⟩ := Prod.mk.inj (ok.inj h)
    exact (dropWhile_suffix _).trans hsuf

theorem withExponent_suffix {negative : Bool} {x : F} {scale : ℤ}
    (h : withExponent negative x scale s = .ok (item, rest)) :
    rest <:+ s ∧ ∃ y, item = .double y := by
  have hexp {c : Char} {t : Text}
      (h : (exponent t).map (fun r => scaled negative x (scale + r.1) r.2) = .ok (item, rest)) :
      rest <:+ c :: t ∧ ∃ y, item = .double y := by
    obtain ⟨⟨e, rest'⟩, he, heq⟩ := map_eq_ok_iff.mp h
    cases heq
    exact ⟨(exponent_suffix he).trans (suffix_cons c t), _, rfl⟩
  unfold withExponent at h
  split at h
  · exact hexp h
  · exact hexp h
  · cases h
    exact ⟨suffix_rfl, _, rfl⟩

theorem parseNumber_suffix (h : parseNumber s = .ok (item, rest)) :
    rest <:+ s ∧ ((∃ i, item = .int i) ∨ ∃ y, item = .double y) := by
  unfold parseNumber at h
  dsimp only at h
  have hsig := ite_tail_suffix (decide (s.head? = some '-') = true) s
  generalize (if decide (s.head? = some '-') = true then s.tail else s) = s₁ at h hsig
  have hzer := ite_tail_suffix (s₁.head? = some '0') s₁
  generalize (if s₁.head? = some '0' then s₁.tail else s₁) = s₂ at h hzer
  split at h
  · cases h
  · generalize hs : s₂.drop (integralDigits s₂).length = s' at h
    have hsuf : s' <:+ s := by
      rw [← hs]
      exact (drop_suffix _ _).trans (hzer.trans hsig)
    split at h
    · obtain ⟨⟨y, scale, t⟩, hfra, h⟩ := bind_eq_ok_iff.mp h
      obtain ⟨hres, hite⟩ := withExponent_suffix h
      refine ⟨hres.trans ((fraction_suffix hfra).trans ?_), .inr hite⟩
      exact (suffix_cons _ _).trans hsuf
    · obtain ⟨hres, hite⟩ := withExponent_suffix h
      exact ⟨hres.trans hsuf, .inr hite⟩
    · obtain ⟨hres, hite⟩ := withExponent_suffix h
      exact ⟨hres.trans hsuf, .inr hite⟩
    · obtain ⟨i, -, heq⟩ := map_eq_ok_iff.mp h
      cases heq
      exact ⟨hsuf, .inl ⟨i, rfl⟩⟩

theorem parseItems_cases {t rest : Text} (h : parseItems (n + 1) t = .ok (c, rest)) :
    ∃ s item r r', skip t = .ok s ∧ parseValue n s = .ok (item, r) ∧ skip r = .ok r' ∧
      ((∃ t' c', r' = ',' :: t' ∧ parseItems n t' = .ok (c', rest) ∧ c = .cons none item c') ∨
        c = .cons none item .nil ∧ rest = r') := by
  rw [parseItems] at h
  obtain ⟨s, hs, h⟩ := bind_eq_ok_iff.mp h
  obtain ⟨⟨item, r⟩, hite, h⟩ := bind_eq_ok_iff.mp h
  obtain ⟨r', hr', h⟩ := bind_eq_ok_iff.mp h
  refine ⟨s, item, r, r', hs, hite, hr', ?_⟩
  split at h
  · next t' =>
    obtain ⟨⟨c', rest'⟩, hc', heq⟩ := map_eq_ok_iff.mp h
    cases heq
    exact .inl ⟨t', c', rfl, hc', rfl⟩
  · cases h
    exact .inr ⟨rfl, rfl⟩

theorem parseMembers_cases {t rest : Text} (h : parseMembers (n + 1) t = .ok (c, rest)) :
    ∃ s name r s' s'' item q q', skip t = .ok s ∧ parseString s = .ok (name, r) ∧
      skip r = .ok (':' :: s') ∧ skip s' = .ok s'' ∧ parseValue n s'' = .ok (item, q) ∧
      skip q = .ok q' ∧ ((∃ t' c', q' = ',' :: t' ∧ parseMembers n t' = .ok (c', rest) ∧
          c = .cons (some name) item c') ∨ c = .cons (some name) item .nil ∧ rest = q') := by
  rw [parseMembers] at h
  obtain ⟨s, hs, h⟩ := bind_eq_ok_iff.mp h
  obtain ⟨⟨name, r⟩, hnam, h⟩ := bind_eq_ok_iff.mp h
  obtain ⟨r', hr', h⟩ := bind_eq_ok_iff.mp h
  dsimp only at h hr'
  split at h
  · next s' =>
    obtain ⟨s'', hs'', h⟩ := bind_eq_ok_iff.mp h
    obtain ⟨⟨item, q⟩, hite, h⟩ := bind_eq_ok_iff.mp h
    obtain ⟨q', hq', h⟩ := bind_eq_ok_iff.mp h
    refine ⟨s, name, r, s', s'', item, q, q', hs, hnam, hr', hs'', hite, hq', ?_⟩
    dsimp only at h
    split at h
    · next t' =>
      obtain ⟨⟨c', rest'⟩, hc', heq⟩ := map_eq_ok_iff.mp h
      cases heq
      exact .inl ⟨t', c', rfl, hc', rfl⟩
    · cases h
      exact .inr ⟨rfl, rfl⟩
  · cases h

theorem parseMembers_named (name : Text) {t u rest : Text} {d : Char} (hnam : ∀ c ∈ name, Bare c)
    (ht : skip t = .ok ('"' :: (name ++ '"' :: ':' :: d :: u))) (hd : 32 < d.toNat)
    (h : parseMembers (n + 1) t = .ok (c, rest)) :
    ∃ item q q', parseValue n (d :: u) = .ok (item, q) ∧ skip q = .ok q' ∧
      ((∃ t' c', q' = ',' :: t' ∧ parseMembers n t' = .ok (c', rest) ∧
          c = .cons (some name) item c') ∨ c = .cons (some name) item .nil ∧ rest = q') := by
  obtain ⟨s, name', r, s', s'', item, q, q', hs, hrea, hr, hs'', hite, hq', hnex⟩ :=
    parseMembers_cases h
  obtain rfl := ok.inj (ht.symm.trans hs)
  obtain ⟨rfl, rfl⟩ := Prod.mk.inj (ok.inj ((parseString_bare hnam _).symm.trans hrea))
  obtain ⟨-, rfl⟩ := cons.inj (ok.inj ((skip_cons (by decide) _).symm.trans hr))
  obtain rfl := ok.inj ((skip_cons hd _).symm.trans hs'')
  exact ⟨item, q, q', hite, hq', hnex⟩

theorem parseMembers_bare (name : Text) {t u q : Text} {d : Char} (hnam : ∀ c ∈ name, Bare c)
    (ht : skip t = .ok ('"' :: (name ++ '"' :: ':' :: d :: u))) (hd : 32 < d.toNat)
    (hite : parseValue n (d :: u) = .ok (item, q)) :
    (∀ t', skip q = .ok (',' :: t') → parseMembers (n + 1) t =
        (parseMembers n t').map fun r => (.cons (some name) item r.1, r.2)) ∧
      ∀ rest, skip q = .ok ('\x7d' :: rest) →
        parseMembers (n + 1) t = .ok (.cons (some name) item .nil, '\x7d' :: rest) := by
  refine ⟨fun t' hq => ?_, fun rest hq => ?_⟩
  -- up to what follows the value both are the same
  all_goals
    rw [parseMembers, ht]
    change (parseString ('"' :: (name ++ '"' :: ':' :: d :: u))).bind _ = _
    rw [parseString_bare hnam]
    change (skip (d :: u)).bind _ = _
    rw [skip_cons hd]
    change (parseValue n (d :: u)).bind _ = _
    rw [hite]
    change (skip q).bind _ = _
    rw [hq]
    rfl

theorem parseItems_next {t s r t' : Text} (hs : skip t = .ok s)
    (hite : parseValue n s = .ok (item, r)) (hr : skip r = .ok (',' :: t')) :
    parseItems (n + 1) t = (parseItems n t').map fun q => (.cons none item q.1, q.2) := by
  rw [parseItems, hs]
  change (parseValue n s).bind _ = _
  rw [hite]
  change (skip r).bind _ = _
  rw [hr]
  rfl

theorem parseValue_cases (h : parseValue (n + 1) s = .ok (item, rest)) :
    (rest <:+ s ∧ item.child = .nil ∧ ∀ v, item ≠ .string v) ∨
    (∃ v, item = .string v ∧ parseString s = .ok (v, rest)) ∨
    (∃ t t' c, s = '[' :: t ∧ skip t = .ok t' ∧ item = .array c ∧
      (rest <:+ t' ∧ c = .nil ∨ parseItems n t' = .ok (c, ']' :: rest))) ∨
    ∃ t t' c, s = '\x7b' :: t ∧ skip t = .ok t' ∧ item = .object c ∧
      (rest <:+ t' ∧ c = .nil ∨ parseMembers n t' = .ok (c, '\x7d' :: rest)) := by
  rw [parseValue.eq_def] at h
  dsimp only at h
  split_ifs at h
  iterate 3
    · cases h
      exact .inl ⟨drop_suffix _ _, rfl, fun v hv => by cases hv⟩
  · split at h
    · obtain ⟨⟨v, rest'⟩, hv, heq⟩ := map_eq_ok_iff.mp h
      cases heq
      exact .inr (.inl ⟨v, rfl, hv⟩)
    · next t _ _ _ =>
      obtain ⟨t', ht', h⟩ := bind_eq_ok_iff.mp h
      split at h
      · cases h
        exact .inr (.inr (.inl ⟨t, _, .nil, rfl, ht', rfl, .inl ⟨suffix_cons _ _, rfl⟩⟩))
      · obtain ⟨⟨c, r⟩, hc, h⟩ := bind_eq_ok_iff.mp h
        dsimp only at h
        split at h
        · cases h
          exact .inr (.inr (.inl ⟨t, t', c, rfl, ht', rfl, .inr hc⟩))
        · cases h
    · next t _ _ _ =>
      obtain ⟨t', ht', h⟩ := bind_eq_ok_iff.mp h
      split at h
      · cases h
        exact .inr (.inr (.inr ⟨t, _, .nil, rfl, ht', rfl, .inl ⟨suffix_cons _ _, rfl⟩⟩))
      · obtain ⟨⟨c, r⟩, hc, h⟩ := bind_eq_ok_iff.mp h
        dsimp only at h
        split at h
        · cases h
          exact .inr (.inr (.inr ⟨t, t', c, rfl, ht', rfl, .inr hc⟩))
        · cases h
    · split_ifs at h
      obtain ⟨hres, ⟨i, rfl⟩ | ⟨y, rfl⟩⟩ := parseNumber_suffix h
      · exact .inl ⟨hres, rfl, fun v hv => by cases hv⟩
      · exact .inl ⟨hres, rfl, fun v hv => by cases hv⟩
    · cases h

theorem parse_eq (h : skip s = .ok s) :
    parse (F := F) s = (parseValue (2 * s.length + 1) s).bind fun r => .ok r.1 := by
  unfold parse
  rw [h]
  rfl

structure Leaves (F : Type) [NumberText F] (n : ℕ) : Prop where
  value : ∀ {s rest : Text} {item : Item F}, parseValue n s = .ok (item, rest) → rest <:+ s
  items : ∀ {s rest : Text} {c : Chain F}, parseItems n s = .ok (c, rest) → rest <:+ s
  members : ∀ {s rest : Text} {c : Chain F}, parseMembers n s = .ok (c, rest) → rest <:+ s

theorem leaves (n : ℕ) : Leaves F n := by
  induction n with
  | zero =>
    refine ⟨fun h => ?_, fun h => ?_, fun h => ?_⟩
    all_goals cases h
  | succ n ih =>
    refine ⟨fun {s rest item} h => ?_, fun {s rest c} h => ?_, fun {s rest c} h => ?_⟩
    · rcases parseValue_cases h with ⟨hres, -⟩ | ⟨v, -, hv⟩ | ⟨t, t', c, rfl, ht', -, hc⟩ |
        ⟨t, t', c, rfl, ht', -, hc⟩
      · exact hres
      · exact parseString_suffix hv
      · refine (List.IsSuffix.trans ?_ (skip_suffix ht')).trans (suffix_cons _ t)
        rcases hc with ⟨hres, -⟩ | hc
        · exact hres
        · exact (suffix_cons _ rest).trans (ih.items hc)
      · refine (List.IsSuffix.trans ?_ (skip_suffix ht')).trans (suffix_cons _ t)
        rcases hc with ⟨hres, -⟩ | hc
        · exact hres
        · exact (suffix_cons _ rest).trans (ih.members hc)
    · obtain ⟨s', item, r, r', hs', hite, hr', hnex⟩ := parseItems_cases h
      have hlef : r' <:+ s :=
        (skip_suffix hr').trans ((ih.value hite).trans (skip_suffix hs'))
      rcases hnex with ⟨t', c', rfl, hc', -⟩ | ⟨-, rfl⟩
      · exact (ih.items hc').trans ((suffix_cons _ t').trans hlef)
      · exact hlef
    · obtain ⟨s', name, r, u, u', item, q, q', hs', hnam, hr, hu', hite, hq', hnex⟩ :=
        parseMembers_cases h
      have hcol : u <:+ s := (suffix_cons _ u).trans ((skip_suffix hr).trans
        ((parseString_suffix hnam).trans (skip_suffix hs')))
      have hlef : q' <:+ s := (skip_suffix hq').trans
        ((ih.value hite).trans ((skip_suffix hu').trans hcol))
      rcases hnex with ⟨t', c', rfl, hc', -⟩ | ⟨-, rfl⟩
      · exact (ih.members hc').trans ((suffix_cons _ t').trans hlef)
      · exact hlef

theorem exists_parseString_of_mem {t rest v : Text} (h : parseItems n t = .ok (c, rest))
    (hv : .string v ∈ c.toList) : ∃ u r, u <:+ t ∧ parseString u = .ok (v, r) ∧ r ≠ [] := by
  induction n generalizing t c with
  | zero => cases h
  | succ n ih =>
    obtain ⟨s, item, r, r', hs, hite, hr', hnex⟩ := parseItems_cases h
    have hhea (heq : .string v = item) : ∃ u r, u <:+ t ∧ parseString u = .ok (v, r) ∧ r ≠ [] := by
      subst heq
      refine ⟨s, r, skip_suffix hs, ?_, ?_⟩
      · cases n with
        | zero => cases hite
        | succ n =>
          rcases parseValue_cases hite with ⟨-, -, hnot⟩ | ⟨v', heq, hv'⟩ |
            ⟨_, _, _, _, _, heq, _⟩ | ⟨_, _, _, _, _, heq, _⟩
          · exact absurd rfl (hnot v)
          · obtain rfl := Item.string.inj heq
            exact hv'
          · cases heq
          · cases heq
      · rintro rfl
        cases hr'
    rcases hnex with ⟨t', c', rfl, hc', rfl⟩ | ⟨rfl, -⟩
    · rcases mem_cons.mp hv with heq | hv
      · exact hhea heq
      · obtain ⟨u, q, hu, hrea⟩ := ih hc' hv
        refine ⟨u, q, hu.trans ?_, hrea⟩
        exact (suffix_cons _ t').trans
          ((skip_suffix hr').trans (((leaves n).value hite).trans (skip_suffix hs)))
    · exact hhea (mem_singleton.mp hv)

end Clockwork.CJson
