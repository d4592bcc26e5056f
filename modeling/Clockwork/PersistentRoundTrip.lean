import Clockwork.LongText
import Clockwork.PersistentStore

namespace Clockwork.PersistentStore

open List NestedMap Value Double

variable {F : Type}

def Clean (s : Text) : Prop := '\n' ∉ s ∧ '\x00' ∉ s

theorem Clean.sublist {s t : Text} (h : Clean t) (hst : s.Sublist t) : Clean s :=
  ⟨fun hs => h.1 (hst.subset hs), fun hs => h.2 (hst.subset hs)⟩

def CleanValue : Value F → Prop
  | .string s => Clean s.toList
  | .symbol s _ => Clean s.toList
  | _ => True

theorem quoted_clean {s : Text} (h : Clean s) : Clean (quoted s) := by
  unfold quoted
  split
  · exact h
  · simpa [Clean] using h

theorem toString_clean (i : Int64) : Clean (toString i.toInt).toList := by
  refine ⟨fun h => ?_, fun h => ?_⟩ <;>
    rcases Decimal.isDigit_or_sign h with h | h <;> exact absurd h (by decide)

variable {s : String}

theorem cStr_of_clean (h : Clean s.toList) : cStr s = s.toList :=
  cStr_of_forall fun _ hc hnul => h.2 (hnul ▸ hc)

section Written

variable {streamFloat : F → Text}

theorem valueText_clean {v : Value F} (hflo : v.kind ≠ .float) (h : CleanValue v) :
    Clean (valueText streamFloat v) := by
  cases v with
  | float x => exact absurd rfl hflo
  | empty => exact (by decide : '\n' ∉ emptyText ∧ '\x00' ∉ emptyText)
  | integer i => exact toString_clean i
  | bool b =>
    cases b with
    | true => exact (by decide : '\n' ∉ "true".toList ∧ '\x00' ∉ "true".toList)
    | false => exact (by decide : '\n' ∉ "false".toList ∧ '\x00' ∉ "false".toList)
  | string s => exact quoted_clean h
  | symbol s t =>
    rw [valueText]
    split
    · exact h
    · exact quoted_clean h

theorem quoted_head (s : Text) : (quoted s).head? = some '"' := by
  unfold quoted
  split
  · next h => exact h.1
  · rfl

theorem valueText_head {v : Value F} (hflo : v.kind ≠ .float) (h : CleanValue v) :
    (valueText streamFloat v).head? ≠ some ' ' := by
  cases v with
  | float x => exact absurd rfl hflo
  | empty => exact (by decide : emptyText.head? ≠ some ' ')
  | integer i =>
    intro hbla
    rcases Decimal.isDigit_or_sign (mem_of_mem_head? hbla) with h | h <;>
      cases h
  | bool b =>
    cases b with
    | true => exact (by decide : "true".toList.head? ≠ some ' ')
    | false => exact (by decide : "false".toList.head? ≠ some ' ')
  | string s =>
    rw [valueText, quoted_head]
    decide
  | symbol s t =>
    rw [valueText, cStr_of_clean h]
    split
    · next hpat =>
      intro hbla
      obtain ⟨cs, hcs⟩ := head?_eq_some_iff.mp hbla
      have hsym : symbolPattern (' ' :: cs) = false := rfl
      have hnum : numberPattern (' ' :: cs) = false := rfl
      rw [hcs, hnum] at hpat
      cases hpat
    · rw [quoted_head]
      decide

end Written

section Read

theorem short_of_quoted {s : Text} (h : Quoted s) (hlen : ¬2 < s.length) :
    s = ['"'] ∨ s = ['"', '"'] := by
  obtain ⟨hhea, hlas⟩ := h
  match s with
  | [] => cases hhea
  | [c] =>
    cases hhea
    exact .inl rfl
  | [c, d] =>
    cases hhea
    cases hlas
    exact .inr rfl
  | _ :: _ :: _ :: _ =>
    simp only [length_cons] at hlen
    omega

theorem symbolText (streamFloat : F → Text) {s : String} (hcle : Clean s.toList) (t : TokenId) :
    valueText streamFloat (.symbol s t) =
      if symbolPattern s.toList = true ∨ numberPattern s.toList = true ∨ Quoted s.toList then
        s.toList
      else '"' :: (s.toList ++ ['"']) := by
  rw [valueText, cStr_of_clean hcle]
  by_cases hsym : symbolPattern s.toList = true
  · simp [hsym]
  · by_cases hnum : numberPattern s.toList = true
    · simp [hnum]
    · simp [hsym, hnum, quoted]

variable [Double F]

theorem textValue_true (s : String) : (textValue true s.toList : Value F) =
    if s = "FALSE" ∨ s = "TRUE" then .ofString s
    else if (strtol s).2 then .integer (strtol s).1
    else if (strtod (F := F) s).2 then .float (strtod s).1
    else .string s := by
  rw [textValue, String.ofList_toList]
  rfl

theorem textValue_false (s : String) : (textValue false s.toList : Value F) =
    if s = "FALSE" ∨ s = "TRUE" then .ofString s
    else if (strtol s).2 then .integer (strtol s).1
    else if (strtod (F := F) s).2 then .float (strtod s).1
    else .ofString s := by
  rw [textValue, String.ofList_toList]
  rfl

theorem textValue_true_kind (text : Text) : (textValue true text : Value F).kind ≠ .symbol := by
  rw [← String.toList_ofList (l := text), textValue_true]
  split_ifs with hboo
  · rcases hboo with h | h <;> rw [h] <;> simp [ofString, kind]
  all_goals simp [kind]

theorem textValue_false_kind (text : Text) : (textValue false text : Value F).kind ≠ .string := by
  rw [← String.toList_ofList (l := text), textValue_false]
  split_ifs
  · exact kind_ofString_ne _ (by decide)
  · simp [kind]
  · simp [kind]
  · exact kind_ofString_ne _ (by decide)

theorem textValue_string_iff {s r : String} :
    Value.Same (.string s) (textValue true r.toList : Value F) ↔
      s = r ∧ s ≠ "FALSE" ∧ s ≠ "TRUE" ∧ (strtol s).2 = false ∧ (strtod (F := F) s).2 = false := by
  rw [same_iff_eq (by simp [kind]), textValue_true]
  constructor
  · intro h
    split_ifs at h with hboo hlon hdou
    · rcases hboo with rfl | rfl <;> cases h
    · obtain rfl := string.inj h
      rw [not_or] at hboo
      exact ⟨rfl, hboo.1, hboo.2, Bool.eq_false_iff.mpr hlon, Bool.eq_false_iff.mpr hdou⟩
  · rintro ⟨rfl, hfal, htru, hlon, hdou⟩
    rw [if_neg (by tauto), if_neg (by simp [hlon]), if_neg (by simp [hdou])]

variable {s : String}

theorem textValue_symbol_iff {t : TokenId} {r : String} :
    Value.Same (.symbol s t) (textValue false r.toList : Value F) ↔
      s = r ∧ s ≠ "FALSE" ∧ s ≠ "TRUE" ∧ s ≠ "NULL" ∧ (strtol s).2 = false ∧
        (strtod (F := F) s).2 = false := by
  rw [textValue_false]
  constructor
  · intro h
    split_ifs at h with hboo hlon hdou
    · rcases hboo with rfl | rfl <;> cases h
    · cases h
    · cases h
    · obtain ⟨rfl, htru, hfal, hnul⟩ := (same_ofString_iff s t r).mp h
      exact ⟨rfl, hfal, htru, hnul, Bool.eq_false_iff.mpr hlon, Bool.eq_false_iff.mpr hdou⟩
  · rintro ⟨rfl, hfal, htru, hnul, hlon, hdou⟩
    rw [if_neg (by tauto), if_neg (by simp [hlon]), if_neg (by simp [hdou])]
    exact (same_ofString_iff s t s).mpr ⟨rfl, htru, hfal, hnul⟩

theorem readValue_plain {vp : Text} (h : ¬(Quoted vp ∧ 2 < vp.length)) :
    (readValue vp : Value F) = textValue false vp := if_neg h

theorem readValue_quotes {s : Text} (h : s ≠ []) :
    (readValue ('"' :: (s ++ ['"'])) : Value F) = textValue true s := by
  have hlen : 0 < s.length := length_pos_iff.mpr h
  have hquo : Quoted ('"' :: (s ++ ['"'])) ∧ 2 < ('"' :: (s ++ ['"'])).length := by
    refine ⟨⟨rfl, ?_⟩, ?_⟩
    · rw [← cons_append, getLast?_concat]
    · simp only [length_cons, length_append, length_nil]
      omega
  rw [readValue, if_pos hquo, tail_cons, dropLast_concat]

theorem strtol_of_numberPattern (hcle : Clean s.toList) (h : numberPattern s.toList = true) :
    (strtol s).2 = true := by
  simp only [numberPattern, Bool.and_eq_true, bne_iff_ne, ne_eq, all_eq_true] at h
  obtain ⟨hne, hdig⟩ := h
  by_cases hmin : s.toList.head? = some '-'
  · rw [if_pos hmin] at hne hdig
    have htex : cStr s = (if true then ['-'] else []) ++ s.toList.tail := by
      obtain ⟨cs, hcs⟩ := head?_eq_some_iff.mp hmin
      rw [cStr_of_clean hcle, hcs]
      rfl
    rw [strtol_digits true hne hdig htex]
  · rw [if_neg hmin] at hne hdig
    rw [strtol_digits false hne hdig (cStr_of_clean hcle)]

theorem strtol_of_symbolPattern (hcle : Clean s.toList) (h : symbolPattern s.toList = true) :
    (strtol s).2 = false := by
  have htex := cStr_of_clean hcle
  cases hs : s.toList with
  | nil =>
    rw [hs] at h
    cases h
  | cons c cs =>
    rw [hs] at h htex
    by_cases hquo : c = '"'
    · rw [strtol_of_head htex] <;> subst hquo <;> decide
    · have halp : c.isAlpha = true := by
        simp only [symbolPattern, head?_cons, Option.some.injEq, hquo, if_false,
          Bool.and_eq_true] at h
        exact h.1
      rw [strtol_of_isAlpha htex halp]

/-- The values that are read as they were written. -/
def Kept : Value F → Prop
  | .integer _ => True
  | .string s => s ≠ "" ∧ ¬Quoted s.toList ∧ s ≠ "FALSE" ∧ s ≠ "TRUE" ∧ (strtol s).2 = false ∧
    (Double.strtod (F := F) s).2 = false
  | .symbol s _ => (symbolPattern s.toList = true ∧ ¬Quoted s.toList ∨ s = "\"" ∨ s = "\"\"") ∧
    s ≠ "FALSE" ∧ s ≠ "TRUE" ∧ s ≠ "NULL" ∧ (Double.strtod (F := F) s).2 = false
  | _ => False

variable {streamFloat : F → Text}

theorem string_kept_iff (s : String) :
    Value.Same (.string s : Value F) (readValue (valueText streamFloat (.string s))) ↔
      Kept (.string s : Value F) := by
  rw [valueText, Kept]
  unfold quoted
  split
  · next hq =>
    refine ⟨fun hsam => ?_, fun hkep => absurd hq hkep.2.1⟩
    unfold readValue at hsam
    split at hsam
    · next hlon =>
      rw [← String.toList_ofList (l := s.toList.tail.dropLast), textValue_string_iff] at hsam
      have hlen := congrArg String.length hsam.1
      rw [String.length_ofList, length_dropLast, length_tail, String.length_toList] at hlen
      have hpos := hlon.2
      rw [String.length_toList] at hpos
      omega
    · exact absurd hsam.kind_eq.symm (textValue_false_kind _)
  · next hq =>
    by_cases hs : s = ""
    · subst hs
      refine ⟨fun hsam => ?_, fun hkep => absurd rfl hkep.1⟩
      exact absurd hsam.kind_eq.symm (textValue_false_kind ['"', '"'])
    · rw [readValue_quotes (by simpa using hs), textValue_string_iff]
      simp [hs, hq]

theorem symbol_shape_iff {s : String} (hcle : Clean s.toList) :
    (symbolPattern s.toList = true ∧ ¬Quoted s.toList ∨ s = "\"" ∨ s = "\"\"") ↔
      (symbolPattern s.toList = true ∨ numberPattern s.toList = true ∨ Quoted s.toList) ∧
        ¬(Quoted s.toList ∧ 2 < s.toList.length) ∧ (strtol s).2 = false := by
  constructor
  · rintro (⟨hsym, hquo⟩ | rfl | rfl)
    · exact ⟨.inl hsym, fun h => hquo h.1, strtol_of_symbolPattern hcle hsym⟩
    · exact ⟨.inr (.inr (by decide)), by decide, by decide⟩
    · exact ⟨.inr (.inr (by decide)), by decide, by decide⟩
  · rintro ⟨hwri, hrea, hnum⟩
    by_cases hquo : Quoted s.toList
    · refine .inr ((short_of_quoted hquo fun h => hrea ⟨hquo, h⟩).imp ?_ ?_)
      · exact fun h => String.toList_inj.mp h
      · exact fun h => String.toList_inj.mp h
    · rcases hwri with h | h | h
      · exact .inl ⟨h, hquo⟩
      · rw [strtol_of_numberPattern hcle h] at hnum
        cases hnum
      · exact absurd h hquo

theorem symbol_kept_iff {s : String} (hcle : Clean s.toList) (t : TokenId) :
    Value.Same (.symbol s t : Value F) (readValue (valueText streamFloat (.symbol s t))) ↔
      Kept (.symbol s t : Value F) := by
  rw [symbolText streamFloat hcle, Kept, symbol_shape_iff hcle]
  split
  · next hwri =>
    by_cases hstr : Quoted s.toList ∧ 2 < s.toList.length
    · refine ⟨fun hsam => ?_, fun hkep => absurd hstr hkep.1.2.1⟩
      rw [readValue, if_pos hstr] at hsam
      exact absurd hsam.kind_eq.symm (textValue_true_kind _)
    · rw [readValue_plain hstr, textValue_symbol_iff]
      constructor
      · rintro ⟨-, hfal, htru, hnul, hlon, hdou⟩
        exact ⟨⟨hwri, hstr, hlon⟩, hfal, htru, hnul, hdou⟩
      · rintro ⟨⟨-, -, hlon⟩, hfal, htru, hnul, hdou⟩
        exact ⟨rfl, hfal, htru, hnul, hlon, hdou⟩
  · next hwri =>
    refine ⟨fun hsam => ?_, fun hkep => absurd hkep.1.1 hwri⟩
    by_cases hs : s = ""
    · subst hs
      have heq := (textValue_symbol_iff (r := "\"\"")).mp hsam
      exact absurd heq.1 (by decide)
    · rw [readValue_quotes (by simpa using hs)] at hsam
      exact absurd hsam.kind_eq.symm (textValue_true_kind _)

theorem same_readValue_iff {v : Value F} (hkin : v.kind ≠ .float ∧ v.kind ≠ .empty)
    (hcle : CleanValue v) : Value.Same v (readValue (valueText streamFloat v)) ↔ Kept v := by
  cases v with
  | float x => exact absurd rfl hkin.1
  | empty => exact absurd rfl hkin.2
  | string s => exact string_kept_iff s
  | symbol s t => exact symbol_kept_iff hcle t
  | integer i =>
    refine ⟨fun _ => trivial, fun _ => ?_⟩
    have hquo : ¬Quoted (toString i.toInt).toList := fun h => by
      rcases Decimal.isDigit_or_sign (mem_of_mem_head? h.1) with h | h <;>
        cases h
    have hwor : ¬(toString i.toInt = "FALSE" ∨ toString i.toInt = "TRUE") := by
      have hlon : (strtol (toString i.toInt)).2 = true := by rw [strtol_toString]
      rintro (h | h) <;> rw [h] at hlon <;> exact absurd hlon (by decide)
    rw [valueText, readValue_plain fun h => hquo h.1, textValue_false, if_neg hwor,
      strtol_toString, if_pos rfl]
    exact .refl _
  | bool b =>
    -- the text is read as a symbol, or perhaps as a `double`
    have hrea (s : String) (hquo : ¬Quoted s.toList)
        (hs : ¬(s = "FALSE" ∨ s = "TRUE") ∧ (strtol s).2 = false)
        (hkin : (ofString s : Value F).kind = .symbol) :
        ¬Value.Same (.bool b : Value F) (readValue s.toList) := by
      intro hsam
      have hboo := hsam.kind_eq.symm
      rw [readValue_plain fun h => hquo h.1, textValue_false, if_neg hs.1,
        if_neg (by simp [hs.2])] at hboo
      split at hboo
      · cases hboo
      · rw [hkin] at hboo
        cases hboo
    refine ⟨fun hsam => ?_, False.elim⟩
    cases b with
    | true => exact hrea "true" (by decide) (by decide) rfl hsam
    | false => exact hrea "false" (by decide) (by decide) rfl hsam

theorem textValue_clean {isString : Bool} {text : Text} (h : Clean text) :
    CleanValue (textValue isString text : Value F) := by
  have hofs (s : String) (hs : Clean s.toList) : CleanValue (.ofString s : Value F) := by
    unfold ofString
    split_ifs with hemp
    · exact hemp ▸ hs
    · trivial
    · trivial
    · trivial
    · exact hs
  have htex : Clean (String.ofList text).toList := by rwa [String.toList_ofList]
  unfold textValue
  dsimp only
  split_ifs
  · exact hofs _ htex
  · trivial
  · trivial
  · exact htex
  · exact hofs _ htex

theorem readValue_clean {vp : Text} (h : Clean vp) : CleanValue (readValue vp : Value F) := by
  unfold readValue
  split
  · exact textValue_clean (h.sublist ((dropLast_sublist _).trans (tail_sublist vp)))
  · exact textValue_clean h

end Read

def Word (s : String) : Prop := s ≠ "" ∧ ∀ c ∈ s.toList, isSpace c = false

instance : DecidablePred Word := fun s =>
  @instDecidableAnd (s ≠ "") _ inferInstance
    (List.decidableBAll (fun c => isSpace c = false) s.toList)

theorem newline_not_mem_word (h : Word s) : '\n' ∉ s.toList := fun hmem =>
  absurd (h.2 _ hmem) (by decide)

theorem word_of_word (h : Word s) {blanks rest : Text} (hbla : ∀ c ∈ blanks, isSpace c = true) :
    word (blanks ++ (s.toList ++ ' ' :: rest)) = (s.toList, ' ' :: rest) := by
  have hwor : ∀ c ∈ s.toList, (!isSpace c) = true := fun c hc => by rw [h.2 c hc]; rfl
  have hsta : (s.toList ++ ' ' :: rest).dropWhile isSpace = s.toList ++ ' ' :: rest := by
    cases hs : s.toList with
    | nil => exact absurd (String.toList_eq_nil_iff.mp hs) h.1
    | cons c cs =>
      have hc : isSpace c = false := h.2 c (hs ▸ mem_cons_self)
      simp [hc]
  have hbln : isSpace ' ' = true := by decide
  unfold word
  rw [dropWhile_append_of_pos hbla, hsta]
  dsimp only
  rw [takeWhile_append_of_pos hwor, dropWhile_append_of_pos hwor]
  simp [hbln]

theorem word_sublist (s : Text) : (word s).1.Sublist s ∧ (word s).2.Sublist s :=
  ⟨(takeWhile_sublist _).trans (dropWhile_sublist _),
    (dropWhile_sublist _).trans (dropWhile_sublist _)⟩

section Line

variable {streamFloat : F → Text}

theorem newline_not_mem_line {m p : String} {v : Value F} (hm : Word m) (hp : Word p)
    (hflo : v.kind ≠ .float) (hv : CleanValue v) : '\n' ∉ line streamFloat (m, p, v) := by
  have hmem := newline_not_mem_word hm
  have hpem := newline_not_mem_word hp
  have hvem : '\n' ∉ valueText streamFloat v := (valueText_clean hflo hv).1
  simp [line, hmem, hpem, hvem]

variable [Double F]

theorem readLine_line {m p : String} {v : Value F} (hm : Word m) (hp : Word p)
    (hmnu : '\x00' ∉ m.toList) (hpnu : '\x00' ∉ p.toList) (hflo : v.kind ≠ .float)
    (hv : CleanValue v) : readLine (F := F) (line streamFloat (m, p, v)) =
      (m, p, readValue (valueText streamFloat v)) := by
  have hnul : (line streamFloat (m, p, v)).takeWhile (· ≠ '\x00') = line streamFloat (m, p, v) := by
    have hvnu : '\x00' ∉ valueText streamFloat v := (valueText_clean hflo hv).2
    refine takeWhile_eq_self_iff.mpr fun c hc => decide_eq_true ?_
    rintro rfl
    simp [line, hmnu, hpnu, hvnu] at hc
  have hnam : word (line streamFloat (m, p, v)) =
      (m.toList, ' ' :: (p.toList ++ ' ' :: valueText streamFloat v)) :=
    @word_of_word m hm [] _ (by simp)
  have hpro : word (' ' :: (p.toList ++ ' ' :: valueText streamFloat v)) =
      (p.toList, ' ' :: valueText streamFloat v) :=
    @word_of_word p hp [' '] _ (forall_mem_singleton.mpr (by decide))
  have hval : (' ' :: valueText streamFloat v).dropWhile (· = ' ') = valueText streamFloat v := by
    have hhea : (valueText streamFloat v).head? ≠ some ' ' := valueText_head hflo hv
    cases htex : valueText streamFloat v with
    | nil => rfl
    | cons c cs =>
      rw [htex] at hhea
      have hc : c ≠ ' ' := fun h => hhea (h ▸ rfl)
      simp [hc]
  simp only [readLine, hnul, hnam, hpro, hval, String.ofList_toList]

theorem readLine_clean {buf : Text} (h : '\n' ∉ buf) :
    '\x00' ∉ (readLine (F := F) buf).1.toList ∧ '\x00' ∉ (readLine (F := F) buf).2.1.toList ∧
      CleanValue (readLine (F := F) buf).2.2 := by
  have hcle : Clean (buf.takeWhile (· ≠ '\x00')) := by
    refine ⟨fun hmem => h ((takeWhile_sublist _).subset hmem), fun hmem => ?_⟩
    simpa using mem_takeWhile_imp hmem
  have hres := hcle.sublist (word_sublist _).2
  unfold readLine
  rw [String.toList_ofList, String.toList_ofList]
  exact ⟨(hcle.sublist (word_sublist _).1).2, (hres.sublist (word_sublist _).1).2,
    readValue_clean ((hres.sublist (word_sublist _).2).sublist (dropWhile_sublist _))⟩

end Line

section Stores

theorem eq_of_key {store : Store F} {e e' : String × String × Value F} (he : e ∈ store.entries)
    (he' : e' ∈ store.entries) (hnam : e.1 = e'.1) (hpro : e.2.1 = e'.2.1) : e = e' := by
  obtain ⟨m, p, v⟩ := e
  obtain ⟨m', p', v'⟩ := e'
  obtain rfl : m = m' := hnam
  obtain rfl : p = p' := hpro
  have hv := mem_entries_iff.mp he
  have hv' := mem_entries_iff.mp he'
  rw [Option.some.inj (hv.symm.trans hv')]

theorem cleanValue_of_same {v w : Value F} (h : Value.Same v w) (hw : CleanValue w) :
    CleanValue v := by
  cases h <;> exact hw

variable [Double F] (streamFloat : F → Text)

def Restored (store : Store F) : Prop :=
  ∀ m p, Option.Rel Value.Same (store.value? m p)
    ((load (write streamFloat store) : Store F).value? m p)

structure Survives (e : String × String × Value F) : Prop where
  name : '\x00' ∉ e.1.toList
  property : '\x00' ∉ e.2.1.toList
  clean : CleanValue e.2.2
  kept : Kept e.2.2
  short : (line streamFloat e).length < 400

variable {streamFloat}

def reread (streamFloat : F → Text) (e : String × String × Value F) : String × String × Value F :=
  (e.1, e.2.1, readValue (valueText streamFloat e.2.2))

theorem value?_load_iff {store : Store F}
    (hsto : ∀ e ∈ store.entries, Word e.1 ∧ Word e.2.1 ∧ e.2.2.kind ≠ .float)
    (hcle : ∀ e ∈ store.entries, '\x00' ∉ e.1.toList ∧ '\x00' ∉ e.2.1.toList ∧
      CleanValue e.2.2) {m p : String} {v : Value F} :
    (load (write streamFloat store) : Store F).value? m p = some v ↔
      ∃ e ∈ store.entries.takeWhile fun e => (line streamFloat e).length < 400,
        reread streamFloat e = (m, p, v) := by
  have hlin : Lines.lines (write streamFloat store) = store.entries.map (line streamFloat) :=
    Lines.lines_flatMap fun e he => by
      obtain ⟨hm, hp, hflo⟩ := hsto e he
      exact newline_not_mem_line hm hp hflo (hcle e he).2.2
  have hrea : ((Lines.lines (write streamFloat store)).takeWhile fun l => l.length < 400).map
      readLine = (store.entries.takeWhile fun e => (line streamFloat e).length < 400).map
        (reread streamFloat) := by
    rw [hlin, takeWhile_map, map_map]
    refine map_congr_left fun e he => ?_
    have hmem := (takeWhile_sublist _).subset he
    obtain ⟨hm, hp, hflo⟩ := hsto e hmem
    obtain ⟨hmnu, hpnu, hv⟩ := hcle e hmem
    exact readLine_line hm hp hmnu hpnu hflo hv
  rw [load, hrea, value?_foldl_iff, mem_map]
  intro m p v v' hv hv'
  obtain ⟨e, he, heq⟩ := mem_map.mp hv
  obtain ⟨e', he', heq'⟩ := mem_map.mp hv'
  have hee : e = e' := eq_of_key ((takeWhile_sublist _).subset he)
    ((takeWhile_sublist _).subset he')
    ((congrArg (·.1) heq).trans (congrArg (·.1) heq').symm)
    ((congrArg (·.2.1) heq).trans (congrArg (·.2.1) heq').symm)
  subst hee
  exact congrArg (·.2.2) (heq.symm.trans heq')

theorem clean_of_load {text : Text} {m p : String} {v : Value F}
    (h : (load text : Store F).value? m p = some v) :
    '\x00' ∉ m.toList ∧ '\x00' ∉ p.toList ∧ CleanValue v := by
  rcases mem_of_value?_foldl h with hmem | hnon
  · obtain ⟨buf, hbuf, heq⟩ := mem_map.mp hmem
    have hcle := readLine_clean (F := F)
      (Lines.newline_not_mem ((takeWhile_sublist _).subset hbuf))
    rwa [heq] at hcle
  · cases hnon

/-- The names have no whitespace; the values are of the kinds that a program stores. -/
theorem restored_iff {store : Store F} (hstore : ∀ e ∈ store.entries,
      Word e.1 ∧ Word e.2.1 ∧ e.2.2.kind ≠ .float ∧ e.2.2.kind ≠ .empty) :
    Restored streamFloat store ↔ ∀ e ∈ store.entries, Survives streamFloat e := by
  have hwor : ∀ e ∈ store.entries, Word e.1 ∧ Word e.2.1 ∧ e.2.2.kind ≠ .float :=
    fun e he => ⟨(hstore e he).1, (hstore e he).2.1, (hstore e he).2.2.1⟩
  constructor
  · intro h
    have hloa {e : String × String × Value F} (he : e ∈ store.entries) :
        ∃ v, (load (write streamFloat store) : Store F).value? e.1 e.2.1 = some v ∧
          Value.Same e.2.2 v := by
      have hrel := h e.1 e.2.1
      rw [mem_entries_iff.mp he] at hrel
      cases hv : (load (write streamFloat store) : Store F).value? e.1 e.2.1 with
      | none =>
        rw [hv] at hrel
        cases hrel
      | some v =>
        rw [hv] at hrel
        cases hrel with
        | some hsam => exact ⟨v, rfl, hsam⟩
    have hcle : ∀ e ∈ store.entries, '\x00' ∉ e.1.toList ∧ '\x00' ∉ e.2.1.toList ∧
        CleanValue e.2.2 := by
      intro e he
      obtain ⟨v, hv, hsam⟩ := hloa he
      obtain ⟨hm, hp, hvcl⟩ := clean_of_load hv
      exact ⟨hm, hp, cleanValue_of_same hsam hvcl⟩
    intro e he
    obtain ⟨v, hv, hsam⟩ := hloa he
    obtain ⟨e', he', heq⟩ := (value?_load_iff hwor hcle).mp hv
    obtain rfl : e' = e := eq_of_key ((takeWhile_sublist _).subset he') he
      (congrArg (·.1) heq) (congrArg (·.2.1) heq)
    obtain rfl : readValue (valueText streamFloat e'.2.2) = v := congrArg (·.2.2) heq
    obtain ⟨hm, hp, hvcl⟩ := hcle e' he
    refine ⟨hm, hp, hvcl, ?_, by simpa using mem_takeWhile_imp he'⟩
    exact (same_readValue_iff (hstore e' he).2.2 hvcl).mp hsam
  · intro h m p
    have hall : store.entries.takeWhile (fun e => (line streamFloat e).length < 400) =
        store.entries :=
      takeWhile_eq_self_iff.mpr fun e he => decide_eq_true (h e he).short
    have hlod (v : Value F) : (load (write streamFloat store) : Store F).value? m p = some v ↔
        ∃ e ∈ store.entries, reread streamFloat e = (m, p, v) := by
      rw [value?_load_iff hwor fun e he => ⟨(h e he).name, (h e he).property, (h e he).clean⟩, hall]
    cases hv : store.value? m p with
    | none =>
      cases hv' : (load (write streamFloat store) : Store F).value? m p with
      | none => exact .none
      | some v' =>
        obtain ⟨e, he, heq⟩ := (hlod v').mp hv'
        have hval := mem_entries_iff.mp he
        obtain rfl : e.1 = m := congrArg (·.1) heq
        obtain rfl : e.2.1 = p := congrArg (·.2.1) heq
        rw [hv] at hval
        cases hval
    | some v =>
      have he := mem_entries_iff.mpr hv
      rw [(hlod _).mpr ⟨_, he, rfl⟩]
      exact .some ((same_readValue_iff (hstore _ he).2.2 (h _ he).clean).mpr (h _ he).kept)

end Stores

def tank : Store ℚ :=
  [("tank", "level", .integer 5), ("tank", "note", .string "half full"),
    ("valve", "mode", .symbol "auto" none)].foldl NestedMap.insert ∅

theorem tank_restored : Restored (fun _ => []) tank := by
  have hent : tank.entries = [("tank", "level", .integer 5),
      ("tank", "note", .string "half full"), ("valve", "mode", .symbol "auto" none)] := by
    decide
  refine (restored_iff ?_).mpr ?_
  · decide
  · rw [hent]
    simp only [forall_mem_cons, not_mem_nil, false_implies, implies_true, and_true]
    refine ⟨⟨by decide, by decide, trivial, trivial, by decide⟩,
      ⟨by decide, by decide, ⟨by decide, by decide⟩, ?_, by decide⟩,
      ⟨by decide, by decide, ⟨by decide, by decide⟩, ?_, by decide⟩⟩
    · exact ⟨by decide, by decide, by decide, by decide, by decide, by decide⟩
    · exact ⟨.inl ⟨by decide, by decide⟩, by decide, by decide, by decide, by decide⟩

/-- A boolean is loaded as a symbol. -/
theorem switch_not_restored :
    ¬Restored (fun _ => []) (NestedMap.insert ∅ ("switch", "on", .bool true) : Store ℚ) := by
  intro h
  have hrel := h "switch" "on"
  cases hrel with
  | some hsam => cases hsam

end Clockwork.PersistentStore
