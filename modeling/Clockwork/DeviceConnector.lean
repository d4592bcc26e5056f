import Clockwork.RegularExpressions
import Clockwork.MessageEncoding
import Mathlib.Algebra.Ring.Nat

namespace Clockwork.DeviceConnector

open RegularExpressions MessageEncoding List

structure Options where
  machine : String
  property : String

/-- What is sent for a text, which becomes a `Value` by its constructor for `const char *`. -/
def propertyCommand (o : Options) (t : Text) : Text :=
  encodeParams (F := ℚ) "PROPERTY" (.ofString o.machine) (.ofString o.property)
    (.ofString (String.ofList t)) .empty

/-- `MatchFunction::match_func` for a property: `result` is static, the list holds the messages
sent. -/
def matchFunc (o : Options) (nsub : ℕ) (result : Text) (index : ℕ) (found : Text) :
    Text × List Text :=
  if nsub = 0 ∨ 0 < index then
    let result := if index ≤ 1 then found else result ++ ' ' :: found
    (result, if index = nsub then [propertyCommand o result] else [])
  else (result, [])

def calls (o : Options) (nsub : ℕ) : Text → ℕ → List Text → Text × List Text
  | result, _, [] => (result, [])
  | result, index, t :: ts =>
    let now := matchFunc o nsub result index t
    let later := calls o nsub now.1 (index + 1) ts
    (later.1, now.2 ++ later.2)

variable {o : Options}

/-- The match, or its groups joined by spaces. -/
def value (nsub : ℕ) (texts : List Text) : Text :=
  if nsub = 0 then texts.headD [] else [' '].intercalate texts.tail

theorem calls_groups {nsub index : ℕ} (result : Text) {ts : List Text} (hi : 1 < index)
    (hlen : ts.length + index = nsub + 1) (hne : ts ≠ []) :
    (calls o nsub result index ts).2 = [propertyCommand o (result ++ ts.flatMap (' ' :: ·))] := by
  induction ts generalizing index result with
  | nil => exact absurd rfl hne
  | cons t ts ih =>
    have hcal : matchFunc o nsub result index t = (result ++ ' ' :: t,
        if index = nsub then [propertyCommand o (result ++ ' ' :: t)] else []) := by
      simp [matchFunc, show 0 < index by omega, show ¬index ≤ 1 by omega]
    rw [length_cons] at hlen
    rw [calls, hcal]
    rcases eq_or_ne ts [] with rfl | hts
    · rw [length_nil] at hlen
      simp [calls, show index = nsub by omega]
    · have hpos := length_pos_iff.mpr hts
      simp [ih _ (by omega : 1 < index + 1) (by omega) hts, show index ≠ nsub by omega]

theorem intercalate_cons (sep t : Text) (ts : List Text) :
    sep.intercalate (t :: ts) = t ++ ts.flatMap (sep ++ ·) := by
  induction ts generalizing t with
  | nil => simp
  | cons u ts ih => rw [intercalate_cons_cons, ih]; simp

theorem calls_texts {nsub : ℕ} {result : Text} {ts : List Text} (hlen : ts.length = nsub + 1) :
    (calls o nsub result 0 ts).2 = [propertyCommand o (value nsub ts)] := by
  obtain ⟨t, ts, rfl⟩ := exists_cons_of_length_eq_add_one hlen
  rcases ts with _ | ⟨u, ts⟩
  · obtain rfl : nsub = 0 := by simpa using hlen.symm
    simp [calls, matchFunc, value]
  · obtain rfl : nsub = ts.length + 1 := by simpa using hlen.symm
    rcases eq_or_ne ts [] with rfl | hts
    · simp [calls, matchFunc, value]
    · have hres := calls_groups (o := o) u (by decide : 1 < 2) (Nat.add_assoc ts.length 1 1) hts
      simp [calls, matchFunc, value, hres, hts, intercalate_cons]

structure State where
  buffer : Text
  result : Text
  sent : List Text
  closed : Bool

def start : State := ⟨[], [], [], false⟩

def callback (o : Options) (p : Pattern) (s : State) (f : Found) : State :=
  { s with result := (calls o p.re_nsub s.result 0 f.texts).1
           sent := s.sent ++ (calls o p.re_nsub s.result 0 f.texts).2 }

/-- The scan of the buffer; what lies behind the last match is moved to its start. -/
def process (o : Options) (p : Pattern) (s : State) : State :=
  let found := eachMatch p s.buffer
  { found.foldl (callback o p) s with buffer := s.buffer.drop (found.map (·.stop)).sum }

/-- One round of the loop with the bytes that `read` stored, none of them after `EAGAIN`.
There are no more than were asked for. A full buffer closes the connection. -/
def step (o : Options) (p : Pattern) (s : State) (bytes : Text) : Option State :=
  if s.closed then some s
  else if 99 ≤ s.buffer.length then some { s with buffer := [], closed := true }
  else if 99 - s.buffer.length < bytes.length then none
  else some (process o p { s with buffer := (s.buffer ++ bytes).takeWhile (· ≠ '\x00') })

def Partial (R : Set Text) (q : Text) : Prop := ∃ r ∈ R, q <+: r ∧ q.length < r.length

/-- Texts without NUL that fit the buffer and that the pattern tells apart. -/
structure Records (p : Pattern) (R : Set Text) : Prop where
  short : ∀ r ∈ R, r.length ≤ 98
  no_nul : ∀ r ∈ R, '\x00' ∉ r
  exact : ∀ (rs : List Text) q, (∀ r ∈ rs, r ∈ R) → Partial R q →
    (successive p (rs.flatten ++ q)).map (fun f => (f.start, f.stop)) =
      rs.map fun r => (0, r.length)

variable {p : Pattern} {R : Set Text}

/-- A match of exactly the record `r`, in front of other text. -/
def IsMatch (p : Pattern) (r : Text) (f : Found) : Prop :=
  f.start = 0 ∧ f.stop = r.length ∧ ∃ rest, attempt p false (r ++ rest) = some f

variable {q : Text}

theorem attempt_partial (hR : Records p R) (hq : Partial R q) (b : Bool) :
    attempt p b q = none := by
  have h := hR.exact [] q (by simp) hq
  by_contra hsom
  obtain ⟨f, hf⟩ := Option.ne_none_iff_exists'.mp hsom
  simp [successive, scan, nextIn_of_attempt hf] at h

variable {rs : List Text}

theorem attempt_record (hR : Records p R) {r q : Text}
    (hrs : ∀ s ∈ r :: rs, s ∈ R) (hq : Partial R q) (b : Bool) :
    ∃ f, attempt p b (r ++ (rs.flatten ++ q)) = some f ∧ IsMatch p r f := by
  have h := hR.exact (r :: rs) q hrs hq
  rw [flatten_cons, append_assoc, successive, scan] at h
  cases hnex : nextIn p false (r ++ (rs.flatten ++ q)) with
  | none => simp [hnex] at h
  | some f =>
    simp only [hnex, map_cons, cons.injEq, Prod.mk.injEq] at h
    have hf := attempt_of_nextIn hnex h.1.1
    exact ⟨f, hf b, h.1.1, h.1.2, _, hf false⟩

theorem record_pos (hR : Records p R) {r q : Text} (hq : Partial R q) (hr : r ∈ R) :
    0 < r.length := by
  have hrs : ∀ s ∈ [r], s ∈ R := by simpa using hr
  obtain ⟨f, hf, hm⟩ := attempt_record hR hrs hq false
  exact hm.2.1 ▸ (attempt_bounds hf).1

theorem scan_records (hR : Records p R) (hq : Partial R q)
    (hrs : ∀ r ∈ rs, r ∈ R) {n : ℕ} (hn : (rs.flatten ++ q).length < n) (b : Bool) :
    List.Forall₂ (IsMatch p) rs (scan (attempt p) n b (rs.flatten ++ q)) := by
  induction rs generalizing n b with
  | nil => cases n <;> simp [scan, attempt_partial hR hq]
  | cons r rs ih =>
    obtain ⟨f, hf, hmat⟩ := attempt_record hR hrs hq b
    have hpos := (attempt_bounds hf).1
    obtain ⟨n, rfl⟩ : ∃ k, n = k + 1 := ⟨n - 1, by omega⟩
    have hlen : r.length + (rs.flatten ++ q).length < n + 1 := by simpa [add_assoc] using hn
    rw [flatten_cons, append_assoc, scan, hf]
    dsimp only
    rw [hmat.2.1, drop_left]
    have hsto := hmat.2.1
    exact .cons hmat (ih (fun s hs => hrs s (.tail r hs)) (by omega) true)

theorem sum_stop {found : List Found} (h : List.Forall₂ (IsMatch p) rs found) :
    (found.map (·.stop)).sum = rs.flatten.length := by
  induction h with
  | nil => rfl
  | cons hm _ ih => simp [ih, hm.2.1]

/-- What is to be reported of a record: the record itself or the groups of its match. -/
def IsReport (p : Pattern) (r t : Text) : Prop :=
  ∃ f, IsMatch p r f ∧ t = value p.re_nsub f.texts

theorem foldl_callback {found : List Found} (h : List.Forall₂ (IsMatch p) rs found) (s : State) :
    ∃ texts, (found.foldl (callback o p) s).sent = s.sent ++ texts.map (propertyCommand o) ∧
      (found.foldl (callback o p) s).closed = s.closed ∧ List.Forall₂ (IsReport p) rs texts := by
  induction h generalizing s with
  | nil => exact ⟨[], by simp⟩
  | @cons r f rs found hm _ ih =>
    obtain ⟨texts, hsen, hclo, hrep⟩ := ih (callback o p s f)
    obtain ⟨rest, hf⟩ := hm.2.2
    refine ⟨value p.re_nsub f.texts :: texts, ?_, hclo, .cons ⟨f, hm, rfl⟩ hrep⟩
    rw [foldl_cons, hsen, callback, calls_texts (length_texts hf)]
    simp

/-- A beginning of the stream is some of its records and the start of the next one. -/
theorem cut_records {q t : Text} (hrs : ∀ r ∈ rs, r ∈ R) (hq : Partial R q)
    (ht : t <+: rs.flatten ++ q) :
    ∃ rs₁ rs₂ b, rs = rs₁ ++ rs₂ ∧ t = rs₁.flatten ++ b ∧ Partial R b ∧
      ∀ r ∈ rs₂.head?, b.length < r.length := by
  induction rs generalizing t with
  | nil =>
    obtain ⟨r, hr, hqr, hlt⟩ := hq
    have htq : t <+: q := by simpa using ht
    exact ⟨[], [], t, by simp, by simp, ⟨r, hr, htq.trans hqr, htq.length_le.trans_lt hlt⟩, by simp⟩
  | cons r rs ih =>
    rw [flatten_cons, append_assoc] at ht
    rcases lt_or_ge t.length r.length with hlt | hge
    · have htr := prefix_of_prefix_length_le ht (prefix_append r _) hlt.le
      exact ⟨[], r :: rs, t, rfl, by simp, ⟨r, hrs r (by simp), htr, hlt⟩, by simpa⟩
    · obtain ⟨u, rfl⟩ := prefix_of_prefix_length_le (prefix_append r _) ht hge
      obtain ⟨rs₁, rs₂, b, rfl, rfl, hb, hnex⟩ := ih (fun s hs => hrs s (by simp [hs]))
        ((prefix_append_right_inj r).mp ht)
      exact ⟨r :: rs₁, rs₂, b, rfl, by simp, hb, hnex⟩

theorem process_records (hR : Records p R) {b : Text} (hb : Partial R b)
    (hrs : ∀ r ∈ rs, r ∈ R) {s : State} (hs : s.buffer = rs.flatten ++ b) :
    (process o p s).buffer = b ∧ (process o p s).closed = s.closed ∧ ∃ texts,
      (process o p s).sent = s.sent ++ texts.map (propertyCommand o) ∧
        List.Forall₂ (IsReport p) rs texts := by
  have hfou : List.Forall₂ (IsMatch p) rs (eachMatch p s.buffer) := by
    rw [hs]
    exact scan_records hR hb hrs (Nat.lt_succ_self _) false
  obtain ⟨texts, hsen, hclo, hrep⟩ := foldl_callback hfou s
  refine ⟨?_, hclo, texts, hsen, hrep⟩
  simp only [process, sum_stop hfou]
  rw [hs, drop_left]

theorem no_nul_of_mem (hR : Records p R) (hq : Partial R q)
    (hrs : ∀ r ∈ rs, r ∈ R) {c : Char} (hc : c ∈ rs.flatten ++ q) : c ≠ '\x00' := by
  rintro rfl
  rcases mem_append.mp hc with hc | hc
  · obtain ⟨r, hr, hc⟩ := mem_flatten.mp hc
    exact hR.no_nul r (hrs r hr) hc
  · obtain ⟨r, hr, hqr, -⟩ := hq
    exact hR.no_nul r hr (hqr.subset hc)

/-- From a state whose buffer is the start of the next record, a run reports the records of
the rest of the stream. -/
theorem run_records (hR : Records p R) (hq : Partial R q) {reads : List Text}
    {s s' : State} (hrs : ∀ r ∈ rs, r ∈ R) (hs : Partial R s.buffer)
    (hnex : ∀ r ∈ rs.head?, s.buffer.length < r.length) (hope : s.closed = false)
    (hstr : s.buffer ++ reads.flatten = rs.flatten ++ q)
    (hrun : Runs.execute (step o p) s reads = some s') :
    s'.buffer = q ∧ s'.closed = false ∧ ∃ texts,
      s'.sent = s.sent ++ texts.map (propertyCommand o) ∧ List.Forall₂ (IsReport p) rs texts := by
  induction reads generalizing s rs with
  | nil =>
    obtain rfl := Option.some.inj hrun
    have hbuf : s.buffer = rs.flatten ++ q := by simpa using hstr
    cases rs with
    | nil => exact ⟨by simpa using hbuf, hope, [], by simp⟩
    | cons r rs =>
      have hlt := hnex r rfl
      have hlen := congrArg length hbuf
      simp only [flatten_cons, length_append] at hlen
      omega
  | cons bytes reads ih =>
    obtain ⟨t, ht, hrun⟩ := Option.bind_eq_some_iff.mp hrun
    -- the new text is cut into whole records and the start of the next one
    have hpre : s.buffer ++ bytes <+: rs.flatten ++ q :=
      ⟨reads.flatten, by simpa using hstr⟩
    obtain ⟨rs₁, rs₂, b, rfl, hb, hpar, hnex'⟩ := cut_records hrs hq hpre
    have hful : s.buffer.length < 99 := by
      obtain ⟨r, hr, -, hlt⟩ := hs
      have := hR.short r hr
      omega
    have hnul : (s.buffer ++ bytes).takeWhile (· ≠ '\x00') = s.buffer ++ bytes :=
      takeWhile_eq_self_iff.mpr fun c hc => by
        simpa using no_nul_of_mem hR hq hrs (hpre.subset hc)
    rw [step, if_neg (by simp [hope]), if_neg (by omega), hnul] at ht
    split at ht
    · exact absurd ht (by simp)
    obtain rfl := Option.some.inj ht
    obtain ⟨hbuf, hclo, texts, hsen, hrep⟩ := process_records hR hpar
      (fun r hr => hrs r (mem_append_left rs₂ hr))
      (s := { s with buffer := s.buffer ++ bytes }) hb
    have hres : b ++ reads.flatten = rs₂.flatten ++ q := by
      rw [← append_right_inj rs₁.flatten, ← append_assoc, ← hb]
      simpa using hstr
    obtain ⟨hbuf', hope', texts', hsen', hrep'⟩ := ih
      (fun r hr => hrs r (mem_append_right rs₁ hr)) (by rwa [hbuf]) (by rwa [hbuf])
      (hclo.trans hope) (by rwa [hbuf]) hrun
    exact ⟨hbuf', hope', texts ++ texts', by rw [hsen', hsen, append_assoc, map_append],
      rel_append hrep hrep'⟩

theorem value_of_isReport {r t : Text} (h : IsReport p r t) (h0 : p.re_nsub = 0) : t = r := by
  obtain ⟨f, ⟨hsta, hsto, rest, hf⟩, rfl⟩ := h
  rw [value, if_pos h0, headD_texts hf, hsta, hsto, slice]
  simp

/-- A `PROPERTY` command that `iod` reads as one with the names of the options and the text. -/
def Carries (o : Options) (t msg : Text) : Prop :=
  ∃ values : List (Value ℚ), getCommand true msg = .ok (some ("PROPERTY", values)) ∧
    List.Forall₂ Value.Same
      [.symbol o.machine none, .symbol o.property none, .symbol (String.ofList t) none] values

instance : DecidablePred Named := fun s => inferInstanceAs (Decidable (Plain s ∧ _))

theorem carries_iff (t : Text) : Carries o t (propertyCommand o t) ↔
    Named o.machine ∧ Named o.property ∧ Named (String.ofList t) := by
  have hpla : plain "PROPERTY" = "PROPERTY" := by decide
  have hemp : arrive (.empty : Value ℚ) = .ok .empty := rfl
  have hlas : (.empty : Value ℚ).ne .empty = false := rfl
  have hkin (s : String) : (.ofString s : Value ℚ).kind ≠ .float :=
    Value.kind_ofString_ne s (by decide)
  have hnot : (.empty : Value ℚ).kind ≠ .float := by decide
  have hsam (s : String) :
      Value.Same (.symbol s none) (.ofString (plain s) : Value ℚ) ↔ Named s := by
    rw [Value.same_ofString_iff, plain_eq_self_iff, Named]
  have hget (values : List (Value ℚ)) :
      getCommand true (propertyCommand o t) = .ok (some ("PROPERTY", values)) ↔
        values = [.ofString (plain o.machine), .ofString (plain o.property),
          .ofString (plain (String.ofList t))].filter fun v => v.ne .empty := by
    rw [propertyCommand, encodeParams, encodeCommand_filter,
      getCommand_eq_ok_iff (hpla.trans_ne (by decide)) (by simp [hkin, hnot])]
    simp [hpla, forall₂_cons_left_iff, arrive_ofString, hemp, hlas, filter_cons]
  have hsym {s : String} (h : Value.Same (.symbol s none) (.ofString (plain s) : Value ℚ)) :
      (.ofString (plain s) : Value ℚ).ne .empty = true :=
    ne_empty_of_sendable (sendable_of_same (by simp [Sendable, Value.kind]) h)
  simp only [Carries, hget, exists_eq_left, ← hsam]
  constructor
  · intro h
    rw [filter_sublist.eq_of_length h.length_eq.symm] at h
    simpa using h
  · rintro ⟨hmac, hpro, htex⟩
    rw [filter_eq_self.mpr (by simp [hsym hmac, hsym hpro, hsym htex])]
    simp [hmac, hpro, htex]

/-- However the stream is split, every record is reported once and in order, and the buffer is
never full; the commands carry the reports exactly if they and the names of the options arrive
as symbols. -/
theorem reports_every_record_iff (hR : Records p R) {rs reads : List Text} {q : Text} {s : State}
    (hrs : ∀ r ∈ rs, r ∈ R) (hq : Partial R q) (hstr : reads.flatten = rs.flatten ++ q)
    (hrun : Runs.execute (step o p) start reads = some s) :
    s.closed = false ∧ s.buffer.length < 99 ∧ ∃ texts, List.Forall₂ (IsReport p) rs texts ∧
      (List.Forall₂ (Carries o) texts s.sent ↔
        ∀ t ∈ texts, Named o.machine ∧ Named o.property ∧ Named (String.ofList t)) ∧
      (p.re_nsub = 0 → texts = rs) ∧
      ∀ groups : Text → List Text, (∀ r f, IsMatch p r f → f.texts.tail = groups r) →
        p.re_nsub ≠ 0 → texts = rs.map fun r => [' '].intercalate (groups r) := by
  have hemp : Partial R start.buffer := by
    obtain ⟨r, hr, -, -⟩ := id hq
    exact ⟨r, hr, nil_prefix, record_pos hR hq hr⟩
  obtain ⟨hbuf, hope, texts, hsen, hrep⟩ := run_records hR hq hrs hemp
    (fun r hr => record_pos hR hq (hrs r (mem_of_mem_head? hr))) rfl hstr hrun
  refine ⟨hope, ?_, texts, hrep, ?_, fun h0 => ?_, fun groups hgro hn => ?_⟩
  · obtain ⟨r, hr, -, hlt⟩ := hq
    have := hR.short r hr
    rw [hbuf]
    omega
  · rw [hsen, show start.sent = [] from rfl, nil_append, forall₂_map_right_iff, forall₂_same]
    exact forall₂_congr fun t _ => carries_iff t
  · rw [← forall₂_eq_eq_eq]
    exact hrep.flip.imp fun t r h => value_of_isReport h h0
  · rw [← forall₂_eq_eq_eq, forall₂_map_right_iff]
    refine hrep.flip.imp fun t r h => ?_
    obtain ⟨f, hf, rfl⟩ := h
    rw [value, if_neg hn, hgro r f hf]

/-- `.`, whose records are single characters. -/
def dot : Pattern where
  re_nsub := 0
  regexec _ t := if t = [] then none else some ⟨0, 1, []⟩
  length_groups := by aesop
  stop_le {_ t _} h := by cases t <;> aesop

theorem scan_dot (t : Text) (b : Bool) :
    (scan (nextIn dot) (t.length + 1) b t).map (fun f => (f.start, f.stop)) =
      t.map fun _ => (0, 1) := by
  induction t generalizing b with
  | nil => rfl
  | cons c t ih =>
    rw [length_cons, scan]
    simpa [nextIn, nextMatch, dot, report] using ih true

theorem records_dot : Records dot {r | ∃ c, c ≠ '\x00' ∧ r = [c]} where
  short := by
    rintro r ⟨c, -, rfl⟩
    simp
  no_nul := by
    rintro r ⟨c, hc, rfl⟩
    simpa using hc.symm
  exact := by
    rintro rs q hrs ⟨r, ⟨c, -, rfl⟩, -, hq⟩
    obtain rfl : q = [] := by simpa using hq
    rw [successive, scan_dot, append_nil]
    induction rs with
    | nil => rfl
    | cons r rs ih =>
      obtain ⟨c, -, rfl⟩ := hrs r (by simp)
      simpa using ih fun s hs => hrs s (.tail _ hs)

def lineOfScale : Options := ⟨"scale", "line"⟩

theorem characters_partial : Partial {r | ∃ c, c ≠ '\x00' ∧ r = [c]} [] :=
  ⟨['a'], ⟨'a', by decide, rfl⟩, nil_prefix, by decide⟩

theorem reports_two_characters :
    ∃ s, Runs.execute (step lineOfScale dot) start [['a'], [], ['b']] = some s ∧
      List.Forall₂ (Carries lineOfScale) [['a'], ['b']] s.sent := by
  obtain ⟨s, hs⟩ : ∃ s, Runs.execute (step lineOfScale dot) start [['a'], [], ['b']] = some s :=
    ⟨_, rfl⟩
  have hrs : ∀ r ∈ [['a'], ['b']], r ∈ {r : Text | ∃ c, c ≠ '\x00' ∧ r = [c]} := by simp
  obtain ⟨-, -, texts, -, hcar, hall, -⟩ :=
    reports_every_record_iff records_dot hrs characters_partial rfl hs
  obtain rfl := hall rfl
  exact ⟨s, hs, hcar.mpr (by decide)⟩

/-- A control character is left out of the command. -/
theorem control_character_lost :
    ∃ s, Runs.execute (step lineOfScale dot) start [['\x02']] = some s ∧
      ¬List.Forall₂ (Carries lineOfScale) [['\x02']] s.sent := by
  refine ⟨_, rfl, fun h => ?_⟩
  have hcar := (carries_iff ['\x02']).mp (forall₂_cons.mp h).1
  exact absurd hcar.2.2 (by decide)

end Clockwork.DeviceConnector
