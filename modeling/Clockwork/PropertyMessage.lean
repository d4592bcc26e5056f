import Clockwork.ChannelThrottle
import Clockwork.MessageEncoding
import Clockwork.PropertyAssign

namespace Clockwork.PropertyMessage

open CJson MessageEncoding Authority List Option Fallible Value Except
open ChannelThrottle (Channel Status)

variable {F M : Type}

section Sender

variable [NumberText F]

def propertyCommand (channelName : String) (key val : Value F) (authority : Option Int64) : Text :=
  encodeParams "PROPERTY" (.ofString channelName) key val (authority.elim .empty .integer)

/-- `Channel::sendPropertyChangeMessage` with the text of the message. -/
def sendPropertyChangeMessage (c : Channel) (st : Status) (m : ℕ) (channelName : String)
    (key val : Value F) (auth : UInt64) : Except Fault (Option Text) :=
  if c.stops st m key.asString then .error .assertion
  else
    .ok ((c.sendPropertyChangeMessage st m key.asString val auth.toNat).map fun msg =>
      propertyCommand channelName key msg.value (msg.authority.map Int64.ofNat))

def carried (c : Channel) (st : Status) (m : ℕ) (auth : UInt64) : Option Int64 :=
  if st.manager = none ∨ c.isPublisher then none
  else if c.isShadow m && c.owned m then some (.ofNat auth.toNat)
  else some (.ofNat c.authority)

theorem message_eq {c : Channel} {st : Status} {m : ℕ} {channelName : String} {key val : Value F}
    {auth : UInt64} {msg : Text}
    (h : sendPropertyChangeMessage c st m channelName key val auth = .ok (some msg)) :
    msg = propertyCommand channelName key val (carried c st m auth) := by
  unfold sendPropertyChangeMessage at h
  split at h
  · cases h
  obtain ⟨sent, hsen, rfl⟩ := map_eq_some_iff.mp (ok.inj h)
  have hval : sent.value = val ∧ sent.authority.map Int64.ofNat = carried c st m auth := by
    unfold Channel.sendPropertyChangeMessage at hsen
    unfold carried
    cases hman : st.manager with
    | none =>
      simp only [hman] at hsen
      split_ifs at hsen
      cases hsen
      simp
    | some manager =>
      simp only [hman] at hsen
      split_ifs at hsen
      all_goals
        cases hsen
        simp [*]
  rw [hval.1, hval.2]

end Sender

def label (s : String) : Value F := .ofString (plain s)

section Decoded

variable [Double F]

theorem length_label_le (s : String) : (label s : Value F).asString.length ≤ s.length := by
  have hpla : (plain s).length ≤ s.length := by
    rw [plain, String.length_ofList]
    exact (length_filter_le _ _).trans (takeWhile_sublist _).length_le
  refine le_trans ?_ hpla
  unfold label ofString
  split_ifs with hemp hfal htru hnul
  · rw [hemp]
    rfl
  · rw [hfal]
    exact (by decide : "false".length ≤ "FALSE".length)
  · rw [htru]
    exact (by decide : "true".length ≤ "TRUE".length)
  · rw [hnul]
    exact (by decide : "null".length ≤ "NULL".length)
  · exact le_rfl

theorem label_of_named {s : String} (h : Named s) :
    (label s : Value F) ≠ .empty ∧ (label s : Value F).asString = s := by
  obtain ⟨hpla, htru, hfal, hnul⟩ := h
  rw [label, (plain_eq_self_iff s).mpr hpla, ofString, if_neg htru, if_neg hnul]
  split_ifs with hemp
  · exact ⟨by simp, hemp.symm⟩
  · exact ⟨by simp, rfl⟩

theorem named_of_label {s : String} (hne : (label s : Value F) ≠ .empty)
    (h : (label s : Value F).asString = s) : Named s := by
  unfold label ofString at hne h
  split_ifs at hne h with hemp hfal htru hnul
  · have hs : s = "" := h.symm
    subst hs
    exact ⟨by decide, by decide⟩
  · have hs : s = "false" := h.symm
    subst hs
    exact absurd hfal (by decide)
  · have hs : s = "true" := h.symm
    subst hs
    exact absurd htru (by decide)
  · exact absurd rfl hne
  · have hs : plain s = s := h
    rw [hs] at hfal htru hnul
    exact ⟨(plain_eq_self_iff s).mp hs, htru, hfal, hnul⟩

theorem propertyValue_of_numberLike {u : Value F} (h : NumberLike u) :
    propertyValue u = .integer (strtol u.asString).1 := by
  cases u with
  | string s => exact if_pos ⟨.inl rfl, h⟩
  | symbol s t => exact if_pos ⟨.inr rfl, h⟩
  | _ => exact h.elim

theorem propertyValue_of_not_numberLike {u : Value F} (h : ¬NumberLike u) :
    propertyValue u = u := by
  refine if_neg ?_
  rintro ⟨hkin, hs⟩
  cases u with
  | string s => exact h hs
  | symbol s t => exact h hs
  | _ => simp [kind] at hkin

theorem settable_propertyValue {v u : Value F} (hv : Sendable v) (h : arrive v = .ok u)
    (hne : u ≠ .empty) : Settable (propertyValue u) := by
  by_cases hnum : NumberLike u
  · rw [propertyValue_of_numberLike hnum]
    trivial
  rw [propertyValue_of_not_numberLike hnum]
  cases v with
  | empty => simp [Sendable, kind] at hv
  | float x => simp [Sendable, kind] at hv
  | integer i =>
    obtain ⟨j, -, rfl⟩ := map_eq_ok_iff.mp h
    trivial
  | bool b =>
    cases h
    trivial
  | string s =>
    cases h
    exact Bool.eq_false_iff.mpr hnum
  | symbol s t =>
    cases h
    rcases ofString_cases (F := F) (plain s) with hs | ⟨b, hs⟩ | ⟨hemp, hs⟩ | hs <;>
      rw [hs] at hne hnum ⊢
    · exact absurd rfl hne
    · trivial
    · rw [hemp] at hnum
      exact absurd (by decide : (strtol "").2 = true) hnum
    · exact ⟨rfl, Bool.eq_false_iff.mpr hnum⟩

theorem propertyValue_same_iff {v u : Value F} (hv : Sendable v) (h : arrive v = .ok u) :
    Value.Same v (propertyValue u) ↔ Survives v ∧ ¬NumberLike v := by
  have hsur : Survives v ↔ Value.Same v u := by
    rw [← arrive_same_iff hv, h]
    simp
  have hnum (hsam : Value.Same v u) : NumberLike u ↔ NumberLike v := by
    cases hsam <;> rfl
  rw [hsur]
  by_cases hn : NumberLike u
  · rw [propertyValue_of_numberLike hn]
    constructor
    · intro hsam
      have hkin := hsam.kind_eq
      cases v with
      | integer i =>
        obtain ⟨j, -, rfl⟩ := map_eq_ok_iff.mp h
        exact hn.elim
      | _ => cases hkin
    · rintro ⟨hsam, hnot⟩
      exact absurd ((hnum hsam).mp hn) hnot
  · rw [propertyValue_of_not_numberLike hn]
    exact ⟨fun hsam => ⟨hsam, mt (hnum hsam).mpr hn⟩, fun hsam => hsam.1⟩

end Decoded

section Receiver

variable [DecidableEq M] [NumberText F] (env : Env F M)

/-- What `getCommand` decodes is executed by `IODCommandProperty`. Nothing is executed for a
message that is not decoded. -/
def receive (depth : ℕ) (w : M → Instance F) (msg : Text) : Option (M → Instance F) :=
  match getCommand false msg with
  | .ok (some (cmd, params)) => some (runProperty env depth w (.string cmd :: params)).2
  | _ => none

variable {env}

variable {depth : ℕ} {w w' : M → Instance F}

theorem receive_eq_some_iff {name property : String} {v : Value F}
    (hv : v.kind ≠ .float) {authority : Option Int64} :
    receive env depth w (propertyCommand name (.ofString property) v authority) = some w' ↔
      ∃ v' a, arrive v = .ok v' ∧ arrive (authority.elim .empty .integer) = .ok a ∧
        w' = (runProperty env depth w (.string "PROPERTY" ::
          [label name, label property, v', a].filter fun v => v.ne .empty)).2 := by
  have hpla : plain "PROPERTY" = "PROPERTY" := by decide
  have hkin : ∀ u ∈ [.ofString name, .ofString property, v, authority.elim .empty .integer],
      u.kind ≠ .float := by
    simp only [forall_mem_cons, not_mem_nil, false_implies, implies_true, and_true]
    refine ⟨kind_ofString_ne name (by decide), kind_ofString_ne property (by decide),
      hv, ?_⟩
    cases authority <;> simp [kind]
  have hdec (c : String) (values : List (Value F)) :
      getCommand false (propertyCommand name (.ofString property) v authority) =
          .ok (some (c, values)) ↔
        c = "PROPERTY" ∧ ∃ v' a, arrive v = .ok v' ∧
          arrive (authority.elim .empty .integer) = .ok a ∧
          values = [label name, label property, v', a].filter fun v => v.ne .empty := by
    rw [propertyCommand, encodeParams, encodeCommand_filter,
      getCommand_eq_ok_iff (hpla.trans_ne (by decide)) hkin, hpla]
    refine and_congr_right fun _ => ?_
    simp only [forall₂_cons_left_iff, forall₂_nil_left_iff, arrive_ofString, ok.injEq]
    constructor
    · rintro ⟨_, ⟨_, _, rfl, ⟨_, _, rfl, ⟨v', _, hv', ⟨a, _, ha, rfl, rfl⟩, rfl⟩, rfl⟩, rfl⟩, rfl⟩
      exact ⟨v', a, hv', ha, rfl⟩
    · rintro ⟨v', a, hv', ha, rfl⟩
      exact ⟨_, ⟨_, _, rfl, ⟨_, _, rfl, ⟨v', _, hv', ⟨a, _, ha, rfl, rfl⟩, rfl⟩, rfl⟩, rfl⟩, rfl⟩
  unfold receive
  constructor
  · intro h
    split at h
    · next c values hget =>
      obtain ⟨rfl, v', a, hv', ha, rfl⟩ := (hdec c values).mp hget
      exact ⟨v', a, hv', ha, (some.inj h).symm⟩
    · cases h
  · rintro ⟨v', a, hv', ha, rfl⟩
    rw [(hdec _ _).mpr ⟨rfl, v', a, hv', ha, rfl⟩]

variable {w : M → Instance F}

theorem runProperty_shadow {x : M} {c machine : Value F}
    (hfin : env.find machine.asString = some x) (hsha : (env.config x).isShadow = true)
    (rest : List (Value F)) :
    (runProperty env depth w (c :: machine :: rest)).2 =
      match rest with
      | q :: u :: more =>
        if 1 < more.length then w
        else (setValue env depth w x q.asString (propertyValue u)
          ((propertyAuthority (c :: machine :: rest)).getD 0)).2
      | _ => w := by
  unfold runProperty
  simp only [hfin]
  match rest with
  | [] => rfl
  | [_] => rfl
  | q :: u :: more =>
    simp only [hsha, Bool.true_eq_false, and_false, if_false]
    split <;> rfl

theorem runProperty_reaches {x : M} {c machine : Value F}
    (hfin : env.find machine.asString = some x) (hsha : (env.config x).isShadow = true)
    {rest : List (Value F)} {p : String}
    (h : ((runProperty env depth w (c :: machine :: rest)).2 x).properties p ≠ (w x).properties p) :
    ∃ q u more a, rest = q :: u :: more ∧
      (a = (propertyAuthority (c :: machine :: rest)).getD 0 ∨ a = 0) ∧
      route env w x p a = .assign ∧
      (runProperty env depth w (c :: machine :: rest)).2 = assign env w x p (propertyValue u) ∧
      (p = "VALUE" ∨ p = q.asString ∨
        p.toList <:+ q.asString.toList ∧ '.' ∈ q.asString.toList) := by
  rw [runProperty_shadow hfin hsha] at h ⊢
  match rest with
  | [] => exact absurd rfl h
  | [_] => exact absurd rfl h
  | q :: u :: more =>
    dsimp only at h ⊢
    split at h
    · exact absurd rfl h
    next hmor =>
    obtain ⟨a, ha, hrou, heq, hp⟩ := setValue_reaches h
    exact ⟨q, u, more, a, rfl, ha, hrou, by rw [if_neg hmor, heq], hp⟩

def Synchronised (env : Env F M) (msg : Text) (x : M) (property : String) (v : Value F) : Prop :=
  ∀ w : M → Instance F, Tokened ((w x).properties property) →
    ∃ n, ∀ depth ≥ n, ∃ w', receive env depth w msg = some w' ∧
      Value.Same v ((w' x).properties property)

structure Reaches (env : Env F M) (x : M) (property : String) (authority : Option Int64) :
    Prop where
  named : Named property
  own : Own env x property
  readable : ∀ a ∈ authority, Readable a
  allowed : env.expected x = 0 ∨ ∃ a ∈ authority, a ≠ 0

structure Arrives (env : Env F M) (x : M) (property : String) (v : Value F)
    (authority : Option Int64) : Prop extends Reaches env x property authority where
  survives : Survives v
  not_number : ¬NumberLike v
  no_filter : (env.config x).filter = none
  output : property = "VALUE" → (env.config x).hasIoInterface = true → v.kind ≠ .bool

variable {x : M} {name property : String} {v : Value F} {authority : Option Int64}

variable {u : Value F}

omit [DecidableEq M] in
theorem ne_empty_iff : u.ne .empty = true ↔ u ≠ .empty := by
  cases u with
  | empty => exact ⟨fun h => (nomatch h), fun h => absurd rfl h⟩
  | _ => exact ⟨fun _ => by simp, fun _ => rfl⟩

omit [DecidableEq M] in
theorem filter_of_ne_empty (h : u ≠ .empty) (us : List (Value F)) :
    (u :: us).filter (fun v => v.ne .empty) = u :: us.filter fun v => v.ne .empty :=
  filter_cons_of_pos (ne_empty_iff.mpr h)

omit [DecidableEq M] in
theorem filter_empty (us : List (Value F)) :
    (.empty :: us).filter (fun v => v.ne .empty) = us.filter fun v => v.ne .empty :=
  filter_cons_of_neg fun h => ne_empty_iff.mp h rfl

omit [DecidableEq M] [NumberText F] in
theorem kind_ne_float (hv : Sendable v) : v.kind ≠ .float := by
  rcases hv with h | h | h | h <;> simp [h]

theorem receive_of_reaches (hv : Sendable v) (hnam : (label name : Value F) ≠ .empty)
    (hfin : env.find (label name : Value F).asString = some x)
    (hsha : (env.config x).isShadow = true) (h : Reaches env x property authority)
    (hu : arrive v = .ok u) (hne : u ≠ .empty) (depth : ℕ) (w : M → Instance F) :
    receive env (depth + 1) w (propertyCommand name (.ofString property) v authority) =
      some (assign env w x property (propertyValue u)) := by
  obtain ⟨hlab, htex⟩ := label_of_named (F := F) h.named
  rw [receive_eq_some_iff (kind_ne_float hv)]
  cases authority with
  | none =>
    have hlis : [label name, label property, u, .empty].filter (fun v => v.ne .empty) =
        [label name, label property, u] := by
      simp [ne_empty_iff, hnam, hlab, hne]
    have hrou := route_of_own h.own (a := 0) (h.allowed.imp_right (by simp)) w
    refine ⟨u, .empty, hu, rfl, ?_⟩
    rw [hlis, runProperty_shadow hfin hsha]
    change _ = (setValue env (depth + 1) w x (label property : Value F).asString _ 0).2
    rw [htex, setValue, hrou]
  | some a =>
    obtain ⟨j, hj⟩ := (exists_rereadLong_iff a).mpr (h.readable a rfl)
    have hlis : [label name, label property, u, .integer j].filter (fun v => v.ne .empty) =
        [label name, label property, u, .integer j] := by
      simp [ne_empty_iff, hnam, hlab, hne]
    have hall : env.expected x = 0 ∨ j.toUInt64 ≠ 0 := by
      refine h.allowed.imp_right ?_
      rintro ⟨_, ha, hne⟩ hzer
      cases ha
      have hj0 : j = 0 := by simpa using congrArg UInt64.toInt64 hzer
      exact hne ((rereadLong_zero_iff hj).mp hj0)
    refine ⟨u, .integer j, hu, by simp [arrive, hj, Except.map], ?_⟩
    rw [hlis, runProperty_shadow hfin hsha]
    change _ = (setValue env (depth + 1) w x (label property : Value F).asString _ j.toUInt64).2
    rw [htex, setValue, route_of_own h.own hall w]

omit [DecidableEq M] in
theorem stored_integer_kind (j : Int64) : (stored env x property (.integer j)).kind = .integer := by
  have hfil : ((filtered env x (.integer j)).getD (.integer j)).kind = .integer := by
    unfold filtered
    cases (env.config x).filter <;> rfl
  unfold stored
  split
  · rfl
  · exact hfil

theorem kind_of_assign_integer {j : Int64} (hnul : (w x).properties property = .empty)
    (hsam : Value.Same v (((assign env w x property (.integer j)) x).properties property)) :
    v.kind = .integer := by
  have hset : Settable (.integer j : Value F) := trivial
  rw [assign_properties, hnul, if_pos (wasChanged_empty hset _)] at hsam
  exact hsam.kind_eq.trans (stored_integer_kind j)

omit [NumberText F] in
theorem not_reached_of_label_eq_empty (hlab : (label property : Value F) = .empty) (i : Int64) :
    ¬(property = "VALUE" ∨ property = toString i.toInt ∨
      property.toList <:+ (toString i.toInt).toList ∧ '.' ∈ (toString i.toInt).toList) := by
  have hpla : plain property = "NULL" := by
    unfold label ofString at hlab
    split_ifs at hlab
    assumption
  have hmem : 'N' ∈ property.toList := by
    have hN : 'N' ∈ (plain property).toList := by
      rw [hpla]
      decide
    rw [plain, String.toList_ofList] at hN
    exact (takeWhile_sublist _).subset (mem_of_mem_filter hN)
  have hdig : 'N' ∉ (toString i.toInt).toList := by
    intro h
    rcases Decimal.isDigit_or_sign h with h | h <;> exact absurd h (by decide)
  rintro (rfl | rfl | ⟨hsuf, -⟩)
  · exact absurd hmem (by decide)
  · exact hdig hmem
  · exact hdig (hsuf.subset hmem)

omit [NumberText F] in
theorem authority_cases {a : Value F} (ha : arrive (authority.elim .empty .integer) = .ok a) :
    authority = none ∧ a = .empty ∨
      ∃ i j, authority = some i ∧ a = .integer j ∧ rereadLong i = .ok j := by
  cases authority with
  | none => exact .inl ⟨rfl, (ok.inj ha).symm⟩
  | some i =>
    obtain ⟨j, hj, rfl⟩ := map_eq_ok_iff.mp ha
    exact .inr ⟨i, j, rfl, rfl, hj⟩

theorem label_of_reached (hp : property = "VALUE" ∨ property = (label property : Value F).asString ∨
      property.toList <:+ (label property : Value F).asString.toList ∧
        '.' ∈ (label property : Value F).asString.toList) :
    (label property : Value F).asString = property := by
  rcases hp with hp | hp | ⟨hsuf, -⟩
  · rw [hp]
    exact (label_of_named ⟨by decide, by decide⟩).2
  · exact hp.symm
  · have hlen := length_label_le (F := F) property
    exact (String.toList_inj.mp (hsuf.eq_of_length_le hlen)).symm

theorem reaches_of_receive (hv : Sendable v) (hnam : (label name : Value F) ≠ .empty)
    (hfin : env.find (label name : Value F).asString = some x)
    (hsha : (env.config x).isShadow = true) {depth : ℕ}
    (h : receive env depth w (propertyCommand name (.ofString property) v authority) = some w')
    (hnul : (w x).properties property = .empty) (hsam : Value.Same v ((w' x).properties property)) :
    Reaches env x property authority ∧ ∃ u, arrive v = .ok u ∧ u ≠ .empty := by
  obtain ⟨u, a, hu, ha, rfl⟩ := (receive_eq_some_iff (kind_ne_float hv)).mp h
  rw [filter_of_ne_empty hnam] at hsam
  have hcha : ((runProperty env depth w (.string "PROPERTY" :: label name ::
      [label property, u, a].filter fun v => v.ne .empty)).2 x).properties property ≠
      (w x).properties property := by
    intro heq
    have hkin := hsam.kind_eq
    rw [heq, hnul] at hkin
    rcases hv with h | h | h | h <;> cases h.symm.trans hkin
  obtain ⟨q, r, more, a', hres, ha', hrou, heq, hp⟩ :=
    runProperty_reaches hfin hsha hcha
  rw [heq] at hsam
  have haut := authority_cases ha
  -- the authority is set if a parameter before it is missing
  have hmis (hr : [a].filter (fun v => v.ne .empty) = r :: more) : ∃ i, v = .integer i := by
    rcases haut with ⟨-, rfl⟩ | ⟨-, j, -, rfl, -⟩
    · cases hr
    · obtain ⟨rfl, -⟩ := cons.inj hr
      have hkin := kind_of_assign_integer hnul hsam
      cases v with
      | integer i => exact ⟨i, rfl⟩
      | _ => cases hkin
  by_cases hlab : (label property : Value F) = .empty
  · by_cases hemp : u = .empty
    · rw [hlab, hemp] at hres
      rcases haut with ⟨-, rfl⟩ | ⟨-, j, -, rfl, -⟩ <;> cases hres
    · rw [hlab, filter_empty, filter_of_ne_empty hemp, cons.injEq] at hres
      obtain ⟨rfl, hr⟩ := hres
      obtain ⟨i, rfl⟩ := hmis hr
      obtain ⟨k, -, rfl⟩ := map_eq_ok_iff.mp hu
      exact absurd hp (not_reached_of_label_eq_empty hlab k)
  by_cases hemp : u = .empty
  · rw [filter_of_ne_empty hlab, hemp, cons.injEq] at hres
    obtain ⟨i, rfl⟩ := hmis hres.2
    obtain ⟨k, -, rfl⟩ := map_eq_ok_iff.mp hu
    cases hemp
  rw [filter_of_ne_empty hlab, filter_of_ne_empty hemp] at hres ha'
  obtain ⟨rfl, hres⟩ := cons.inj hres
  refine ⟨⟨named_of_label hlab (label_of_reached hp), own_of_route hnul hrou, ?_, ?_⟩, u, hu, hemp⟩
  · rintro i rfl
    obtain ⟨j, hj, -⟩ := map_eq_ok_iff.mp ha
    exact (exists_rereadLong_iff i).mp ⟨j, hj⟩
  · refine (route_assign hrou).imp_right fun hne => ?_
    rcases ha' with rfl | rfl
    · rcases haut with ⟨-, rfl⟩ | ⟨i, j, rfl, rfl, hj⟩
      · exact absurd rfl hne
      · refine ⟨i, rfl, fun hi => hne ?_⟩
        rw [(rereadLong_zero_iff hj).mpr hi]
        rfl
    · exact absurd rfl hne

theorem synchronised_iff {c : Channel} {st : Status} {m : ℕ} {auth : UInt64} {msg : Text}
    (hv : Sendable v)
    (hsent : sendPropertyChangeMessage c st m name (.ofString property) v auth = .ok (some msg))
    (hname : (label name : Value F) ≠ .empty)
    (hfind : env.find (label name : Value F).asString = some x)
    (hshadow : (env.config x).isShadow = true) :
    Synchronised env msg x property v ↔ Arrives env x property v (carried c st m auth) := by
  rw [message_eq hsent]
  have hboo {u : Value F} (hu : arrive v = .ok u) :
      (propertyValue u).kind = .bool → v.kind ≠ .integer := by
    intro hkin hint
    cases v with
    | integer i =>
      obtain ⟨j, -, rfl⟩ := map_eq_ok_iff.mp hu
      cases hkin
    | _ => cases hint
  constructor
  · intro h
    obtain ⟨n, hn⟩ := h (fun _ => ⟨"", fun _ => .empty⟩) trivial
    obtain ⟨w', hw', hsam⟩ := hn n le_rfl
    obtain ⟨hrea, u, hu, hne⟩ := reaches_of_receive hv hname hfind hshadow hw' rfl hsam
    have hset : ∀ w : M → Instance F, Tokened ((w x).properties property) →
        Value.Same v (((assign env w x property (propertyValue u)) x).properties property) := by
      intro w hw
      obtain ⟨n, hn⟩ := h w hw
      obtain ⟨w', hw', hsam⟩ := hn (n + 1) (Nat.le_succ n)
      rw [receive_of_reaches hv hname hfind hshadow hrea hu hne] at hw'
      rwa [some.inj hw']
    obtain ⟨hsam, hfil, hout⟩ :=
      (assign_same_iff (settable_propertyValue hv hu hne) (hboo hu)).mp hset
    obtain ⟨hsur, hnum⟩ := (propertyValue_same_iff hv hu).mp hsam
    exact ⟨hrea, hsur, hnum, hfil, hout⟩
  · intro h w hw
    obtain ⟨u, hu, hsam⟩ := (arrive_same_iff hv).mpr h.survives
    have hne : u ≠ .empty := by
      rintro rfl
      rcases hv with h | h | h | h <;> cases h.symm.trans hsam.kind_eq
    have hset := (assign_same_iff (settable_propertyValue hv hu hne) (hboo hu)).mpr
      ⟨(propertyValue_same_iff hv hu).mpr ⟨h.survives, h.not_number⟩, h.no_filter, h.output⟩
    refine ⟨1, fun depth hdep => ?_⟩
    obtain ⟨d, rfl⟩ := Nat.exists_eq_succ_of_ne_zero (Nat.one_le_iff_ne_zero.mp hdep)
    exact ⟨_, receive_of_reaches hv hname hfind hshadow h.toReaches hu hne d w, hset w hw⟩

end Receiver

def pumpChannel : Channel where
  reportPropertyChanges := true
  reportLocalPropertyChanges := false
  reportModbusUpdates := false
  isPublisher := false
  isClient := false
  authority := 7
  throttleTime := 0
  interfaceFor _ := some (· = "speed")
  member _ := true
  filtersAllow _ := true
  stateMachine _ := none
  isShadow _ := false
  owned _ := false
  needsThrottle _ := false

def pumpStatus : Status := ⟨.active, some ⟨true, false⟩, false⟩

def sendSpeed (v : Value ℚ) : Except Fault (Option Text) :=
  sendPropertyChangeMessage pumpChannel pumpStatus 0 "pump" (.ofString "speed") v 0

def pumpShadow : Env ℚ Unit where
  config _ :=
    { name := "pump"
      expectedAuthority := 7
      isShadow := true
      channelConnected := true
      isConstant := false
      states := []
      globalReferences := fun _ => none
      filter := none
      hasIoInterface := false }
  lookup _ _ := none
  find name := if name = "pump" then some () else none
  getValue w x name := (w x).properties name
  output _ _ := none

theorem pump_reaches : Reaches pumpShadow () "speed" (carried pumpChannel pumpStatus 0 0) where
  named := ⟨by decide, by decide⟩
  own := ⟨by decide, by decide, by decide, rfl, .inr (.inr rfl)⟩
  readable := by
    intro a ha
    cases ha
    exact ⟨by decide, by decide⟩
  allowed := .inr ⟨7, rfl, by decide⟩

theorem pump_found : (label "pump" : Value ℚ) ≠ .empty ∧
    pumpShadow.find (label "pump" : Value ℚ).asString = some () := by
  decide

theorem pump_sends (v : Value ℚ) :
    sendSpeed v = .ok (some (propertyCommand "pump" (.ofString "speed") v
      (carried pumpChannel pumpStatus 0 0))) := rfl

theorem pump_speed_synchronised : ∃ msg,
    sendSpeed (.string "fast") = .ok (some msg) ∧
      Synchronised pumpShadow msg () "speed" (.string "fast") := by
  refine ⟨_, pump_sends _,
    (synchronised_iff (.inl rfl) (pump_sends _) pump_found.1 pump_found.2 rfl).mpr ?_⟩
  refine ⟨pump_reaches, ?_, ?_, rfl, fun h => absurd h (by decide)⟩
  · exact (by decide : Plain "fast")
  · exact (by decide : ¬(strtol "fast").2 = true)

/-- A string of digits arrives as a number. -/
theorem pump_speed_not_synchronised : ∃ msg,
    sendSpeed (.string "123") = .ok (some msg) ∧
      ¬Synchronised pumpShadow msg () "speed" (.string "123") := by
  refine ⟨_, pump_sends _, fun h => ?_⟩
  obtain ⟨n, hn⟩ := h (fun _ => ⟨"", fun _ => .empty⟩) trivial
  obtain ⟨w, hw, hsam⟩ := hn (n + 1) (Nat.le_succ n)
  have harr : arrive (.string "123" : Value ℚ) = .ok (.string "123") := by decide
  rw [receive_of_reaches (.inl rfl) pump_found.1 pump_found.2 rfl pump_reaches harr
    (by decide)] at hw
  cases hw
  cases hsam.kind_eq

end Clockwork.PropertyMessage
