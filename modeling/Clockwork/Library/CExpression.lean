import Clockwork.Library.Decimal
import Mathlib.Tactic.Cases

namespace CExpression

open List Option Int64 Decimal Nat

inductive Operator where
  | lor | land | bor | bxor | band | eq | ne | lt | gt | le | ge | add | sub | mul | div | mod
deriving DecidableEq, Repr

inductive Access where
  | dot | arrow
deriving DecidableEq, Repr

structure Path where
  head : List Char
  members : List (Access × List Char)
deriving DecidableEq, Repr

inductive Expr where
  | const (n : ℕ)
  | path (p : Path)
  | neg (e : Expr)
  | not (e : Expr)
  | binary (l : Expr) (o : Operator) (r : Expr)
  | paren (e : Expr)
deriving DecidableEq, Repr

inductive Token where
  | name (s : List Char)
  | number (n : ℕ)
  | lparen
  | rparen
  | bang
  | access (a : Access)
  | op (o : Operator)
  | assign
  | other
deriving DecidableEq, Repr

def keywords : List (List Char) :=
  ["auto", "break", "case", "char", "const", "continue", "default", "do", "double", "else", "enum",
    "extern", "float", "for", "goto", "if", "inline", "int", "long", "register", "restrict",
    "return", "short", "signed", "sizeof", "static", "struct", "switch", "typedef", "union",
    "unsigned", "void", "volatile", "while"].map String.toList

def isWordChar (c : Char) : Bool := c.isAlphanum || c == '_'

def IsIdentifier (s : List Char) : Prop :=
  s ≠ [] ∧ s.all isWordChar = true ∧ s.head?.any Char.isDigit = false ∧ s ∉ keywords

instance : DecidablePred IsIdentifier := fun s =>
  inferInstanceAs (Decidable (s ≠ [] ∧ s.all isWordChar = true ∧ _ ∧ s ∉ keywords))

/-- A decimal constant has no leading zero; with one it would be octal. -/
def IsDecimal (s : List Char) : Prop :=
  s.all Char.isDigit = true ∧ (s.head? = some '0' → s = ['0'])

instance : DecidablePred IsDecimal := fun s =>
  inferInstanceAs (Decidable (s.all Char.isDigit = true ∧ (_ → s = ['0'])))

def wordToken (s : List Char) : Option Token :=
  if s.head?.any Char.isDigit then
    if IsDecimal s then some (.number (Nat.ofDigitChars 10 s 0)) else none
  else if s ∈ keywords then none
  else some (.name s)

def start : Char → Option Token
  | '!' => some .bang
  | '.' => some (.access .dot)
  | '=' => some .assign
  | '|' => some (.op .bor)
  | '^' => some (.op .bxor)
  | '&' => some (.op .band)
  | '<' => some (.op .lt)
  | '>' => some (.op .gt)
  | '+' => some (.op .add)
  | '-' => some (.op .sub)
  | '*' => some (.op .mul)
  | '/' => some (.op .div)
  | '%' => some (.op .mod)
  | _ => none

def extend : Token → Char → Option Token
  | .op .sub, '>' => some (.access .arrow)
  | .assign, '=' => some (.op .eq)
  | .bang, '=' => some (.op .ne)
  | .op .lt, '=' => some (.op .le)
  | .op .gt, '=' => some (.op .ge)
  | .op .bor, '|' => some (.op .lor)
  | .op .band, '&' => some (.op .land)
  | .op .add, '+' => some .other
  | .op .sub, '-' => some .other
  | .op .lt, '<' => some .other
  | .op .gt, '>' => some .other
  | .op .div, '/' => some .other
  | .op .div, '*' => some .other
  | .op _, '=' => some .other
  | _, _ => none

inductive Pending where
  | idle
  | word (s : List Char)
  | punctuator (t : Token)
deriving DecidableEq, Repr

def Pending.extend : Pending → Char → Option Token
  | .punctuator t, c => CExpression.extend t c
  | _, _ => none

def flush : Pending → List Token → Option (List Token)
  | .idle, ts => some ts
  | .word s, ts => (wordToken s).map fun t => ts ++ [t]
  | .punctuator t, ts => some (ts ++ [t])

/-- One character of the longest match. No punctuator is longer than a parenthesis it starts
with, so these are taken at once. -/
def step : Pending × List Token → Char → Option (Pending × List Token)
  | (p, ts), c =>
    if isWordChar c then
      match p with
      | .word s => some (.word (s ++ [c]), ts)
      | p => (flush p ts).map fun ts => (.word [c], ts)
    else if c.isWhitespace then (flush p ts).map fun ts => (.idle, ts)
    else if c = '(' then (flush p ts).map fun ts => (.idle, ts ++ [.lparen])
    else if c = ')' then (flush p ts).map fun ts => (.idle, ts ++ [.rparen])
    else
      match p.extend c with
      | some t => some (.punctuator t, ts)
      | none => do
        let ts ← flush p ts
        let t ← start c
        return (.punctuator t, ts)

def lex (s : List Char) : Option (List Token) := do
  let r ← s.foldlM step (.idle, [])
  flush r.1 r.2

def Operator.level : Operator → ℕ
  | .lor => 0
  | .land => 1
  | .bor => 2
  | .bxor => 3
  | .band => 4
  | .eq | .ne => 5
  | .lt | .gt | .le | .ge => 6
  | .add | .sub => 7
  | .mul | .div | .mod => 8

def parseMembers : List Token → Option (List (Access × List Char) × List Token)
  | .access a :: .name s :: ts => (parseMembers ts).map fun r => ((a, s) :: r.1, r.2)
  | .access _ :: _ => none
  | ts => some ([], ts)

def close : Expr × List Token → Option (Expr × List Token)
  | (e, .rparen :: ts) => some (.paren e, ts)
  | _ => none

-- precedence climbing; every call uses up fuel
mutual

def parseUnary : ℕ → List Token → Option (Expr × List Token)
  | n + 1, .op .sub :: ts => (parseUnary n ts).map fun r => (.neg r.1, r.2)
  | n + 1, .bang :: ts => (parseUnary n ts).map fun r => (.not r.1, r.2)
  | n + 1, .lparen :: ts => (parseBinary n 0 ts).bind close
  | _ + 1, .number k :: ts => some (.const k, ts)
  | _ + 1, .name s :: ts => (parseMembers ts).map fun r => (.path ⟨s, r.1⟩, r.2)
  | _, _ => none

def parseBinary : ℕ → ℕ → List Token → Option (Expr × List Token)
  | n + 1, level, ts => (parseUnary n ts).bind fun r => parseRest n level r.1 r.2
  | 0, _, _ => none

/-- The operators of the level or a tighter one that follow a left operand. -/
def parseRest : ℕ → ℕ → Expr → List Token → Option (Expr × List Token)
  | n + 1, level, l, .op o :: ts =>
    if level ≤ o.level then
      (parseBinary n (o.level + 1) ts).bind fun r => parseRest n level (.binary l o r.1) r.2
    else some (l, .op o :: ts)
  | _ + 1, _, l, ts => some (l, ts)
  | 0, _, _, _ => none

end

def parse (s : List Char) : Option Expr := do
  let ts ← lex s
  let r ← parseBinary (2 * ts.length + 1) 0 ts
  if r.2 = [] then some r.1 else none

section Values

variable (limit : ℤ)

def fit (z : ℤ) : Option Int64 := if -limit ≤ z ∧ z < limit then some (Int64.ofInt z) else none

def ofBool (b : Bool) : Int64 := if b then 1 else 0

/-- The value of an operator on the values of both operands. An overflow and a zero divisor have
none. -/
def Operator.apply (o : Operator) (a b : Int64) : Option Int64 :=
  match o with
  | .lor => some (ofBool (a ≠ 0 ∨ b ≠ 0))
  | .land => some (ofBool (a ≠ 0 ∧ b ≠ 0))
  | .bor => some (a ||| b)
  | .bxor => some (a ^^^ b)
  | .band => some (a &&& b)
  | .eq => some (ofBool (a = b))
  | .ne => some (ofBool (a ≠ b))
  | .lt => some (ofBool (a < b))
  | .gt => some (ofBool (b < a))
  | .le => some (ofBool (a ≤ b))
  | .ge => some (ofBool (b ≤ a))
  | .add => fit limit (a.toInt + b.toInt)
  | .sub => fit limit (a.toInt - b.toInt)
  | .mul => fit limit (a.toInt * b.toInt)
  | .div => if b = 0 then none else fit limit (a.toInt.tdiv b.toInt)
  | .mod => if b = 0 then none else (fit limit (a.toInt.tdiv b.toInt)).map fun _ => a % b

def Operator.skips : Operator → Int64 → Bool
  | .lor, a => a != 0
  | .land, a => a == 0
  | _, _ => false

/-- The value of an expression. A constant has the first type it fits in, up to the widest. -/
def Expr.eval (env : Path → Option Int64) : Expr → Option Int64
  | .const n => fit 9223372036854775808 n
  | .path p => env p
  | .neg e => (e.eval env).bind fun a => fit limit (-a.toInt)
  | .not e => (e.eval env).map fun a => ofBool (a = 0)
  | .binary l o r => (l.eval env).bind fun a =>
    if o.skips a then some (ofBool (a ≠ 0)) else (r.eval env).bind (o.apply limit a)
  | .paren e => e.eval env

end Values

def Expr.paths : Expr → List Path
  | .const _ => []
  | .path p => [p]
  | .neg e => e.paths
  | .not e => e.paths
  | .binary l _ r => l.paths ++ r.paths
  | .paren e => e.paths

def Expr.Declared (env : Path → Option Int64) (e : Expr) : Prop :=
  ∀ p ∈ e.paths, (env p).isSome

def Operator.text : Operator → List Char
  | .lor => ['|', '|']
  | .land => ['&', '&']
  | .bor => ['|']
  | .bxor => ['^']
  | .band => ['&']
  | .eq => ['=', '=']
  | .ne => ['!', '=']
  | .lt => ['<']
  | .gt => ['>']
  | .le => ['<', '=']
  | .ge => ['>', '=']
  | .add => ['+']
  | .sub => ['-']
  | .mul => ['*']
  | .div => ['/']
  | .mod => ['%']

def Access.text : Access → List Char
  | .dot => ['.']
  | .arrow => ['-', '>']

variable (ms : List (Access × List Char))

def membersText : List Char :=
  ms.flatMap fun m => m.1.text ++ m.2

def Expr.text : Expr → List Char
  | .const n => Nat.toDigits 10 n
  | .path p => p.head ++ membersText p.members
  | .neg e => '-' :: e.text
  | .not e => ' ' :: '!' :: ' ' :: e.text
  | .binary l o r => l.text ++ ' ' :: (o.text ++ ' ' :: r.text)
  | .paren e => '(' :: (e.text ++ [')'])

def membersTokens : List Token :=
  ms.flatMap fun m => [.access m.1, .name m.2]

def Expr.tokens : Expr → List Token
  | .const n => [.number n]
  | .path p => .name p.head :: membersTokens p.members
  | .neg e => .op .sub :: e.tokens
  | .not e => .bang :: e.tokens
  | .binary l o r => l.tokens ++ .op o :: r.tokens
  | .paren e => .lparen :: (e.tokens ++ [.rparen])

def Path.Valid (p : Path) : Prop :=
  IsIdentifier p.head ∧ ∀ m ∈ p.members, IsIdentifier m.2

instance : DecidablePred Path.Valid := fun p =>
  inferInstanceAs (Decidable (IsIdentifier p.head ∧ ∀ m ∈ p.members, IsIdentifier m.2))

/-- The expressions with parentheses around every operation, the sign of a constant apart. -/
inductive Operand : Expr → Prop
  | const (n : ℕ) : Operand (.const n)
  | negative (n : ℕ) : Operand (.neg (.const n))
  | path {p : Path} (hp : p.Valid) : Operand (.path p)
  | paren {e : Expr} (he : Operand e) : Operand (.paren e)
  | not {e : Expr} (he : Operand e) : Operand (.paren (.not e))
  | binary {l r : Expr} (hl : Operand l) (o : Operator) (hr : Operand r) :
    Operand (.paren (.binary l o r))

theorem foldlM_step_word (s cs : List Char) (ts : List Token) (h : cs.all isWordChar = true) :
    cs.foldlM step (.word s, ts) = some (.word (s ++ cs), ts) := by
  induction cs generalizing s with
  | nil => simp
  | cons c cs ih =>
    rw [all_cons, Bool.and_eq_true] at h
    have hste : step (.word s, ts) c = some (.word (s ++ [c]), ts) := by
      simp [step, h.1]
    rw [foldlM_cons, hste]
    simpa using ih (s ++ [c]) h.2

variable {ts ts' : List Token} {s : List Char} {e : Expr} (n : ℕ)

theorem foldlM_word {p : Pending} {cs : List Char} (hne : cs ≠ []) (h : cs.all isWordChar = true)
    (hp : ∀ s, p ≠ .word s) (hflu : flush p ts = some ts') :
    cs.foldlM step (p, ts) = some (.word cs, ts') := by
  obtain ⟨c, cs, rfl⟩ := exists_cons_of_ne_nil hne
  rw [all_cons, Bool.and_eq_true] at h
  have hste : step (p, ts) c = some (.word [c], ts') := by
    cases p with
    | word s => exact absurd rfl (hp s)
    | idle => simp [step, h.1, hflu]
    | punctuator t => simp [step, h.1, hflu]
  rw [foldlM_cons, hste]
  exact foldlM_step_word [c] cs ts' h.2

def Lexes (s : List Char) (a : List Token) : Prop :=
  ∀ ts, ∃ p, s.foldlM step (.idle, ts) = some p ∧ flush p.1 p.2 = some (ts ++ a)

namespace Lexes

variable {s t : List Char} {a b : List Token}

theorem lex_eq (h : Lexes s a) : lex s = some a := by
  obtain ⟨p, hrun, hflu⟩ := h []
  simpa [lex, hrun] using hflu

theorem nil : Lexes [] [] := fun ts => ⟨(.idle, ts), rfl, by simp [flush]⟩

theorem space (hs : Lexes s a) (ht : Lexes t b) : Lexes (s ++ ' ' :: t) (a ++ b) := by
  intro ts
  obtain ⟨p, hrun, hflu⟩ := hs ts
  obtain ⟨q, hrun', hflu'⟩ := ht (ts ++ a)
  have hste : step p ' ' = some (.idle, ts ++ a) := by
    have hwor : isWordChar ' ' = false := by decide
    have hspa : ' '.isWhitespace = true := by decide
    simp [step, hwor, hspa, hflu]
  refine ⟨q, ?_, by simpa using hflu'⟩
  simp [foldlM_append, hrun, hste, hrun']

theorem paren (hs : Lexes s a) : Lexes ('(' :: (s ++ [')'])) (.lparen :: (a ++ [.rparen])) := by
  intro ts
  obtain ⟨p, hrun, hflu⟩ := hs (ts ++ [.lparen])
  have hope : step (.idle, ts) '(' = some (.idle, ts ++ [.lparen]) := rfl
  have hclo : step p ')' = some (.idle, ts ++ [.lparen] ++ a ++ [.rparen]) := by
    have hwor : isWordChar ')' = false := by decide
    have hspa : ')'.isWhitespace = false := by decide
    simp [step, hwor, hspa, hflu]
  refine ⟨(.idle, ts ++ [.lparen] ++ a ++ [.rparen]), ?_, by simp [flush]⟩
  simp [foldlM_append, hope, hrun, hclo]

theorem bang : Lexes ['!'] [.bang] := fun ts => ⟨(.punctuator .bang, ts), rfl, rfl⟩

theorem operator (o : Operator) : Lexes o.text [.op o] := by
  intro ts
  refine ⟨(.punctuator (.op o), ts), ?_, rfl⟩
  cases o <;> rfl

end Lexes

theorem wordToken_identifier (h : IsIdentifier s) : wordToken s = some (.name s) := by
  obtain ⟨-, -, hdig, hkey⟩ := h
  simp [wordToken, hdig, hkey]

theorem isDecimal_toDigits : IsDecimal (toDigits 10 n) := by
  refine ⟨all_eq_true.mpr fun c hc => isDigit_of_mem hc, fun hzer => ?_⟩
  rcases Nat.eq_zero_or_pos n with rfl | hn
  · rfl
  · -- the first digit of a positive number is no zero
    obtain ⟨c, ds, hds, hc, -⟩ := toDigits_head hn
    rw [hds, head?_cons, some.injEq] at hzer
    subst hzer
    exact absurd hc (by decide)

theorem wordToken_toDigits : wordToken (toDigits 10 n) = some (.number n) := by
  have hdig : (toDigits 10 n).head?.any Char.isDigit = true := by
    obtain ⟨c, hc, hdig⟩ := isDigit_head n []
    rw [append_nil] at hc
    rw [mem_def.mp hc, any_some, hdig]
  have hval : ofDigitChars 10 (toDigits 10 n) 0 = n :=
    ofDigitChars_toDigits (by decide) (by decide)
  rw [wordToken, if_pos hdig, if_pos (isDecimal_toDigits n), hval]

theorem isWordChar_of_isDigit {c : Char} (h : c.isDigit = true) : isWordChar c = true := by
  simp [isWordChar, Char.isAlphanum, h]

theorem foldlM_toDigits {p : Pending} (hp : ∀ s, p ≠ .word s) (hflu : flush p ts = some ts') :
    ∃ q, (toDigits 10 n).foldlM step (p, ts) = some q ∧
      flush q.1 q.2 = some (ts' ++ [.number n]) := by
  refine ⟨(.word (toDigits 10 n), ts'), ?_, ?_⟩
  · apply foldlM_word toDigits_ne_nil _ hp hflu
    exact all_eq_true.mpr fun c hc => isWordChar_of_isDigit (isDigit_of_mem hc)
  · rw [flush, wordToken_toDigits, map_some]

theorem step_start {t t' : Token} (h : wordToken s = some t) (ts : List Token) {c : Char}
    (hwor : isWordChar c = false) (hspa : c.isWhitespace = false) (hsta : start c = some t') :
    step (.word s, ts) c = some (.punctuator t', ts ++ [t]) := by
  have hope : c ≠ '(' := by
    rintro rfl
    cases hsta
  have hclo : c ≠ ')' := by
    rintro rfl
    cases hsta
  simp [step, hwor, hspa, hope, hclo, Pending.extend, flush, h, hsta]

theorem foldlM_access (a : Access) {t : Token} (h : wordToken s = some t) (ts : List Token) :
    a.text.foldlM step (.word s, ts) = some (.punctuator (.access a), ts ++ [t]) := by
  cases a with
  | dot =>
    have hdot := step_start h ts (c := '.') (by decide) (by decide) rfl
    rw [Access.text, foldlM_cons, hdot]
    rfl
  | arrow =>
    have hmin := step_start h ts (c := '-') (by decide) (by decide) rfl
    rw [Access.text, foldlM_cons, hmin]
    rfl

theorem foldlM_members (hs : IsIdentifier s) (ms : List (Access × List Char))
    (hms : ∀ m ∈ ms, IsIdentifier m.2) (ts : List Token) :
    ∃ p, (membersText ms).foldlM step (.word s, ts) = some p ∧
      flush p.1 p.2 = some (ts ++ .name s :: membersTokens ms) := by
  -- each member is read in the state that the name before it leaves
  induction ms generalizing s ts with
  | nil =>
    refine ⟨(.word s, ts), rfl, ?_⟩
    rw [flush, wordToken_identifier hs, map_some]
    rfl
  | cons m ms ih =>
    obtain ⟨a, n⟩ := m
    have hn : IsIdentifier n := hms (a, n) mem_cons_self
    have hacc := foldlM_access a (wordToken_identifier hs) ts
    have hnam : n.foldlM step (.punctuator (.access a), ts ++ [.name s]) =
        some (.word n, ts ++ [.name s] ++ [.access a]) :=
      foldlM_word hn.1 hn.2.1 (fun s h => by cases h) rfl
    obtain ⟨p, hrun, hflu⟩ := ih hn (fun m hm => hms m (mem_cons_of_mem _ hm))
      (ts ++ [.name s] ++ [.access a])
    refine ⟨p, ?_, by simpa [membersTokens] using hflu⟩
    have htex : membersText ((a, n) :: ms) = a.text ++ n ++ membersText ms := rfl
    simpa [htex, foldlM_append, hacc, hnam] using hrun

open CExpression.Expr

theorem Operand.lexes (h : Operand e) : Lexes e.text e.tokens := by
  induction h with
  | const n => exact fun ts => foldlM_toDigits n (fun s h => by cases h) rfl
  | negative n =>
    intro ts
    have hflu : flush (.punctuator (.op .sub)) ts = some (ts ++ [.op .sub]) := rfl
    obtain ⟨p, hrun, hflu⟩ := foldlM_toDigits n (fun s h => by cases h) hflu
    refine ⟨p, ?_, by simpa [tokens] using hflu⟩
    exact hrun
  | @path p hp =>
    intro ts
    have hhea : p.head.foldlM step (.idle, ts) = some (.word p.head, ts) :=
      foldlM_word hp.1.1 hp.1.2.1 (fun s h => by cases h) rfl
    obtain ⟨q, hrun, hflu⟩ := foldlM_members hp.1 p.members hp.2 ts
    refine ⟨q, ?_, hflu⟩
    simp [text, foldlM_append, hhea, hrun]
  | paren he ih => exact ih.paren
  | not he ih => exact (Lexes.nil.space (Lexes.bang.space ih)).paren
  | binary hl o hr ihl ihr => exact (ihl.space ((Lexes.operator o).space ihr)).paren

theorem parseMembers_tokens (hts : ∀ a, ts.head? ≠ some (.access a)) :
    parseMembers (membersTokens ms ++ ts) = some (ms, ts) := by
  induction ms with
  | nil =>
    cases ts with
    | nil => rfl
    | cons t ts =>
      cases t with
      | access a => exact absurd rfl (hts a)
      | _ => rfl
  | cons m ms ih =>
    have htok : membersTokens (m :: ms) = .access m.1 :: .name m.2 :: membersTokens ms := rfl
    rw [htok, cons_append, cons_append, parseMembers, ih, map_some]

theorem parseRest_rparen (n level : ℕ) (e : Expr) (ts : List Token) :
    parseRest (n + 1) level e (.rparen :: ts) = some (e, .rparen :: ts) := by
  rw [parseRest]
  intro o ts' h
  cases h

theorem parseBinary_rparen {n level : ℕ} (h : parseUnary (n + 1) ts = some (e, .rparen :: ts')) :
    parseBinary (n + 2) level ts = some (e, .rparen :: ts') := by
  rw [parseBinary, h, bind_some, parseRest_rparen]

theorem parseUnary_lparen {n : ℕ} (h : parseBinary n 0 ts = some (e, .rparen :: ts')) :
    parseUnary (n + 1) (.lparen :: ts) = some (.paren e, ts') := by
  rw [parseUnary, h, bind_some, close]

/-- The tokens of an operand are read back with the rest left over. Every token is worth two
calls of fuel. -/
theorem Operand.parseUnary_tokens (h : Operand e) {n : ℕ} (hn : 2 * e.tokens.length ≤ n)
    (hts : ∀ a, ts.head? ≠ some (.access a)) : parseUnary n (e.tokens ++ ts) = some (e, ts) := by
  have hrpa (ts : List Token) : ∀ a, (Token.rparen :: ts).head? ≠ some (.access a) :=
    nofun
  induction h generalizing n ts with
  | const k =>
    obtain ⟨n, rfl⟩ : ∃ k, n = k + 1 := ⟨n - 1, by simp [tokens] at hn; omega⟩
    rfl
  | negative k =>
    obtain ⟨n, rfl⟩ : ∃ k, n = k + 2 := ⟨n - 2, by simp [tokens] at hn; omega⟩
    rfl
  | @path p hp =>
    obtain ⟨n, rfl⟩ : ∃ k, n = k + 1 := ⟨n - 1, by simp [tokens] at hn; omega⟩
    rw [tokens, cons_append, parseUnary, parseMembers_tokens p.members hts, map_some]
  | @paren e he ih =>
    simp only [tokens, length_cons, length_append, length_nil] at hn
    obtain ⟨n, rfl⟩ : ∃ k, n = k + 3 := ⟨n - 3, by omega⟩
    have hinn := ih (n := n + 1) (by omega) (hrpa ts)
    simpa [tokens] using parseUnary_lparen (parseBinary_rparen hinn)
  | @not e he ih =>
    simp only [tokens, length_cons, length_append, length_nil] at hn
    obtain ⟨n, rfl⟩ : ∃ k, n = k + 3 := ⟨n - 3, by omega⟩
    have hnot : parseUnary (n + 1) (.bang :: (e.tokens ++ .rparen :: ts)) =
        some (.not e, .rparen :: ts) := by
      rw [parseUnary, ih (by omega) (hrpa ts), map_some]
    simpa [tokens] using parseUnary_lparen (parseBinary_rparen hnot)
  | @binary l r hl o hr ihl ihr =>
    simp only [tokens, length_cons, length_append, length_nil] at hn
    obtain ⟨n, rfl⟩ : ∃ k, n = k + 5 := ⟨n - 5, by omega⟩
    have hrig : parseBinary (n + 2) (o.level + 1) (r.tokens ++ .rparen :: ts) =
        some (r, .rparen :: ts) := parseBinary_rparen (ihr (by omega) (hrpa ts))
    have hlef : parseUnary (n + 3) (l.tokens ++ .op o :: (r.tokens ++ .rparen :: ts)) =
        some (l, .op o :: (r.tokens ++ .rparen :: ts)) := ihl (by omega) nofun
    have hinn : parseBinary (n + 4) 0 (l.tokens ++ .op o :: (r.tokens ++ .rparen :: ts)) =
        some (.binary l o r, .rparen :: ts) := by
      rw [parseBinary, hlef, bind_some, parseRest, if_pos (zero_le _), hrig,
        bind_some, parseRest_rparen]
    simpa [tokens] using parseUnary_lparen hinn

theorem Operand.parse_text (h : Operand e) : parse e.text = some e := by
  have huna : parseUnary (2 * e.tokens.length) (e.tokens ++ []) = some (e, []) :=
    h.parseUnary_tokens le_rfl nofun
  have hpos : 0 < e.tokens.length := by cases h <;> simp [tokens]
  have hres : parseRest (2 * e.tokens.length) 0 e [] = some (e, []) := by
    obtain ⟨k, hk⟩ : ∃ k, 2 * e.tokens.length = k + 1 := ⟨2 * e.tokens.length - 1, by omega⟩
    rw [hk]
    rfl
  rw [append_nil] at huna
  simp [parse, h.lexes.lex_eq, parseBinary, huna, hres]

def literal (z : ℤ) : Expr := if z < 0 then .neg (.const z.natAbs) else .const z.natAbs

theorem operand_literal (z : ℤ) : Operand (literal z) := by
  unfold literal
  split
  · exact .negative _
  · exact .const _

theorem text_literal (z : ℤ) : (literal z).text = (toString z).toList := by
  rw [toList_toString, literal]
  split <;> rfl

theorem fit_eq_some_iff {limit z : ℤ} {n : Int64} :
    fit limit z = some n ↔ (-limit ≤ z ∧ z < limit) ∧ ofInt z = n := by
  unfold fit
  split_ifs with h <;> simp [h]

variable {limit : ℤ} {a b n : Int64}

theorem eval_literal {env : Path → Option Int64} {z : ℤ}
    (h : (literal z).eval limit env = some n) : n = ofInt z := by
  unfold literal at h
  split at h
  · next hneg =>
    rw [eval, bind_eq_some_iff] at h
    obtain ⟨c, hc, hn⟩ := h
    obtain ⟨hran, rfl⟩ := fit_eq_some_iff.mp hc
    obtain ⟨-, rfl⟩ := fit_eq_some_iff.mp hn
    have hval : (ofInt (z.natAbs : ℤ)).toInt = z.natAbs :=
      toInt_ofInt_of_le (by omega) (by omega)
    have habs : -(z.natAbs : ℤ) = z := by omega
    rw [hval, habs]
  · next hpos =>
    obtain ⟨-, rfl⟩ := fit_eq_some_iff.mp h
    have habs : (z.natAbs : ℤ) = z := by omega
    rw [habs]

open Operator

theorem apply_add (h : add.apply limit a b = some n) : a + b = n := by
  obtain ⟨-, rfl⟩ := fit_eq_some_iff.mp h
  rw [ofInt_add, ofInt_toInt, ofInt_toInt]

theorem apply_sub (h : sub.apply limit a b = some n) : a - b = n := by
  obtain ⟨-, rfl⟩ := fit_eq_some_iff.mp h
  rw [ofInt_sub, ofInt_toInt, ofInt_toInt]

theorem apply_mul (h : mul.apply limit a b = some n) : a * b = n := by
  obtain ⟨-, rfl⟩ := fit_eq_some_iff.mp h
  rw [ofInt_mul, ofInt_toInt, ofInt_toInt]

section

variable (hlim : limit ≤ 9223372036854775808)

include hlim

theorem not_minValue_of_fit
    (h : fit limit (a.toInt.tdiv b.toInt) = some n) : ¬(a = minValue ∧ b = -1) := by
  rintro ⟨rfl, rfl⟩
  obtain ⟨⟨-, hlt⟩, -⟩ := fit_eq_some_iff.mp h
  have hquo : minValue.toInt.tdiv (-1 : Int64).toInt = 9223372036854775808 := by decide
  omega

theorem apply_div (h : div.apply limit a b = some n) :
    b ≠ 0 ∧ ¬(a = minValue ∧ b = -1) ∧ a / b = n := by
  unfold apply at h
  split_ifs at h with hb
  refine ⟨hb, not_minValue_of_fit hlim h, ?_⟩
  obtain ⟨hran, rfl⟩ := fit_eq_some_iff.mp h
  apply toInt.inj
  rw [toInt_div, toInt_ofInt]

theorem apply_mod (h : mod.apply limit a b = some n) :
    b ≠ 0 ∧ ¬(a = minValue ∧ b = -1) ∧ a % b = n := by
  unfold apply at h
  split_ifs at h with hb
  obtain ⟨q, hq, hn⟩ := map_eq_some_iff.mp h
  exact ⟨hb, not_minValue_of_fit hlim hq, hn⟩

end

end CExpression
