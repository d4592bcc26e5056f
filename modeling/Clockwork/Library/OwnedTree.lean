import Mathlib.Data.Nat.Notation
import Mathlib.Logic.Function.Basic

namespace OwnedTree

open Option

variable {ι : Type*}

inductive Side where
  | left | right
deriving DecidableEq, Repr

/-- A pointer to a live tree, or a null pointer. -/
inductive LiveTree (ι : Type*) where
  | null
  | node (info : ι) (left right : LiveTree ι)
deriving DecidableEq, Repr

/-- A pointer: it may also point at something deleted. -/
inductive Link (ι : Type*) where
  | null
  | freed
  | node (info : ι) (left right : Link ι)
deriving DecidableEq, Repr

namespace LiveTree

def link : LiveTree ι → Link ι
  | null => .null
  | node info l r => .node info l.link r.link

def child : LiveTree ι → Side → Option (LiveTree ι)
  | node _ l _, .left => some l
  | node _ _ r, .right => some r
  | null, _ => none

def follow : LiveTree ι → List Side → Option (LiveTree ι)
  | t, [] => some t
  | t, s :: path => (t.child s).bind fun c => c.follow path

def isNull : LiveTree ι → Bool
  | null => true
  | node _ _ _ => false

def size : LiveTree ι → ℕ
  | null => 0
  | node _ l r => l.size + r.size + 1

end LiveTree

namespace Link

def tree? : Link ι → Option (LiveTree ι)
  | null => some .null
  | freed => none
  | node info l r => l.tree?.bind fun l' => r.tree?.map fun r' => .node info l' r'

def copy : Link ι → Option (Link ι)
  | null => some .null
  | freed => none
  | node info l r => l.copy.bind fun l' => r.copy.map fun r' => .node info l' r'

/-- What a pointer is after `delete`: nothing may be deleted twice. -/
def delete (l : Link ι) : Option (Link ι) :=
  match l with
  | null => some null
  | l => l.tree?.map fun _ => freed

def child : Link ι → Side → Option (Link ι)
  | node _ l _, .left => some l
  | node _ _ r, .right => some r
  | _, _ => none

def follow : Link ι → List Side → Option (Link ι)
  | l, [] => some l
  | l, s :: path => (l.child s).bind fun c => c.follow path

def write (x : Link ι) : Link ι → List Side → Link ι
  | _, [] => x
  | node info l r, .left :: path => node info (write x l path) r
  | node info l r, .right :: path => node info l (write x r path)
  | l, _ :: _ => l

end Link

open OwnedTree.Link

variable (t : LiveTree ι)

@[simp]
theorem tree_link : t.link.tree? = some t := by
  induction t with
  | null => rfl
  | node info l r ihl ihr => simp [LiveTree.link, tree?, ihl, ihr]

theorem copy_eq (l : Link ι) : l.copy = l.tree?.map LiveTree.link := by
  induction l with
  | null => rfl
  | freed => rfl
  | node info l r ihl ihr =>
    cases hl : l.tree? <;> cases hr : r.tree? <;>
      simp [copy, tree?, ihl, ihr, hl, hr, LiveTree.link]

@[simp]
theorem copy_link : t.link.copy = some t.link := by
  rw [copy_eq, tree_link, map_some]

theorem delete_link : t.link.delete = some (if t.isNull then .null else .freed) := by
  cases t with
  | null => rfl
  | node info l r => simp [LiveTree.link, delete, tree?, LiveTree.isNull]

theorem isNull_iff {t : LiveTree ι} : t.isNull ↔ t = .null := by
  cases t <;> simp [LiveTree.isNull]

theorem link_eq_null_iff {t : LiveTree ι} : t.link = .null ↔ t.isNull := by
  cases t <;> simp [LiveTree.link, LiveTree.isNull]

theorem follow_append (l : Link ι) (path rest : List Side) :
    l.follow (path ++ rest) = (l.follow path).bind fun m => m.follow rest := by
  induction path generalizing l with
  | nil => rfl
  | cons s path ih =>
    simp only [List.cons_append, follow]
    cases l.child s with
    | none => rfl
    | some c => exact ih c

theorem follow_link (path : List Side) :
    t.link.follow path = (t.follow path).map LiveTree.link := by
  induction path generalizing t with
  | nil => rfl
  | cons s path ih =>
    cases t with
    | null => rfl
    | node info l r => cases s <;> exact ih _

variable (x l : Link ι)

theorem child_write_self (s : Side) (path : List Side) :
    (write x l (s :: path)).child s = (l.child s).map fun c => write x c path := by
  cases l <;> cases s <;> rfl

theorem child_write_of_ne {s s' : Side} (h : s' ≠ s) (path : List Side) :
    (write x l (s :: path)).child s' = l.child s' := by
  cases l <;> cases s <;> cases s' <;> first | rfl | exact absurd rfl h

theorem follow_write_self {l m : Link ι} {path : List Side} (h : l.follow path = some m)
    (x : Link ι) : (write x l path).follow path = some x := by
  induction path generalizing l with
  | nil => cases l <;> rfl
  | cons s path ih =>
    obtain ⟨c, hc, hfol⟩ := bind_eq_some_iff.mp h
    rw [follow, child_write_self, hc]
    exact ih hfol

def Apart (path path' : List Side) : Prop := ¬path <+: path' ∧ ¬path' <+: path

theorem follow_write_of_apart {path path' : List Side} (h : Apart path path') :
    (write x l path).follow path' = l.follow path' := by
  induction path generalizing l path' with
  | nil => exact absurd List.nil_prefix h.1
  | cons s path ih =>
    cases path' with
    | nil => exact absurd List.nil_prefix h.2
    | cons s' path' =>
      by_cases hs : s' = s
      · subst hs
        have hres : Apart path path' := by simpa [Apart] using h
        rw [follow, follow, child_write_self]
        cases l.child s' with
        | none => rfl
        | some c => exact ih c hres
      · rw [follow, follow, child_write_of_ne x l hs]

theorem tree_follow {l m : Link ι} {t : LiveTree ι} {path : List Side} (htre : l.tree? = some t)
    (hfol : l.follow path = some m) :
    ∃ t', m.tree? = some t' ∧ t'.size + path.length ≤ t.size := by
  induction path generalizing l t with
  | nil =>
    cases hfol
    exact ⟨t, htre, Nat.le_refl _⟩
  | cons s path ih =>
    obtain ⟨c, hc, hres⟩ := bind_eq_some_iff.mp hfol
    cases l with
    | null => cases hc
    | freed => cases hc
    | node info l r =>
      obtain ⟨tl, hl, htre⟩ := bind_eq_some_iff.mp htre
      obtain ⟨tr, hr, rfl⟩ := map_eq_some_iff.mp htre
      have hchi : ∃ t₀, c.tree? = some t₀ ∧ t₀.size < (LiveTree.node info tl tr).size := by
        cases s with
        | left =>
          cases hc
          exact ⟨tl, hl, by simp only [LiveTree.size]; omega⟩
        | right =>
          cases hc
          exact ⟨tr, hr, by simp only [LiveTree.size]; omega⟩
      obtain ⟨t₀, ht₀, hlt⟩ := hchi
      obtain ⟨t', ht', hle⟩ := ih ht₀ hres
      exact ⟨t', ht', by rw [List.length_cons]; omega⟩

abbrev Store (X ι : Type*) := X → Link ι

structure Place (X : Type*) where
  root : X
  path : List Side
deriving DecidableEq, Repr

variable {X : Type*}

namespace Place

def Below (a b : Place X) : Prop := a.root = b.root ∧ ∃ s rest, b.path = a.path ++ s :: rest

def Apart (a b : Place X) : Prop := a.root = b.root → OwnedTree.Apart a.path b.path

theorem eq_or_below_or_apart (a b : Place X) : a = b ∨ a.Below b ∨ b.Below a ∨ a.Apart b := by
  obtain ⟨x, path⟩ := a
  obtain ⟨y, path'⟩ := b
  by_cases hroo : x = y
  · subst hroo
    by_cases hle : path <+: path'
    · obtain ⟨rest, rfl⟩ := hle
      cases rest with
      | nil => exact .inl (by simp)
      | cons s rest => exact .inr (.inl ⟨rfl, s, rest, rfl⟩)
    · by_cases hge : path' <+: path
      · obtain ⟨rest, rfl⟩ := hge
        cases rest with
        | nil => exact .inl (by simp)
        | cons s rest => exact .inr (.inr (.inl ⟨rfl, s, rest, rfl⟩))
      · exact .inr (.inr (.inr fun _ => ⟨hle, hge⟩))
  · exact .inr (.inr (.inr fun h => absurd h hroo))

variable {a b : Place X}

theorem Apart.ne (h : a.Apart b) : a ≠ b := by
  rintro rfl
  exact (h rfl).1 List.prefix_rfl

theorem Apart.not_below (h : a.Apart b) : ¬a.Below b ∧ ¬b.Below a := by
  refine ⟨fun ⟨hroo, s, rest, hpat⟩ => ?_, fun ⟨hroo, s, rest, hpat⟩ => ?_⟩
  · exact (h hroo).1 (hpat ▸ List.prefix_append ..)
  · exact (h hroo.symm).2 (hpat ▸ List.prefix_append ..)

theorem Below.ne (h : a.Below b) : a ≠ b := by
  rintro rfl
  obtain ⟨-, s, rest, hpat⟩ := h
  exact absurd hpat (by simp)

end Place

namespace Store

def follow (w : Store X ι) (a : Place X) : Option (Link ι) := (w a.root).follow a.path

variable [DecidableEq X]

def write (w : Store X ι) (a : Place X) (x : Link ι) : Store X ι :=
  Function.update w a.root (Link.write x (w a.root) a.path)

variable {a b : Place X} {w : Store X ι}

theorem follow_write_self {l : Link ι} (h : w.follow a = some l) (x : Link ι) :
    (w.write a x).follow a = some x := by
  rw [follow, write, Function.update_self]
  exact OwnedTree.follow_write_self h x

theorem follow_write_of_apart (w : Store X ι) (h : a.Apart b) (x : Link ι) :
    (w.write a x).follow b = w.follow b := by
  rw [follow, write, follow]
  by_cases hroo : b.root = a.root
  · rw [hroo, Function.update_self]
    exact OwnedTree.follow_write_of_apart x _ (h hroo.symm)
  · rw [Function.update_of_ne hroo]

omit [DecidableEq X] in
theorem follow_of_below {l : Link ι} (h : w.follow a = some l) {s : Side} {rest : List Side}
    (hroo : a.root = b.root) (hpat : b.path = a.path ++ s :: rest) :
    w.follow b = l.follow (s :: rest) := by
  rw [follow, hpat, ← hroo, OwnedTree.follow_append]
  change (w.follow a).bind _ = _
  rw [h, bind_some]

omit [DecidableEq X] in
theorem tree_ne_of_below (h : a.Below b) {l m : Link ι} (ha : w.follow a = some l)
    (hb : w.follow b = some m) {t : LiveTree ι} (hl : l.tree? = some t) : m.tree? ≠ some t := by
  obtain ⟨hroo, s, rest, hpat⟩ := h
  rw [follow_of_below ha hroo hpat] at hb
  obtain ⟨t', ht', hle⟩ := tree_follow hl hb
  intro hm
  obtain rfl := some.inj (ht'.symm.trans hm)
  rw [List.length_cons] at hle
  omega

end Store

end OwnedTree
