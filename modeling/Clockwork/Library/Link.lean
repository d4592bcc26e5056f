import Mathlib.Data.List.Infix

namespace Link

open List

variable {P M : Type*}

/-- The next packet of a link that loses nothing and keeps the order, given everything
sent and everything received so far. -/
def next (sent received : List P) : Option P := sent[received.length]?

variable {sent received : List P}

theorem prefix_of_next {p : P} (h : received <+: sent)
    (hp : next sent received = some p) : received ++ [p] <+: sent := by
  obtain ⟨rest, rfl⟩ := h
  rw [next, getElem?_append_right (Nat.le_refl _)] at hp
  cases rest with
  | nil => cases hp
  | cons q rest =>
    obtain rfl : q = p := by simpa using hp
    exact ⟨rest, by simp⟩

def Completes (message : P → Option M) (mark : P) (ms : List M) (ps : List P) : Prop :=
  ∃ n < ps.length, ps[n]? = some mark ∧ (ps.take n).filterMap message = ms

instance [DecidableEq P] [DecidableEq M] (message : P → Option M) (mark : P) (ms : List M)
    (ps : List P) : Decidable (Completes message mark ms ps) :=
  inferInstanceAs (Decidable (∃ n < ps.length, _ ∧ _))

def Closes (message : P → Option M) (mark : P) (ps : List P) : Prop :=
  ∀ before after, ps = before ++ mark :: after → after.filterMap message = []

variable {message : P → Option M} {mark : P}

theorem closes_of_not_mem {ps : List P} (h : mark ∉ ps) : Closes message mark ps := by
  intro before after heq
  exact absurd (heq ▸ mem_append_right before mem_cons_self) h

theorem Closes.concat {ps : List P} {p : P} (h : Closes message mark ps)
    (hp : mark ∈ ps → message p = none) : Closes message mark (ps ++ [p]) := by
  intro before after heq
  rcases eq_nil_or_concat after with rfl | ⟨after, q, rfl⟩
  · rfl
  · have heq' : ps ++ [p] = (before ++ mark :: after) ++ [q] := by simpa using heq
    obtain ⟨rfl, hq⟩ := append_inj' heq' rfl
    obtain rfl : p = q := by simpa using hq
    have hmem : mark ∈ before ++ mark :: after := by simp
    simp [h before after rfl, hp hmem]

/-- What is received of a closed history, a mark included, has all the messages before it. -/
theorem Closes.completes (h : Closes message mark sent)
    (hmes : message mark = none) (hsen : received <+: sent) (hmar : mark ∈ received) :
    Completes message mark (sent.filterMap message) received := by
  obtain ⟨rest, rfl⟩ := hsen
  obtain ⟨before, after, rfl⟩ := append_of_mem hmar
  have haft : (after ++ rest).filterMap message = [] := h before (after ++ rest) (by simp)
  refine ⟨before.length, by simp, by simp, ?_⟩
  calc ((before ++ mark :: after).take before.length).filterMap message
      = before.filterMap message := by rw [take_left]
    _ = (before ++ mark :: (after ++ rest)).filterMap message := by
        rw [filterMap_append, filterMap_cons_none hmes, haft, append_nil]
    _ = ((before ++ mark :: after) ++ rest).filterMap message := by simp

end Link
