import Mathlib.Data.List.Basic

-- A one-way stream between two parties. What one party writes is accepted in pieces, delivered in
-- pieces and read in pieces, and no piece need end where another one did.

inductive Side
  | a
  | b
deriving DecidableEq

namespace Side

variable {side side' : Side}

def other : Side → Side
  | a => b
  | b => a

@[simp]
theorem other_other : side.other.other = side := by
  cases side <;> rfl

theorem other_ne : side.other ≠ side := by
  cases side <;> nofun

theorem eq_or_eq_other (side side' : Side) : side' = side ∨ side' = side.other := by
  cases side <;> cases side' <;> simp [other]

end Side

@[ext]
structure Pipe (β : Type*) where
  unsent : List β
  flight : List β
  arrived : List β
  taken : List β

namespace Pipe

variable {α β : Type*}

def empty : Pipe β where
  unsent := []
  flight := []
  arrived := []
  taken := []

-- Everything between the two parties, in the order in which it will be consumed.
def content (p : Pipe β) : List β :=
  p.taken ++ p.arrived ++ p.flight ++ p.unsent

inductive Move
  | write (n : Nat)
  | deliver (n : Nat)
  | read (n : Nat)

-- Each move takes at least one element.
def move (p : Pipe β) : Move → Option (Pipe β)
  | .write n =>
    if 0 < n ∧ n ≤ p.unsent.length then
      some { p with flight := p.flight ++ p.unsent.take n, unsent := p.unsent.drop n }
    else none
  | .deliver n =>
    if 0 < n ∧ n ≤ p.flight.length then
      some { p with arrived := p.arrived ++ p.flight.take n, flight := p.flight.drop n }
    else none
  | .read n =>
    if 0 < n ∧ n ≤ p.arrived.length then
      some { p with taken := p.taken ++ p.arrived.take n, arrived := p.arrived.drop n }
    else none

-- The number of moves that are left at most.
def weight (p : Pipe β) : Nat :=
  3 * p.unsent.length + 2 * p.flight.length + p.arrived.length

variable {p q : Pipe β} {m : Move} {n : Nat} {encode : α → List β} {a : α} {as : List α} {rest : List β}

theorem move_content (h : p.move m = some q) : q.content = p.content := by
  cases m <;> simp only [move, Option.ite_none_right_eq_some, Option.some.injEq] at h
  all_goals
    have ⟨_, h⟩ := h
    subst h
    simp [content]

theorem move_weight (h : p.move m = some q) : q.weight < p.weight := by
  cases m <;> simp only [move, Option.ite_none_right_eq_some, Option.some.injEq] at h
  all_goals
    have ⟨_, h⟩ := h
    subst h
    simp only [weight, List.length_append, List.length_take, List.length_drop]
    omega

theorem move_write_exists (h : p.unsent ≠ []) : ∃ n q, p.move (.write n) = some q := by
  have := List.length_pos_iff.mpr h
  exact ⟨1, _, if_pos ⟨by omega, by omega⟩⟩

theorem move_deliver_exists (h : p.flight ≠ []) : ∃ n q, p.move (.deliver n) = some q := by
  have := List.length_pos_iff.mpr h
  exact ⟨1, _, if_pos ⟨by omega, by omega⟩⟩

theorem taken_isPrefix : p.taken <+: p.content :=
  ⟨p.arrived ++ p.flight ++ p.unsent, by simp [content]⟩

theorem taken_of_move (h : p.move (.read n) = some q) :
    n ≤ p.arrived.length ∧ q.taken = p.taken ++ p.arrived.take n := by
  simp only [move, Option.ite_none_right_eq_some, Option.some.injEq] at h
  exact ⟨h.left.right, h.right ▸ rfl⟩

-- The pipe holds exactly the encodings of the items `as`.
def Carries (encode : α → List β) (p : Pipe β) (as : List α) : Prop :=
  p.content = as.flatMap encode

namespace Carries

theorem empty : Carries encode (.empty : Pipe β) [] :=
  rfl

theorem move (c : p.Carries encode as) (h : p.move m = some q) : q.Carries encode as :=
  (move_content h).trans c

-- The sender starts on a further item.
theorem load (c : p.Carries encode as) (h : p.unsent = []) :
    Carries encode { p with unsent := encode a } (as ++ [a]) := by
  simp only [Carries, content, h, List.append_nil] at c
  simp [Carries, content, ← c]

-- The receiver consumes the first item.
theorem consume (c : p.Carries encode (a :: as)) (h : p.taken = encode a ++ rest) :
    Carries encode { p with taken := rest } as := by
  simp only [Carries, content, h, List.flatMap_cons, List.append_assoc] at c
  simpa [Carries, content] using List.append_cancel_left c

end Carries
end Pipe
