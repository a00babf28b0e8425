import Mathlib.Data.List.Basic

-- One-way channels between two parties, whatever goes on inside, and what makes one as good as a
-- first-in first-out queue.

structure Channel (α κ : Type) where
  State : Type
  empty : State
  send : State → α → State
  -- A move inside the channel, and what it delivers.
  move : State → κ → Option (State × Option α)

namespace Channel

variable {α κ : Type}

abbrev queue : Channel α Unit where
  State := List α
  empty := []
  send s a := s ++ [a]
  move
    | [], _     => none
    | a :: s, _ => some (s, some a)

-- What is underway leaves in the order in which it has come.
structure Fifo (c : Channel α κ) (Carries : c.State → List α → Prop) : Prop where
  empty : Carries c.empty []
  send  : ∀ {s as a}, Carries s as → Carries (c.send s a) (as ++ [a])
  move  : ∀ {s as k s' a}, Carries s as → c.move s k = some (s', a) →
    ∃ as', as = a.toList ++ as' ∧ Carries s' as'

end Channel
