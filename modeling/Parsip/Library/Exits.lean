import Mathlib.Init

-- Postconditions for both exits of a computation that may fail.

universe u v

def Exits {ε : Type u} {α : Type v} (x : Except ε α) (ok : α → Prop) (error : ε → Prop) : Prop :=
  match x with
  | .ok a    => ok a
  | .error e => error e

namespace Exits

variable {ε : Type u} {α β : Type v} {x : Except ε α} {f : α → Except ε β} {P P' : α → Prop} {Q : β → Prop} {E : ε → Prop}

theorem mono (h : Exits x P E) (hp : ∀ {a}, P a → P' a) : Exits x P' E := by
  cases x
  case ok    => exact hp h
  case error => exact h

theorem bind (h : Exits x P E) (hf : ∀ {a}, P a → Exits (f a) Q E) : Exits (x >>= f) Q E := by
  cases x
  case ok    => exact hf h
  case error => exact h

theorem bind_congr {g : α → Except ε β} (h : Exits x P E) (hf : ∀ {a}, P a → f a = g a) :
    x >>= f = x >>= g := by
  cases x
  case ok    => exact hf h
  case error => rfl

-- A check that leaves with an error.
theorem guard {c : Prop} [Decidable c] {e : ε} (he : E e) (h : ¬c → Exits x P E) :
    Exits (if c then .error e else x) P E := by
  split
  case isTrue     => exact he
  case isFalse hc => exact h hc

theorem ne_error {e : ε} (h : Exits x P E) (he : ¬E e) : x ≠ .error e := by
  rintro rfl
  exact he h

theorem of_ok {a : α} (h : Exits x P E) (hx : x = .ok a) : P a := by
  subst hx
  exact h

end Exits
