import Mathlib.Data.List.Basic

-- Whole numbers in decimal notation, as the parsers for fixed-width integers read them: zeros in front and a
-- sign are fine, anything else around the digits is not.

namespace Decimal

def digits (s : List Char) : Option Nat :=
  if s ≠ [] ∧ s.all Char.isDigit then some <| Nat.ofDigitChars 10 s 0 else none

-- A number below `bound`.
def readNat (bound : Nat) (s : List Char) : Option Nat :=
  match s with
  | '+' :: s => (digits s).filter (· < bound)
  | s        => (digits s).filter (· < bound)

-- A number from `-bound` on and below `bound`.
def readInt (bound : Nat) (s : List Char) : Option Int :=
  match s with
  | '-' :: s => (digits s).filter (· ≤ bound) |>.map (-·)
  | s        => (readNat bound s).map (·)

variable {s : List Char} {n bound : Nat}

theorem digits_toDigits : digits (Nat.toDigits 10 n) = some n := by
  have hd : (Nat.toDigits 10 n).all Char.isDigit := List.all_eq_true.mpr fun c hc =>
    Nat.isDigit_of_mem_toDigits (by decide) (by decide) hc
  rw [digits, if_pos ⟨Nat.toDigits_ne_nil, hd⟩, Nat.ofDigitChars_ten_toDigits]

-- What has been written is read.
theorem readNat_toDigits (h : n < bound) : readNat bound (Nat.toDigits 10 n) = some n := by
  simp only [readNat]
  split
  case h_1 hs =>
    have := Nat.isDigit_of_mem_toDigits (b := 10) (n := n) (c := '+') (by decide) (by decide) (hs ▸ List.mem_cons_self ..)
    contradiction
  case h_2 => simp [digits_toDigits, h]

end Decimal
