import Mathlib.Algebra.Group.Nat.Defs
import Mathlib.Data.List.Induction

-- Fixed-width big-endian numbers.

namespace BigEndian

-- The `w` low bytes of `n`, most significant first.
def toBytes : Nat → Nat → List UInt8
  | 0, _     => []
  | w + 1, n => toBytes w (n / 256) ++ [UInt8.ofNat n]

def ofBytes (bs : List UInt8) : Nat :=
  bs.foldl (fun n b => n * 256 + b.toNat) 0

variable {w n : Nat} {b : UInt8} {bs : List UInt8}

@[simp]
theorem length_toBytes : (toBytes w n).length = w := by
  induction w generalizing n <;> simp [toBytes, *]

@[simp]
theorem ofBytes_nil : ofBytes [] = 0 :=
  rfl

theorem ofBytes_concat : ofBytes (bs ++ [b]) = ofBytes bs * 256 + b.toNat := by
  simp [ofBytes]

theorem ofBytes_lt : ofBytes bs < 256 ^ bs.length := by
  induction bs using List.reverseRecOn
  case nil => simp
  case append_singleton bs b hi =>
    have := b.toNat_lt
    rw [ofBytes_concat, List.length_append, List.length_singleton, Nat.pow_succ]
    omega

theorem ofBytes_toBytes_mod : ofBytes (toBytes w n) = n % 256 ^ w := by
  induction w generalizing n
  case zero => simp [toBytes, Nat.mod_one]
  case succ w hi =>
    rw [toBytes, ofBytes_concat, hi, UInt8.toNat_ofNat', Nat.pow_succ 256, Nat.mul_comm (256 ^ w),
      Nat.mod_mul]
    omega

theorem ofBytes_toBytes (h : n < 256 ^ w) : ofBytes (toBytes w n) = n := by
  rw [ofBytes_toBytes_mod, Nat.mod_eq_of_lt h]

theorem toBytes_ofBytes : toBytes bs.length (ofBytes bs) = bs := by
  induction bs using List.reverseRecOn
  case nil => rfl
  case append_singleton bs b hi =>
    have hb := b.toNat_lt
    have hd : (ofBytes bs * 256 + b.toNat) / 256 = ofBytes bs := by omega
    have hm : UInt8.ofNat (ofBytes bs * 256 + b.toNat) = b := by
      apply UInt8.toNat_inj.mp
      rw [UInt8.toNat_ofNat']
      omega
    rw [ofBytes_concat, List.length_append, List.length_singleton, toBytes, hd, hm, hi]

end BigEndian
