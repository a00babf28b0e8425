import Mathlib.Algebra.Group.Nat.Defs
import Parsip.Library.Table

-- Names that are a prefix and a number, given out from a counter, with a table for each direction.

structure Naming (κ : Type*) [DecidableEq κ] where
  byName : Table String κ
  names : Table κ String
  next : UInt32

namespace Naming

variable {κ : Type*} [DecidableEq κ] {n : Naming κ} {k k' : κ} {pre name : String}

def nextName (n : Naming κ) (pre : String) : String :=
  pre ++ toString n.next.toNat

-- The name of `k`, which is a new one if it has none.
def add (n : Naming κ) (pre : String) (k : κ) : String × Naming κ :=
  match n.names.lookup k with
  | some name => (name, n)
  | none      => (n.nextName pre, {
      byName := n.byName.insert (n.nextName pre) k
      names  := n.names.insert k (n.nextName pre)
      next   := n.next + 1 })

-- After one more name the counter is still ahead of all numbers in use.
def Spare (n : Naming κ) : Prop :=
  n.names.size < 2 ^ 32 - 1

instance : Decidable n.Spare :=
  inferInstanceAs (Decidable (_ < _))

structure Sound (pre : String) (n : Naming κ) : Prop where
  next : n.next.toNat = n.names.size + 1
  inverse : ∀ {k name}, n.names.lookup k = some name ↔ n.byName.lookup name = some k
  numbered : ∀ {k name}, n.byName.lookup name = some k → ∃ i < n.next.toNat, name = pre ++ toString i

theorem toString_injective {i j : Nat} (h : toString i = toString j) : i = j := by
  have h : i.repr = j.repr := h
  have hi : Nat.ofDigitChars 10 i.repr.toList 0 = i := by rw [Nat.toList_repr, Nat.ofDigitChars_ten_toDigits]
  have hj : Nat.ofDigitChars 10 j.repr.toList 0 = j := by rw [Nat.toList_repr, Nat.ofDigitChars_ten_toDigits]
  rw [← hi, h, hj]

theorem add_of_none (h : n.names.lookup k = none) : n.add pre k = (n.nextName pre, {
    byName := n.byName.insert (n.nextName pre) k
    names  := n.names.insert k (n.nextName pre)
    next   := n.next + 1 }) := by
  simp only [add, h]

theorem add_of_some (h : n.names.lookup k = some name) : n.add pre k = (name, n) := by
  simp only [add, h]

theorem add_size : (n.add pre k).snd.names.size = if n.names.lookup k = none then n.names.size + 1 else n.names.size := by
  cases h : n.names.lookup k
  case some => simp [add_of_some h]
  case none => simp [add_of_none h, Table.size_insert h]

theorem add_self : (n.add pre k).snd.names.lookup k = some (n.add pre k).fst := by
  cases h : n.names.lookup k
  case some => rw [add_of_some h, h]
  case none => rw [add_of_none h, Table.lookup_insert, if_pos rfl]

-- Names are kept, whether or not there are numbers left.
theorem add_names (h : n.names.lookup k' = some name) : (n.add pre k).snd.names.lookup k' = some name := by
  cases hk : n.names.lookup k
  case some => rwa [add_of_some hk]
  case none =>
    have hne : k' ≠ k := by
      rintro rfl
      rw [hk] at h
      contradiction
    rw [add_of_none hk, Table.lookup_insert, if_neg hne, h]

theorem Spare.of_add (h : (n.add pre k).snd.Spare) : n.Spare := by
  rw [Spare, add_size] at h
  rw [Spare]
  split at h <;> omega

namespace Sound

theorem empty : Sound pre (⟨∅, ∅, 1⟩ : Naming κ) where
  next := rfl
  inverse := by simp
  numbered h := by simp at h

-- The next name is not taken.
theorem nextName_free (s : n.Sound pre) : n.byName.lookup (n.nextName pre) = none := by
  rw [Option.eq_none_iff_forall_ne_some]
  intro k h
  have ⟨i, hi, he⟩ := s.numbered h
  have he : toString n.next.toNat = toString i := String.append_right_inj pre |>.mp he
  have he := toString_injective he
  omega

theorem add (s : n.Sound pre) (h : (n.add pre k).snd.Spare) : (n.add pre k).snd.Sound pre := by
  cases hk : n.names.lookup k
  case some => rwa [add_of_some hk]
  case none =>
    have hs : n.names.size + 1 < 2 ^ 32 - 1 := by rwa [Spare, add_size, if_pos hk] at h
    have hn : (n.next + 1).toNat = n.next.toNat + 1 := by
      rw [UInt32.toNat_add, s.next]
      exact Nat.mod_eq_of_lt (by simp; omega)
    rw [add_of_none hk]
    constructor
    case next => rw [hn, s.next, Table.size_insert hk]
    case inverse =>
      intro k' name
      have hf := s.nextName_free
      rw [Table.lookup_insert, Table.lookup_insert]
      by_cases h₁ : k' = k <;> by_cases h₂ : name = n.nextName pre
      case pos => simp [h₁, h₂]
      case neg =>
        have : n.byName.lookup name ≠ some k := fun h => by simp [s.inverse.mpr h] at hk
        simp [h₁, h₂, this, Ne.symm h₂]
      case pos =>
        have : n.names.lookup k' ≠ some (n.nextName pre) := fun h => by simp [s.inverse.mp h] at hf
        simp [h₁, h₂, this, Ne.symm h₁]
      case neg => simp [h₁, h₂, s.inverse]
    case numbered =>
      intro k' name h
      rw [hn]
      rw [Table.lookup_insert] at h
      split at h
      case isTrue he => exact ⟨n.next.toNat, Nat.lt_succ_self _, he⟩
      case isFalse =>
        have ⟨i, hi, he⟩ := s.numbered h
        exact ⟨i, Nat.lt_succ_of_lt hi, he⟩

theorem injective (s : n.Sound pre) (h : n.names.lookup k = some name) (h' : n.names.lookup k' = some name) : k = k' :=
  Option.some.inj <| (s.inverse.mp h).symm.trans (s.inverse.mp h')

-- Looking through all names finds what the other table has.
theorem find_name (s : n.Sound pre) {entries : List (String × κ)} (h : entries.Perm n.byName.toList) :
    (entries.find? (·.snd = k)).map Prod.fst = n.names.lookup k := by
  have hm {name k} : (name, k) ∈ entries ↔ n.names.lookup k = some name := by
    rw [h.mem_iff, Table.mem_toList, s.inverse]
  cases hf : entries.find? (·.snd = k)
  case some entry =>
    obtain ⟨name, k'⟩ := entry
    have he := List.find?_some hf
    have he : k' = k := of_decide_eq_true he
    subst he
    exact (hm.mp <| List.mem_of_find?_eq_some hf).symm
  case none =>
    cases hk : n.names.lookup k
    case none => rfl
    case some => exact absurd (decide_eq_true rfl) <| List.find?_eq_none.mp hf _ (hm.mpr hk)

end Sound
end Naming
