import Mathlib.Data.Fintype.Order
import Mathlib.Data.Set.Basic
import Mathlib.Logic.Function.Basic
import Mathlib.Order.WellFounded

-- Threads `τ` that share locks `κ`: who holds what, and when waiting cannot become circular.

namespace Mutex

variable {τ κ ρ : Type*}

-- The holder of each lock is the thread that has a guard for it.
def Agrees (holder : κ → Option τ) (guards : τ → List κ) : Prop :=
  ∀ k t, holder k = some t ↔ k ∈ guards t

namespace Agrees

variable {holder : κ → Option τ} {guards : τ → List κ} {k : κ} {t t' : τ} {gs : List κ}

theorem exclusive (a : Agrees holder guards) (h : k ∈ guards t) (h' : k ∈ guards t') : t = t' :=
  Option.some.inj <| ((a k t).mpr h).symm.trans ((a k t').mpr h')

theorem not_held (a : Agrees holder guards) (h : holder k = none) (t : τ) : k ∉ guards t := by
  intro hm
  rw [(a k t).mpr hm] at h
  contradiction

variable [DecidableEq κ] [DecidableEq τ]

theorem acquire (a : Agrees holder guards) (h : holder k = none) :
    Agrees (Function.update holder k (some t)) (Function.update guards t (k :: guards t)) := by
  intro k' t'
  by_cases hk : k' = k
  case pos =>
    subst hk
    by_cases ht : t' = t
    case pos => simp [ht]
    case neg => simp [Function.update_of_ne ht, a.not_held h, Ne.symm ht]
  case neg =>
    by_cases ht : t' = t
    case pos => simp [ht, hk, a k']
    case neg => simp [Function.update_of_ne hk, Function.update_of_ne ht, a k']

theorem release (a : Agrees holder guards) (h : guards t = k :: gs) (hn : k ∉ gs) :
    Agrees (Function.update holder k none) (Function.update guards t gs) := by
  intro k' t'
  by_cases hk : k' = k
  case pos =>
    subst hk
    by_cases ht : t' = t
    case pos => simp [ht, hn]
    case neg =>
      have hn' : k' ∉ guards t' := fun hm => ht <| a.exclusive hm <| h ▸ List.mem_cons_self
      simp [Function.update_of_ne ht, hn']
  case neg =>
    by_cases ht : t' = t
    case pos => simp [ht, a k', h, hk]
    case neg => simp [Function.update_of_ne hk, Function.update_of_ne ht, a k']

end Agrees

-- A group of threads in which each waits for a lock that one of the group holds.
structure Deadlock (holder : κ → Option τ) (wants : τ → Option κ) (group : Set τ) : Prop where
  nonempty : group.Nonempty
  waiting : ∀ t ∈ group, ∃ k, wants t = some k ∧ ∃ t' ∈ group, holder k = some t'

-- Threads wait only for locks of a higher rank than those they hold.
theorem not_deadlock_of_rank [Preorder ρ] [WellFoundedGT ρ] (rank : κ → ρ)
    {holder : κ → Option τ} {wants : τ → Option κ}
    (h : ∀ {t k k'}, holder k = some t → wants t = some k' → rank k < rank k') (group : Set τ) :
    ¬Deadlock holder wants group := by
  intro d
  -- A waiting thread of the group leads to one that waits for a lock of a higher rank.
  have hn : ∀ r, ∀ t ∈ group, ∀ k, wants t = some k → rank k ≠ r := by
    intro r
    induction r using WellFoundedGT.induction
    case ind r hi =>
      rintro t ht k hk rfl
      have ⟨k₁, hk₁, t₁, ht₁, hh⟩ := d.waiting t ht
      cases hk.symm.trans hk₁
      have ⟨k₂, hk₂, _⟩ := d.waiting t₁ ht₁
      exact hi (rank k₂) (h hh hk₂) t₁ ht₁ k₂ hk₂ rfl
  have ⟨t, ht⟩ := d.nonempty
  have ⟨k, hk, _⟩ := d.waiting t ht
  exact hn _ t ht k hk rfl

end Mutex
