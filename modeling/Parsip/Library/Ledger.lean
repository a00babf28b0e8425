import Mathlib.Logic.ExistsUnique
import Mathlib.Logic.Function.Basic

-- Jobs, the tickets that they run under, and the tickets that somebody waits for, in three tables. What
-- each operation on one or several of them does to their agreement.

@[ext]
structure Ledger (ρ ι : Type*) where
  active : ι → Prop
  job : ρ → Option ι
  awaited : ρ → Prop

namespace Ledger

variable {ρ ι : Type*} {l : Ledger ρ ι} {r : ρ} {i : ι} {p : ρ → Bool}

structure Balanced (l : Ledger ρ ι) : Prop where
  ticket  : ∀ {i}, l.active i → ∃! r, l.job r = some i
  active  : ∀ {r i}, l.job r = some i → l.active i
  awaited : ∀ {r i}, l.job r = some i → l.awaited r

def await (l : Ledger ρ ι) (r : ρ) : Ledger ρ ι :=
  { l with awaited r' := r' = r ∨ l.awaited r' }

def settle (l : Ledger ρ ι) (r : ρ) : Ledger ρ ι :=
  { l with awaited r' := r' ≠ r ∧ l.awaited r' }

-- A job goes, and its ticket stays.
def drop (l : Ledger ρ ι) (i : ι) : Ledger ρ ι :=
  { l with active i' := i' ≠ i ∧ l.active i' }

-- A job goes, and so does a ticket that may be for another one.
def finish [DecidableEq ρ] (l : Ledger ρ ι) (r : ρ) (i : ι) : Ledger ρ ι where
  active i'  := i' ≠ i ∧ l.active i'
  job r'     := if r' = r then none else l.job r'
  awaited r' := (r' = r → l.job r = none) ∧ l.awaited r'

def start [DecidableEq ρ] (l : Ledger ρ ι) (r : ρ) (i : ι) : Ledger ρ ι where
  active i'  := i' = i ∨ l.active i'
  job r'     := if r' = r then some i else l.job r'
  awaited r' := r' = r ∨ l.awaited r'

-- Some tickets go, and their jobs with them.
def withdraw (l : Ledger ρ ι) (p : ρ → Bool) : Ledger ρ ι where
  active i  := (∀ r, p r → l.job r ≠ some i) ∧ l.active i
  job r     := if p r then none else l.job r
  awaited r := ¬p r ∧ l.awaited r

namespace Balanced

-- Nobody else has the ticket of a job.
theorem eq (b : l.Balanced) {r' : ρ} (h : l.job r = some i) (h' : l.job r' = some i) : r = r' :=
  (b.ticket <| b.active h).unique h h'

theorem await (b : l.Balanced) : (l.await r).Balanced where
  ticket    := b.ticket
  active    := b.active
  awaited h := .inr <| b.awaited h

theorem settle_iff (b : l.Balanced) : (l.settle r).Balanced ↔ l.job r = none := by
  constructor
  case mp =>
    intro b'
    refine Option.eq_none_iff_forall_ne_some.mpr fun i h => ?_
    exact (b'.awaited h).left rfl
  case mpr =>
    intro hn
    refine ⟨b.ticket, b.active, fun {r' i} h => ⟨fun he => ?_, b.awaited h⟩⟩
    rw [Ledger.settle, he, hn] at h
    contradiction

theorem not_drop (b : l.Balanced) (h : l.active i) : ¬(l.drop i).Balanced := by
  intro b'
  have ⟨r, hr, _⟩ := b.ticket h
  exact (b'.active hr).left rfl

theorem drop (b : l.Balanced) (h : ¬l.active i) : (l.drop i).Balanced where
  ticket h    := b.ticket h.right
  active hr   := ⟨fun he => h <| he ▸ b.active hr, b.active hr⟩
  awaited     := b.awaited

theorem withdraw (b : l.Balanced) : (l.withdraw p).Balanced := by
  constructor
  case ticket =>
    intro i ⟨hp, ha⟩
    have ⟨r, hr, hu⟩ := b.ticket ha
    refine ⟨r, ?_, fun r' h => hu r' (Option.ite_none_left_eq_some.mp h).right⟩
    exact Option.ite_none_left_eq_some.mpr ⟨fun h => hp r h hr, hr⟩
  case active =>
    intro r i h
    have ⟨hp, h⟩ := Option.ite_none_left_eq_some.mp h
    exact ⟨fun r' h' he => hp (b.eq h he ▸ h'), b.active h⟩
  case awaited =>
    intro r i h
    have ⟨hp, h⟩ := Option.ite_none_left_eq_some.mp h
    exact ⟨hp, b.awaited h⟩

variable [DecidableEq ρ]

theorem finish_iff (b : l.Balanced) (h : l.active i) : (l.finish r i).Balanced ↔ l.job r = some i := by
  have ⟨r', hr, hu⟩ := b.ticket h
  constructor
  case mp =>
    intro b'
    by_contra hn
    have hne : r' ≠ r := fun he => hn (he ▸ hr)
    exact (b'.active <| Option.ite_none_left_eq_some.mpr ⟨hne, hr⟩).left rfl
  case mpr =>
    intro hr
    constructor
    case ticket =>
      intro i' ⟨hi, ha⟩
      have ⟨r', hr', hu⟩ := b.ticket ha
      refine ⟨r', ?_, fun r'' h => hu r'' (Option.ite_none_left_eq_some.mp h).right⟩
      refine Option.ite_none_left_eq_some.mpr ⟨fun he => hi ?_, hr'⟩
      exact Option.some.inj <| (he ▸ hr').symm.trans hr
    case active =>
      intro r' i' h
      have ⟨hn, h⟩ := Option.ite_none_left_eq_some.mp h
      exact ⟨fun he => hn <| b.eq (he ▸ h) hr, b.active h⟩
    case awaited =>
      intro r' i' h
      have ⟨hn, h⟩ := Option.ite_none_left_eq_some.mp h
      exact ⟨fun he => absurd he hn, b.awaited h⟩

theorem start_iff (b : l.Balanced) (h : ¬l.active i) : (l.start r i).Balanced ↔ l.job r = none := by
  have cases {r' i'} (h : (l.start r i).job r' = some i') : r' = r ∧ i' = i ∨ r' ≠ r ∧ l.job r' = some i' := by
    simp only [Ledger.start] at h
    split at h
    case isTrue hr  => exact .inl ⟨hr, (Option.some.inj h).symm⟩
    case isFalse hr => exact .inr ⟨hr, h⟩
  constructor
  case mp =>
    intro b'
    refine Option.eq_none_iff_forall_ne_some.mpr fun i' hr => ?_
    have ⟨r', hr', _⟩ := b'.ticket (.inr <| b.active hr)
    obtain ⟨_, rfl⟩ | ⟨hne, hr'⟩ := cases hr'
    case inl => exact h <| b.active hr
    case inr => exact hne <| b.eq hr' hr
  case mpr =>
    intro hn
    constructor
    case ticket =>
      rintro i' (rfl | ha)
      case inl =>
        refine ⟨r, if_pos rfl, fun r' hr => ?_⟩
        obtain ⟨he, _⟩ | ⟨_, hr⟩ := cases hr
        case inl => exact he
        case inr => exact absurd (b.active hr) h
      case inr =>
        have ⟨r', hr, hu⟩ := b.ticket ha
        have hne : r' ≠ r := fun he => by rw [he, hn] at hr; contradiction
        refine ⟨r', (if_neg hne).trans hr, fun r'' h' => ?_⟩
        obtain ⟨_, rfl⟩ | ⟨_, h'⟩ := cases h'
        case inl => exact absurd ha h
        case inr => exact hu r'' h'
    case active =>
      intro r' i' h'
      exact (cases h').imp And.right fun h' => b.active h'.right
    case awaited =>
      intro r' i' h'
      exact (cases h').imp And.left fun h' => b.awaited h'.right

end Balanced
end Ledger
