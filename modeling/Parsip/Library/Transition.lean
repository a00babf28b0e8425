import Mathlib.Data.List.Basic
import Mathlib.Data.List.Induction

-- Labelled transition systems: runs, reachable states and the induction principles for both.
-- Nothing here is about a particular program.

namespace Transition

structure System (σ : Type*) (ℓ : Type*) where
  init : σ → Prop
  step : σ → ℓ → σ → Prop

variable {σ ℓ : Type*}

inductive Run (sys : System σ ℓ) : σ → List ℓ → σ → Prop
  | refl : Run sys s [] s
  | step : sys.step s₁ l s₂ → Run sys s₂ ls s₃ → Run sys s₁ (l :: ls) s₃

inductive Reachable (sys : System σ ℓ) : σ → Prop
  | init : sys.init s → Reachable sys s
  | step : Reachable sys s₁ → sys.step s₁ l s₂ → Reachable sys s₂

-- A state in which no step is left.
def System.Stuck (sys : System σ ℓ) (s : σ) : Prop :=
  ∀ l s', ¬sys.step s l s'

-- The system whose steps all meet a condition on the state before the step and the label.
def System.restrict (sys : System σ ℓ) (c : σ → ℓ → Prop) : System σ ℓ where
  init := sys.init
  step s₁ l s₂ := sys.step s₁ l s₂ ∧ c s₁ l

-- A system whose steps are computed: `none` marks a label that is not enabled.
def System.ofFn (init : σ → Prop) (step : σ → ℓ → Option σ) : System σ ℓ where
  init := init
  step s₁ l s₂ := step s₁ l = some s₂

-- Every step of the runs between two states meets a condition.
def System.Throughout (sys : System σ ℓ) (s₁ : σ) (ls : List ℓ) (s₂ : σ) (P : σ → ℓ → σ → Prop) :
    Prop :=
  ∀ {ls₁ l ls₂ s s'}, ls = ls₁ ++ l :: ls₂ → Run sys s₁ ls₁ s → sys.step s l s' →
    Run sys s' ls₂ s₂ → P s l s'

-- At some moment of a run.
def System.Sometime (sys : System σ ℓ) (s₁ : σ) (ls : List ℓ) (P : σ → Prop) : Prop :=
  ∃ ls₁ ls₂ s, ls = ls₁ ++ ls₂ ∧ Run sys s₁ ls₁ s ∧ P s

variable {sys : System σ ℓ} {s s₁ s₂ s₃ : σ} {l : ℓ} {ls ls₁ ls₂ : List ℓ}

theorem System.Sometime.later {P : σ → Prop} (h : sys.Sometime s₁ ls P) : sys.Sometime s₁ (ls ++ ls₂) P := by
  obtain ⟨ls₁, _, s, rfl, r, hs⟩ := h
  exact ⟨ls₁, _, s, List.append_assoc .., r, hs⟩

structure Invariant (sys : System σ ℓ) (P : σ → Prop) : Prop where
  init : ∀ {s}, sys.init s → P s
  step : ∀ {s₁ l s₂}, P s₁ → sys.step s₁ l s₂ → P s₂

theorem Invariant.reachable {P : σ → Prop} (i : Invariant sys P) (r : Reachable sys s) : P s := by
  induction r
  case init h      => exact i.init h
  case step h hi   => exact i.step hi h

-- An invariant may use what is already known of all reachable states.
theorem Invariant.relative {P Q : σ → Prop} (q : ∀ {s}, Reachable sys s → Q s)
    (hi : ∀ {s}, sys.init s → P s)
    (hs : ∀ {s₁ l s₂}, Q s₁ → P s₁ → sys.step s₁ l s₂ → P s₂) (r : Reachable sys s) : P s := by
  induction r
  case init h         => exact hi h
  case step hr h hi   => exact hs (q hr) hi h

namespace Run

theorem single (h : sys.step s₁ l s₂) : Run sys s₁ [l] s₂ :=
  .step h .refl

theorem append (r₁ : Run sys s₁ ls₁ s₂) (r₂ : Run sys s₂ ls₂ s₃) : Run sys s₁ (ls₁ ++ ls₂) s₃ := by
  induction r₁
  case refl        => exact r₂
  case step h _ hi => exact .step h (hi r₂)

theorem snoc (r : Run sys s₁ ls s₂) (h : sys.step s₂ l s₃) : Run sys s₁ (ls ++ [l]) s₃ :=
  r.append (.single h)

theorem sometime {P : σ → Prop} (r : Run sys s₁ ls s) (h : P s) : sys.Sometime s₁ (ls ++ ls₂) P :=
  ⟨ls, ls₂, s, rfl, r, h⟩

theorem split (r : Run sys s₁ (ls₁ ++ ls₂) s₃) : ∃ s₂, Run sys s₁ ls₁ s₂ ∧ Run sys s₂ ls₂ s₃ := by
  induction ls₁ generalizing s₁
  case nil => exact ⟨s₁, .refl, r⟩
  case cons hi =>
    cases r
    case step h r =>
      have ⟨s₂, r₁, r₂⟩ := hi r
      exact ⟨s₂, .step h r₁, r₂⟩

theorem reachable (h : Reachable sys s₁) (r : Run sys s₁ ls s₂) : Reachable sys s₂ := by
  induction r
  case refl        => exact h
  case step e _ hi => exact hi (.step h e)

-- What every step of a run preserves, the run preserves. The step lemma may use that its label
-- occurs in the run.
theorem preserves {P : σ → Prop} (r : Run sys s₁ ls s₂)
    (hs : ∀ {s l s'}, l ∈ ls → P s → sys.step s l s' → P s') (h : P s₁) : P s₂ := by
  induction r
  case refl => exact h
  case step e _ hi =>
    exact hi (fun hm => hs <| List.mem_cons_of_mem _ hm) (hs (List.mem_cons_self ..) h e)

-- Induction over a run from its last step, with the run so far at hand.
theorem history {P : List ℓ → σ → Prop} (r : Run sys s₁ ls s₂) (h : P [] s₁)
    (hs : ∀ {ls s l s'}, Run sys s₁ ls s → P ls s → sys.step s l s' → P (ls ++ [l]) s') :
    P ls s₂ := by
  induction ls using List.reverseRecOn generalizing s₂
  case nil =>
    cases r
    exact h
  case append_singleton ls l hi =>
    have ⟨s, r, r'⟩ := r.split
    cases r'
    case step e r' =>
      cases r'
      exact hs r (hi r) e

-- A run whose steps are computed.
theorem computed {f : σ → ℓ → Option σ} (hf : ∀ {s l s'}, f s l = some s' → sys.step s l s')
    (h : ls.foldlM f s₁ = some s₂) : Run sys s₁ ls s₂ := by
  induction ls generalizing s₁
  case nil => cases h; exact .refl
  case cons l ls hi =>
    have ⟨s, hs, h⟩ := Option.bind_eq_some_iff.mp h
    exact .step (hf hs) (hi h)

theorem ofFn {i : σ → Prop} {step : σ → ℓ → Option σ} (h : ls.foldlM step s₁ = some s₂) :
    Run (.ofFn i step) s₁ ls s₂ :=
  .computed id h

-- The same with steps that all meet a condition.
theorem ofFn_restrict {i : σ → Prop} {step : σ → ℓ → Option σ} {c : σ → ℓ → Prop} [∀ s l, Decidable (c s l)]
    (h : ls.foldlM (fun s l => if c s l then step s l else none) s₁ = some s₂) :
    Run ((System.ofFn i step).restrict c) s₁ ls s₂ :=
  .computed (fun hs => (Option.ite_none_right_eq_some.mp hs).symm) h

-- Conditions that come to the same in every step of a run come to the same throughout it.
theorem throughout_iff {P Q : σ → ℓ → σ → Prop}
    (hs : ∀ {ls s l s'}, Run sys s₁ ls s → sys.step s l s' → (P s l s' ↔ Q s l s')) :
    sys.Throughout s₁ ls s₂ P ↔ sys.Throughout s₁ ls s₂ Q := by
  constructor
  case mp =>
    intro h ls₁ l ls₂ s s' hl r e r'
    exact (hs r e).mp <| h hl r e r'
  case mpr =>
    intro h ls₁ l ls₂ s s' hl r e r'
    exact (hs r e).mpr <| h hl r e r'

-- What holds at first and after every step of a run, holds before every step.
theorem holds_before {P : σ → Prop} {c : σ → ℓ → σ → Prop} (h : P s₁) (hc : sys.Throughout s₁ ls s₂ c)
    (hs : ∀ {s l s'}, P s → sys.step s l s' → c s l s' → P s') (he : ls = ls₁ ++ ls₂) (r : Run sys s₁ ls₁ s)
    (r' : Run sys s ls₂ s₂) : P s := by
  have hr := r.history (P := fun ls₁ s => ∀ ls₂, ls = ls₁ ++ ls₂ → Run sys s ls₂ s₂ → P s) (fun _ _ _ => h)
    fun {ls₁ s l s'} r hi e ls₂ he r' => by
      have he : ls = ls₁ ++ l :: ls₂ := by rw [he, List.append_assoc]; rfl
      exact hs (hi _ he (.step e r')) e <| hc he r e r'
  exact hr ls₂ he r'

-- What holds at first, and is kept by a step exactly when that meets a condition, is kept by all steps of a run
-- exactly when they all meet it.
theorem throughout_kept_iff {P : σ → Prop} {c : σ → ℓ → Prop} (h : P s₁)
    (hs : ∀ {s l s'}, P s → sys.step s l s' → (P s' ↔ c s l)) :
    sys.Throughout s₁ ls s₂ (fun _ _ s' => P s') ↔ sys.Throughout s₁ ls s₂ (fun s l _ => c s l) := by
  constructor
  case mp =>
    intro hp ls₁ l ls₂ s s' hl r e r'
    exact (hs (holds_before h hp (fun _ _ hc => hc) hl r (.step e r')) e).mp <| hp hl r e r'
  case mpr =>
    intro hc ls₁ l ls₂ s s' hl r e r'
    exact (hs (holds_before h hc (fun hp e hc => (hs hp e).mpr hc) hl r (.step e r')) e).mpr <| hc hl r e r'

-- A measure that every step decreases bounds the length of a run.
theorem length_le {P : σ → Prop} {weight : σ → Nat} (r : Run sys s₁ ls s₂)
    (hs : ∀ {s l s'}, P s → sys.step s l s' → P s' ∧ weight s' < weight s) (h : P s₁) :
    ls.length ≤ weight s₁ := by
  induction r
  case refl => exact Nat.zero_le _
  case step e _ hi =>
    have ⟨hp, hw⟩ := hs h e
    exact Nat.succ_le_of_lt <| Nat.lt_of_le_of_lt (hi hp) hw

theorem ofFn_eq {init : σ → Prop} {step : σ → ℓ → Option σ} (r : Run (.ofFn init step) s₁ ls s₂)
    (r' : Run (.ofFn init step) s₁ ls s₃) : s₂ = s₃ := by
  induction r
  case refl => cases r'; rfl
  case step e _ hi =>
    cases r'
    case step e' r' =>
      cases Option.some.inj <| e.symm.trans e'
      exact hi r'

end Run

-- Forward simulation, in which a step may be matched by none.
theorem Reachable.simulate {σ' ℓ' : Type*} {sys' : System σ' ℓ'} {R : σ → σ' → Prop}
    (hi : ∀ {s}, sys.init s → ∃ t, sys'.init t ∧ R s t)
    (hs : ∀ {s l s' t}, R s t → sys.step s l s' → ∃ t', R s' t' ∧ (t' = t ∨ ∃ l', sys'.step t l' t'))
    (r : Reachable sys s) : ∃ t, Reachable sys' t ∧ R s t := by
  induction r
  case init h =>
    have ⟨t, ht, hr⟩ := hi h
    exact ⟨t, .init ht, hr⟩
  case step h ih =>
    have ⟨t, r, hr⟩ := ih
    obtain ⟨t', hr', rfl | ⟨l', h'⟩⟩ := hs hr h
    case inl => exact ⟨t', r, hr'⟩
    case inr => exact ⟨t', .step r h', hr'⟩

theorem Reachable.of_restrict {c : σ → ℓ → Prop} (r : Reachable (sys.restrict c) s) :
    Reachable sys s := by
  induction r
  case init h    => exact .init h
  case step e hi => exact .step hi e.left

end Transition
