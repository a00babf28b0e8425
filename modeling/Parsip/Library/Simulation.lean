import Parsip.Library.Transition

-- What can be seen of the runs of a system from outside, and when one system shows nothing that another
-- one does not.

namespace Transition

variable {σ ℓ ω : Type*}

-- The observations that the steps of a run make, in their order. A step may make none.
inductive Trace (sys : System σ ℓ) (obs : σ → ℓ → Option ω) : σ → List ω → σ → Prop
  | refl : Trace sys obs s [] s
  | step : sys.step s₁ l s₂ → Trace sys obs s₂ os s₃ → Trace sys obs s₁ ((obs s₁ l).toList ++ os) s₃

namespace Trace

variable {sys : System σ ℓ} {obs : σ → ℓ → Option ω} {s s₁ s₂ s₃ : σ} {l : ℓ} {os os₁ os₂ : List ω}

theorem single (h : sys.step s₁ l s₂) (ho : (obs s₁ l).toList = os) : Trace sys obs s₁ os s₂ :=
  ho ▸ List.append_nil (obs s₁ l).toList ▸ .step h .refl

theorem append (t₁ : Trace sys obs s₁ os₁ s₂) (t₂ : Trace sys obs s₂ os₂ s₃) : Trace sys obs s₁ (os₁ ++ os₂) s₃ := by
  induction t₁
  case refl        => exact t₂
  case step h _ hi => exact List.append_assoc .. ▸ .step h (hi t₂)

theorem run (t : Trace sys obs s₁ os s₂) : ∃ ls, Run sys s₁ ls s₂ := by
  induction t
  case refl => exact ⟨[], .refl⟩
  case step h _ hi =>
    have ⟨ls, r⟩ := hi
    exact ⟨_, .step h r⟩

-- What a computed run shows.
def ofLabels (step : σ → ℓ → Option σ) (obs : σ → ℓ → Option ω) (s : σ) : List ℓ → List ω
  | []      => []
  | l :: ls => (obs s l).toList ++ (step s l).elim [] (ofLabels step obs · ls)

theorem computed {f : σ → ℓ → Option σ} (hf : ∀ {s l s'}, f s l = some s' → sys.step s l s') {ls : List ℓ}
    (h : ls.foldlM f s₁ = some s₂) (ho : ofLabels f obs s₁ ls = os) : Trace sys obs s₁ os s₂ := by
  induction ls generalizing s₁ os
  case nil =>
    cases h
    exact ho ▸ .refl
  case cons l ls hi =>
    have ⟨s, hs, h⟩ := Option.bind_eq_some_iff.mp h
    rw [ofLabels, hs, Option.elim_some] at ho
    exact ho ▸ .step (hf hs) (hi h rfl)

theorem ofFn {i : σ → Prop} {step : σ → ℓ → Option σ} {ls : List ℓ} (h : ls.foldlM step s₁ = some s₂)
    (ho : ofLabels step obs s₁ ls = os) : Trace (.ofFn i step) obs s₁ os s₂ :=
  .computed id h ho

-- The same with steps that all meet a condition.
theorem ofFn_restrict {i : σ → Prop} {step : σ → ℓ → Option σ} {c : σ → ℓ → Prop} [∀ s l, Decidable (c s l)] {ls : List ℓ}
    (h : ls.foldlM (fun s l => if c s l then step s l else none) s₁ = some s₂)
    (ho : ofLabels (fun s l => if c s l then step s l else none) obs s₁ ls = os) :
    Trace ((System.ofFn i step).restrict c) obs s₁ os s₂ :=
  .computed (fun hs => (Option.ite_none_right_eq_some.mp hs).symm) h ho

-- First in, first out: when every step puts what it takes in behind what is there and takes what it gives out from the
-- front, all that has been taken in is what has been given out and what is still there, in this order.
theorem conserves {α : Type*} {content : σ → List α} {ins outs : ω → List α}
    (hs : ∀ {s l s'}, sys.step s l s' →
      content s ++ (obs s l).toList.flatMap ins = (obs s l).toList.flatMap outs ++ content s')
    (t : Trace sys obs s₁ os s₂) : content s₁ ++ os.flatMap ins = os.flatMap outs ++ content s₂ := by
  induction t
  case refl => simp
  case step h _ hi =>
    rw [List.flatMap_append, List.flatMap_append, ← List.append_assoc, hs h, List.append_assoc, hi, List.append_assoc]

-- Forward simulation: whatever a step shows can be shown by some steps of the other system.
theorem simulate {σ' ℓ' : Type*} {sys' : System σ' ℓ'} {obs' : σ' → ℓ' → Option ω} {R : σ → σ' → Prop} {t₁ : σ'}
    (hs : ∀ {s l s' t}, R s t → sys.step s l s' → ∃ t', R s' t' ∧ Trace sys' obs' t (obs s l).toList t')
    (t : Trace sys obs s₁ os s₂) (h : R s₁ t₁) : ∃ t₂, R s₂ t₂ ∧ Trace sys' obs' t₁ os t₂ := by
  induction t generalizing t₁
  case refl => exact ⟨t₁, h, .refl⟩
  case step e _ hi =>
    have ⟨t', hr, h₁⟩ := hs h e
    have ⟨t₂, hr, h₂⟩ := hi hr
    exact ⟨t₂, hr, h₁.append h₂⟩

end Trace
end Transition
