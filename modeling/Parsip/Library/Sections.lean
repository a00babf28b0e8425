import Mathlib.Logic.Function.Basic
import Parsip.Library.Simulation

-- Threads that share an object, on which they work in sections that nothing interrupts. Between two sections
-- of a call anybody else may work.

namespace Sections

open Transition

-- What is left to do of a call: a section of kind `α`, whose outcome of type `ρ` says how it goes on, and
-- in the end a result of type `β`. A thread may also crash in a section.
inductive Program (α ρ β : Type*)
  | act (a : α) (next : ρ → Program α ρ β)
  | done (result : β)
  | crashed

variable {σ τ α ρ β γ : Type*}

structure State (σ τ α ρ β : Type*) where
  object : σ
  running : τ → Option (Program α ρ β)

inductive Label (τ γ : Type*)
  | call (t : τ) (c : γ)
  | act (t : τ)
  | return (t : τ)

-- What the threads see of the object.
inductive Event (τ γ β : Type*)
  | call (t : τ) (c : γ)
  | return (t : τ) (result : β)

namespace State

variable [DecidableEq τ]

def set (s : State σ τ α ρ β) (t : τ) (p : Option (Program α ρ β)) : State σ τ α ρ β :=
  { s with running := Function.update s.running t p }

end State

variable [DecidableEq τ]

inductive Step (program : γ → Program α ρ β) (apply : σ → α → ρ → σ → Prop) :
    State σ τ α ρ β → Label τ γ → State σ τ α ρ β → Prop
  | call   : s.running t = none → Step program apply s (.call t c) (s.set t (program c))
  | act    : s.running t = some (.act a next) → apply s.object a r object →
    Step program apply s (.act t) { s.set t (next r) with object }
  | return : s.running t = some (.done result) → Step program apply s (.return t) (s.set t none)

def observe (s : State σ τ α ρ β) : Label τ γ → Option (Event τ γ β)
  | .call t c => some <| .call t c
  | .act _    => none
  | .return t =>
    match s.running t with
    | some (.done result) => some <| .return t result
    | _                   => none

def system (program : γ → Program α ρ β) (apply : σ → α → ρ → σ → Prop) (object : σ) :
    System (State σ τ α ρ β) (Label τ γ) where
  init s := s = ⟨object, fun _ => none⟩
  step := Step program apply

variable {program : γ → Program α ρ β} {apply : σ → α → ρ → σ → Prop} {o object : σ} {s : State σ τ α ρ β}
variable {t t' : τ} {c : γ} {a : α} {r : ρ} {next : ρ → Program α ρ β} {result : β} {p : Option (Program α ρ β)}

@[simp]
theorem State.set_running_self : (s.set t p).running t = p :=
  Function.update_self ..

theorem State.set_running_of_ne (h : t' ≠ t) : (s.set t p).running t' = s.running t' :=
  Function.update_of_ne h ..

@[simp] theorem State.set_object : (s.set t p).object = s.object := rfl

-- The traces of single steps.
namespace Trace

theorem call (h : s.running t = none) : Trace (system program apply o) observe s [.call t c] (s.set t (program c)) :=
  .single (Step.call h) rfl

theorem act (h : s.running t = some (.act a next)) (ha : apply s.object a r object) :
    Trace (system program apply o) observe s [] { s.set t (next r) with object } :=
  .single (Step.act h ha) rfl

theorem «return» (h : s.running t = some (.done result)) :
    Trace (system program apply o) observe s [.return t result] (s.set t none) :=
  .single (Step.return h) <| by rw [observe, h]; rfl

end Trace
end Sections
