import Parsip.Connection.Locking

namespace Parsip.Locking

open Transition

variable {τ ς : Type} [DecidableEq τ] {s s' : State τ ς} {t t' : τ} {k : Lock} {c : Call ς}
variable {pc next gaveUp : Pc ς} {m m' : ConnectionManager ς} {connId : ConnId} {p : PeerId}

-- What each action does, and when it is enabled.
section Step

theorem step_call (h : step s ⟨t, .call c⟩ = some s') : s.pc t = .idle ∧ s' = s.goto t c.start := by
  simp only [step] at h
  split at h
  case h_1 hi => exact ⟨hi, (Option.some.inj h).symm⟩
  case h_2    => contradiction

theorem step_acquire (h : step s ⟨t, .acquire⟩ = some s') : ∃ k next gaveUp,
    (s.pc t).waits = some (k, next, gaveUp) ∧ s.holder k = none ∧
    s' = { s.goto t (if s.poisoned k then gaveUp else next) with
      holder := Function.update s.holder k (some t) } := by
  simp only [step] at h
  split at h
  case h_1 k next gaveUp hw =>
    split at h
    case isTrue hk  => exact ⟨k, next, gaveUp, hw, hk, (Option.some.inj h).symm⟩
    case isFalse    => contradiction
  case h_2 => contradiction

theorem step_exec (h : step s ⟨t, .exec⟩ = some s') : ∃ pc manager,
    (s.pc t).exec s.manager = some (pc, manager) ∧
    s' = { s.goto t pc with
      manager
      superseded := s.superseded ++ (s.pc t).supersedes s.manager } := by
  simp only [step] at h
  split at h
  case h_1 pc manager he => exact ⟨pc, manager, he, (Option.some.inj h).symm⟩
  case h_2               => contradiction

theorem step_panic (h : step s ⟨t, .panic⟩ = some s') : (∃ connId connection myId,
    s.pc t = .insertBody connId connection myId) ∧
    s' = s.goto t (.unlock (s.pc t).holds .panicked) := by
  simp only [step, Option.ite_none_right_eq_some] at h
  refine ⟨?_, (Option.some.inj h.right).symm⟩
  cases hp : s.pc t <;> simp [hp, Pc.panics] at h ⊢

theorem step_release (h : step s ⟨t, .release⟩ = some s') :
    (∃ k guards exit, s.pc t = .unlock (k :: guards) exit ∧
      s' = { s.goto t (.unlock guards exit) with
        holder := Function.update s.holder k none
        poisoned := Function.update s.poisoned k (exit.poisons || s.poisoned k) }) ∨
    ∃ exit, s.pc t = .unlock [] exit ∧ s' = s.goto t exit.pc := by
  simp only [step] at h
  split at h
  case h_1 k guards exit hp => exact .inl ⟨k, guards, exit, hp, (Option.some.inj h).symm⟩
  case h_2 exit hp          => exact .inr ⟨exit, hp, (Option.some.inj h).symm⟩
  case h_3                  => contradiction

theorem step_return (h : step s ⟨t, .return⟩ = some s') :
    (∃ reply, s.pc t = .done reply) ∧ s' = s.goto t .idle := by
  simp only [step] at h
  split at h
  case h_1 reply hd => exact ⟨⟨reply, hd⟩, (Option.some.inj h).symm⟩
  case h_2          => contradiction

end Step

namespace State

@[simp]
theorem goto_pc_self : (s.goto t pc).pc t = pc :=
  Function.update_self ..

theorem goto_pc_of_ne (h : t' ≠ t) : (s.goto t pc).pc t' = s.pc t' :=
  Function.update_of_ne h ..

@[simp] theorem goto_manager : (s.goto t pc).manager = s.manager := rfl
@[simp] theorem goto_holder : (s.goto t pc).holder = s.holder := rfl
@[simp] theorem goto_poisoned : (s.goto t pc).poisoned = s.poisoned := rfl
@[simp] theorem goto_superseded : (s.goto t pc).superseded = s.superseded := rfl

theorem holds_goto :
    Pc.holds ∘ (s.goto t pc).pc = Function.update (Pc.holds ∘ s.pc) t pc.holds :=
  Function.comp_update ..

end State

theorem Exit.pc_holds (e : Exit ς) : e.pc.holds = [] := by
  cases e <;> rfl

namespace Pc

-- Taking a lock adds one guard, also when the lock turns out to be poisoned.
theorem waits_holds (h : pc.waits = some (k, next, gaveUp)) :
    next.holds = k :: pc.holds ∧ gaveUp.holds = k :: pc.holds := by
  cases pc <;> simp only [waits, Option.some.injEq, Prod.mk.injEq, reduceCtorEq] at h
  all_goals
    obtain ⟨rfl, rfl, rfl⟩ := h
    exact ⟨rfl, rfl⟩

-- The work between two lock operations keeps the guards.
theorem exec_holds (h : pc.exec m = some (next, m')) : next.holds = pc.holds := by
  cases pc <;> simp only [exec, Option.some.injEq, reduceCtorEq] at h
  case removeEntry | sendLookup | sendRoute =>
    split at h <;> cases h <;> rfl
  all_goals
    cases h
    rfl

theorem start_holds : c.start.holds = [] := by
  cases c <;> rfl

-- The locks are taken in one order: `entries` before `peer_index`.
theorem holds_of_wants (h : pc.wants = some k) : pc.holds = [] ∨ pc.holds = [.entries] ∧ k = .peerIndex := by
  cases pc <;> simp [wants, waits] at h <;> simp [holds, ← h]

end Pc

-- A step moves one thread only.
theorem step_pc_of_ne {l : Label τ ς} (h : step s l = some s') (ht : t' ≠ l.thread) :
    s'.pc t' = s.pc t' := by
  obtain ⟨t, _ | _ | _ | _ | _ | _⟩ := l
  case call    => have ⟨_, h⟩ := step_call h; exact h ▸ State.goto_pc_of_ne ht
  case acquire => have ⟨_, _, _, _, _, h⟩ := step_acquire h; exact h ▸ State.goto_pc_of_ne ht
  case exec    => have ⟨_, _, _, h⟩ := step_exec h; exact h ▸ State.goto_pc_of_ne ht
  case panic   => have ⟨_, h⟩ := step_panic h; exact h ▸ State.goto_pc_of_ne ht
  case release =>
    obtain ⟨_, _, _, _, h⟩ | ⟨_, _, h⟩ := step_release h <;>
      exact h ▸ State.goto_pc_of_ne ht
  case «return» => have ⟨_, h⟩ := step_return h; exact h ▸ State.goto_pc_of_ne ht

-- The locks know their holders.
structure Guarded (s : State τ ς) : Prop where
  agrees : Mutex.Agrees s.holder (Pc.holds ∘ s.pc)
  nodup : ∀ t, (s.pc t).holds.Nodup

namespace Guarded

omit [DecidableEq τ] in
theorem exclusive (g : Guarded s) (h : k ∈ (s.pc t).holds) (h' : k ∈ (s.pc t').holds) : t = t' :=
  g.agrees.exclusive h h'

omit [DecidableEq τ] in
theorem init : Guarded (.init : State τ ς) where
  agrees k t := by simp [State.init, Pc.holds]
  nodup _ := List.nodup_nil

-- A step that keeps the guards of its thread.
theorem keep (g : Guarded s) (hp : s'.pc = Function.update s.pc t pc) (hh : s'.holder = s.holder)
    (h : pc.holds = (s.pc t).holds) : Guarded s' := by
  have hc : Pc.holds ∘ s'.pc = Pc.holds ∘ s.pc := by
    rw [hp, Function.comp_update, h]
    exact Function.update_eq_self ..
  constructor
  case agrees => rw [hc, hh]; exact g.agrees
  case nodup =>
    intro t'
    have hn := congrFun hc t'
    simp only [Function.comp_apply] at hn
    exact hn ▸ g.nodup t'

theorem step {l : Label τ ς} (g : Guarded s) (h : step s l = some s') : Guarded s' := by
  obtain ⟨t, _ | _ | _ | _ | _ | _⟩ := l
  case call =>
    have ⟨hp, hs⟩ := step_call h
    subst hs
    exact g.keep rfl rfl (Pc.start_holds.trans <| hp ▸ rfl)
  case acquire =>
    have ⟨k, next, gaveUp, hw, hk, hs⟩ := step_acquire h
    subst hs
    have hh : (if s.poisoned k then gaveUp else next).holds = k :: (s.pc t).holds := by
      split
      case isTrue  => exact (Pc.waits_holds hw).right
      case isFalse => exact (Pc.waits_holds hw).left
    constructor
    case agrees =>
      rw [State.holds_goto, hh]
      exact g.agrees.acquire hk
    case nodup =>
      intro t'
      by_cases ht : t' = t
      case pos =>
        subst ht
        rw [State.goto_pc_self, hh]
        exact List.nodup_cons.mpr ⟨g.agrees.not_held hk t', g.nodup t'⟩
      case neg => rw [State.goto_pc_of_ne ht]; exact g.nodup t'
  case exec =>
    have ⟨pc, m, he, hs⟩ := step_exec h
    subst hs
    exact g.keep rfl rfl <| Pc.exec_holds he
  case panic =>
    have ⟨_, hs⟩ := step_panic h
    subst hs
    exact g.keep rfl rfl rfl
  case release =>
    obtain ⟨k, guards, exit, hp, hs⟩ | ⟨exit, hp, hs⟩ := step_release h
    case inl =>
      subst hs
      have hn := g.nodup t
      rw [hp] at hn
      have ⟨hk, hr⟩ := List.nodup_cons.mp hn
      constructor
      case agrees =>
        rw [State.holds_goto]
        exact g.agrees.release (congrArg Pc.holds hp) hk
      case nodup =>
        intro t'
        by_cases ht : t' = t
        case pos => subst ht; rw [State.goto_pc_self]; exact hr
        case neg => rw [State.goto_pc_of_ne ht]; exact g.nodup t'
    case inr =>
      subst hs
      exact g.keep rfl rfl <| exit.pc_holds.trans <| hp ▸ rfl
  case «return» =>
    have ⟨⟨reply, hp⟩, hs⟩ := step_return h
    subst hs
    exact g.keep rfl rfl <| hp ▸ rfl

theorem reachable (r : Reachable (system τ ς) s) : Guarded s := by
  refine Invariant.reachable ⟨?_, fun g h => g.step h⟩ r
  rintro _ rfl
  exact init

end Guarded

namespace Pc

-- A thread of `remove` that relies on the `peer_index` lock not being poisoned.
def trusts : Pc ς → Prop
  | removeEntry .. | removePeerIndex .. => True
  | _                                   => False

theorem holds_of_trusts (h : pc.trusts) : .entries ∈ pc.holds := by
  cases pc <;> simp [trusts] at h <;> simp [holds]

theorem waits_trusts (h : pc.waits = some (k, next, gaveUp)) :
    (next.trusts → k = .entries) ∧ ¬gaveUp.trusts := by
  cases pc <;> simp only [waits, Option.some.injEq, Prod.mk.injEq, reduceCtorEq] at h
  all_goals
    obtain ⟨rfl, rfl, rfl⟩ := h
    simp [trusts]

theorem exec_trusts (h : pc.exec m = some (next, m')) (ht : next.trusts) : pc.trusts := by
  cases pc <;> simp only [exec, Option.some.injEq, reduceCtorEq] at h
  case removeEntry => trivial
  case sendLookup | sendRoute => split at h <;> cases h <;> cases ht
  all_goals
    cases h
    cases ht

-- The guards that are left to a thread that unwinds.
def unwinds : Pc ς → Option (List Lock)
  | unlock guards exit => if exit.poisons then some guards else none
  | _                  => none

theorem unwinds_of_waits (h : pc.waits = some (k, next, gaveUp)) :
    pc.unwinds = none ∧ next.unwinds = none ∧ gaveUp.unwinds = none := by
  cases pc <;> simp only [waits, Option.some.injEq, Prod.mk.injEq, reduceCtorEq] at h
  all_goals
    obtain ⟨rfl, rfl, rfl⟩ := h
    exact ⟨rfl, rfl, rfl⟩

theorem unwinds_of_exec (h : pc.exec m = some (next, m')) :
    pc.unwinds = none ∧ next.unwinds = none := by
  cases pc <;> simp only [exec, Option.some.injEq, reduceCtorEq] at h
  case removeEntry | sendLookup | sendRoute => split at h <;> cases h <;> exact ⟨rfl, rfl⟩
  all_goals
    cases h
    exact ⟨rfl, rfl⟩

end Pc

theorem Call.start_unwinds : c.start.unwinds = none := by
  cases c <;> rfl

theorem Call.start_trusts : ¬c.start.trusts := by
  cases c <;> exact id

theorem Exit.pc_unwinds (e : Exit ς) : e.pc.unwinds = none := by
  cases e <;> rfl

theorem Exit.pc_trusts (e : Exit ς) : ¬e.pc.trusts := by
  cases e <;> exact id

-- A panic poisons `peer_index` and then `entries`, and no other thread gets hold of `entries` in
-- between.
structure Sound (s : State τ ς) : Prop where
  unwinding : ∀ {t guards}, (s.pc t).unwinds = some guards → guards <:+ [.peerIndex, .entries]
  trusted : ∀ {t}, (s.pc t).trusts → s.poisoned .entries = false
  spread : s.poisoned .peerIndex = true →
    s.poisoned .entries = true ∨ ∃ t, (s.pc t).unwinds = some [.entries]

namespace Sound

omit [DecidableEq τ] in
theorem init : Sound (.init : State τ ς) where
  unwinding h := by contradiction
  trusted h   := by contradiction
  spread h    := by contradiction

omit [DecidableEq τ] in
-- A thread about to take `peer_index` in `remove` finds it in order.
theorem not_poisoned (o : Sound s) (g : Guarded s) (h : (s.pc t).trusts) :
    s.poisoned .peerIndex = false := by
  by_contra hp
  have ht := o.trusted h
  obtain he | ⟨t', he⟩ := o.spread <| Bool.not_eq_false _ ▸ hp
  case inl => rw [he] at ht; contradiction
  case inr =>
    have hh : .entries ∈ (s.pc t').holds := by
      cases hp : s.pc t' <;> simp [hp, Pc.unwinds] at he
      simp [Pc.holds, he]
    have := g.exclusive (Pc.holds_of_trusts h) hh
    subst this
    cases hp : s.pc t <;> simp [hp, Pc.unwinds, Pc.trusts] at he h

-- A step that poisons no lock.
theorem keep (o : Sound s) (hs : s'.pc = Function.update s.pc t pc) (hp : s'.poisoned = s.poisoned)
    (hu : ∀ {guards}, pc.unwinds = some guards → guards <:+ [.peerIndex, .entries])
    (ht : pc.trusts → s.poisoned .entries = false) (hn : (s.pc t).unwinds ≠ some [.entries]) :
    Sound s' := by
  constructor
  case unwinding =>
    intro t' guards h
    rw [hs, Function.update_apply] at h
    split at h
    case isTrue  => exact hu h
    case isFalse => exact o.unwinding h
  case trusted =>
    intro t' h
    rw [hs, Function.update_apply] at h
    rw [hp]
    split at h
    case isTrue  => exact ht h
    case isFalse => exact o.trusted h
  case spread =>
    rw [hp]
    refine fun h => (o.spread h).imp_right fun ⟨t', ht'⟩ => ⟨t', ?_⟩
    rwa [hs, Function.update_of_ne]
    rintro rfl
    exact hn ht'

theorem release {guards : List Lock} {exit : Exit ς} (o : Sound s) (g : Guarded s)
    (hp : s.pc t = .unlock (k :: guards) exit)
    (hs : s' = { s.goto t (.unlock guards exit) with
      holder := Function.update s.holder k none
      poisoned := Function.update s.poisoned k (exit.poisons || s.poisoned k) }) : Sound s' := by
  cases he : exit.poisons
  case false =>
    -- A guard that is dropped in the normal course leaves the flag as it is.
    have hu : s'.pc = Function.update s.pc t (.unlock guards exit) := hs ▸ rfl
    refine o.keep hu ?_ ?_ False.elim ?_
    · simp [hs, he, Function.update_eq_self]
    · simp [Pc.unwinds, he]
    · simp [hp, Pc.unwinds, he]
  case true =>
    have hu : k :: guards <:+ [.peerIndex, .entries] := o.unwinding <| by rw [hp, Pc.unwinds, if_pos he]
    subst hs
    constructor
    case unwinding =>
      intro t' guards' h
      by_cases ht : t' = t
      case pos =>
        subst ht
        simp only [State.goto_pc_self, Pc.unwinds, he, if_true, Option.some.injEq] at h
        exact h ▸ (List.suffix_cons ..).trans hu
      case neg =>
        simp only [State.goto_pc_of_ne ht] at h
        exact o.unwinding h
    case trusted =>
      intro t' h
      by_cases ht : t' = t
      case pos =>
        subst ht
        simp [Pc.trusts] at h
      case neg =>
        simp only [State.goto_pc_of_ne ht] at h
        have hk : .entries ≠ k := by
          rintro rfl
          refine ht <| g.exclusive (Pc.holds_of_trusts h) ?_
          simp [hp, Pc.holds]
        simpa only [Function.update_of_ne hk] using o.trusted h
    case spread =>
      intro _
      obtain hu | hu := List.suffix_cons_iff.mp hu
      case inl =>
        cases hu
        exact .inr ⟨t, by simp [Pc.unwinds, he]⟩
      case inr =>
        obtain hu | hu := List.suffix_cons_iff.mp hu
        case inl =>
          cases hu
          simp [he]
        case inr => cases List.suffix_nil.mp hu

theorem step {l : Label τ ς} (o : Sound s) (g : Guarded s) (h : step s l = some s') : Sound s' := by
  obtain ⟨t, _ | _ | _ | _ | _ | _⟩ := l
  case call =>
    have ⟨hp, hs⟩ := step_call h
    subst hs
    refine o.keep rfl rfl ?_ (fun h => absurd h Call.start_trusts) ?_
    · simp [Call.start_unwinds]
    · simp [hp, Pc.unwinds]
  case acquire =>
    have ⟨k, next, gaveUp, hw, hk, hs⟩ := step_acquire h
    have ⟨hu, hn, hg⟩ := Pc.unwinds_of_waits hw
    have ⟨ht, ht'⟩ := Pc.waits_trusts hw
    subst hs
    refine o.keep rfl rfl ?_ ?_ (by simp [hu])
    · split <;> simp [hn, hg]
    · split
      case isTrue    => exact fun h => absurd h ht'
      case isFalse h => exact fun hn => ht hn ▸ Bool.not_eq_true _ ▸ h
  case exec =>
    have ⟨pc, m, he, hs⟩ := step_exec h
    have ⟨hu, hn⟩ := Pc.unwinds_of_exec he
    subst hs
    exact o.keep rfl rfl (by simp [hn]) (o.trusted <| Pc.exec_trusts he ·) (by simp [hu])
  case panic =>
    have ⟨⟨_, _, _, hp⟩, hs⟩ := step_panic h
    subst hs
    refine o.keep rfl rfl ?_ False.elim (by simp [hp, Pc.unwinds])
    simp [hp, Pc.unwinds, Exit.poisons, Pc.holds]
  case release =>
    obtain ⟨k, guards, exit, hp, hs⟩ | ⟨exit, hp, hs⟩ := step_release h
    case inl => exact o.release g hp hs
    case inr =>
      subst hs
      refine o.keep rfl rfl ?_ (fun h => absurd h exit.pc_trusts) ?_
      · simp [exit.pc_unwinds]
      · simp [hp, Pc.unwinds]
  case «return» =>
    have ⟨⟨reply, hp⟩, hs⟩ := step_return h
    subst hs
    exact o.keep rfl rfl (by simp [Pc.unwinds]) False.elim (by simp [hp, Pc.unwinds])

theorem reachable (r : Reachable (system τ ς) s) : Sound s := by
  refine Invariant.relative Guarded.reachable ?_ (fun g o h => o.step g h) r
  rintro _ rfl
  exact init

end Sound

end Parsip.Locking
