import Parsip.Connection.Theorems.Locking.Tables

namespace Parsip.Locking

open Transition

-- Where a thread can be after its next step, unless it makes a new call.
inductive Pc.Next {ς : Type} (m : ConnectionManager ς) : Pc ς → Pc ς → Prop
  | acquire : pc.waits = some (k, next, gaveUp) → Next m pc next
  | giveUp  : pc.waits = some (k, next, gaveUp) → Next m pc gaveUp
  | exec    : pc.exec m = some (next, m') → Next m pc next
  | panic   : Next m (.insertBody connId connection myId) (.unlock guards .panicked)
  | release : Next m (.unlock (k :: guards) exit) (.unlock guards exit)
  | leave   : Next m (.unlock [] exit) exit.pc
  | return  : Next m (.done reply) .idle

variable {τ ς : Type} [DecidableEq τ] {s s₁ s₂ s' : State τ ς} {t : τ} {l : Label τ ς}
variable {pc next gaveUp : Pc ς} {k : Lock} {m m' : ConnectionManager ς} {connId : ConnId}
variable {ls : List (Label τ ς)}

-- The locks are taken in one order: `entries` before `peer_index`.
def Lock.rank : Lock → Fin 2
  | entries   => 0
  | peerIndex => 1

omit [DecidableEq τ] in
theorem Guarded.not_deadlock (g : Guarded s) (group : Set τ) :
    ¬Mutex.Deadlock s.holder (Pc.wants ∘ s.pc) group := by
  refine Mutex.not_deadlock_of_rank Lock.rank (fun {t k k'} hh hw => ?_) group
  have hm : k ∈ (s.pc t).holds := (g.agrees k t).mp hh
  obtain hn | ⟨he, hk⟩ := Pc.holds_of_wants hw
  case inl => rw [hn] at hm; contradiction
  case inr =>
    rw [he, List.mem_singleton] at hm
    rw [hm, hk]
    decide

-- Only a thread that holds `entries` changes the maps.
theorem step_tables (h : step s l = some s') :
    s'.manager.tables = s.manager.tables ∨ .entries ∈ (s.pc l.thread).holds := by
  obtain ⟨t, _ | _ | _ | _ | _ | _⟩ := l
  case call    => obtain ⟨_, h⟩ := step_call h; exact .inl (h ▸ rfl)
  case acquire => obtain ⟨_, _, _, _, _, h⟩ := step_acquire h; exact .inl (h ▸ rfl)
  case exec =>
    obtain ⟨pc, m, he, h⟩ := step_exec h
    obtain ⟨_, _, hp, _, hm⟩ | ⟨_, _, _, _, hp, _⟩ | ⟨_, _, hp, _⟩ | ⟨_, _, hp, _⟩ | ⟨hm, _⟩ :=
      Pc.exec_cases he
    case inl         => exact .inl (h ▸ hm ▸ rfl)
    case inr.inl     => exact .inr (by simp [hp, Pc.holds])
    case inr.inr.inl => exact .inr (by simp [hp, Pc.holds])
    case inr.inr.inr.inl => exact .inr (by simp [hp, Pc.holds])
    case inr.inr.inr.inr => exact .inl (h ▸ hm ▸ rfl)
  case panic    => obtain ⟨_, h⟩ := step_panic h; exact .inl (h ▸ rfl)
  case release  => obtain ⟨_, _, _, _, h⟩ | ⟨_, _, h⟩ := step_release h <;> exact .inl (h ▸ rfl)
  case «return» => obtain ⟨_, h⟩ := step_return h; exact .inl (h ▸ rfl)

-- So the maps are as a thread found them for as long as it holds `entries` and does nothing.
theorem Guarded.isolated (g : Guarded s) (hh : .entries ∈ (s.pc t).holds)
    (h : Locking.step s l = some s') (hl : l.thread ≠ t) : s'.manager.tables = s.manager.tables :=
  (step_tables h).resolve_right fun hm => hl <| g.exclusive hm hh

namespace Pc

-- The places of a thread in a call of `insert_connection` up to its return.
def inserts : Pc ς → Prop
  | insertStart .. | insertEntries .. | insertPeerIndex .. | insertBody .. => True
  | unlock _ exit => exits exit
  | done reply    => exits (.done reply)
  | panicked      => exits .panicked
  | idle          => True
  | _             => False
where
  exits : Exit ς → Prop
    | .done (.inserted _) | .panicked => True
    | _                               => False

-- The places of a thread after its work in `insert_connection` when that has made an entry.
def inserted : Pc ς → Prop
  | unlock _ exit => exits exit
  | done reply    => exits (.done reply)
  | idle          => True
  | _             => False
where
  exits : Exit ς → Prop
    | .done (.inserted (.ok _)) => True
    | _                         => False

-- The places of a thread in a call of `remove` that finds no entry.
def removes (c : ConnId) : Pc ς → Prop
  | removeEntries connId | removeEntry connId => connId = c
  | unlock _ exit                             => exits exit
  | done reply                                => exits (.done reply)
  | idle                                      => True
  | _                                         => False
where
  exits : Exit ς → Prop
    | .done .removed => True
    | _              => False

namespace Next

theorem inserts (n : Next m pc next) (h : pc.inserts) : next.inserts := by
  cases n
  case acquire hw | giveUp hw =>
    cases pc <;> simp only [waits, Option.some.injEq, Prod.mk.injEq, reduceCtorEq] at hw
    case insertEntries | insertPeerIndex =>
      obtain ⟨_, rfl, rfl⟩ := hw
      trivial
    all_goals cases h
  case exec he =>
    cases pc <;> simp only [Pc.exec, Option.some.injEq, Prod.mk.injEq, reduceCtorEq] at he
    case insertStart | insertBody => exact he.left ▸ trivial
    all_goals cases h
  case panic      => trivial
  case release    => exact h
  case leave exit => cases exit <;> exact h
  case «return»   => trivial

theorem inserted (n : Next m pc next) (h : pc.inserted) : next.inserted := by
  cases n
  case acquire hw | giveUp hw => cases pc <;> contradiction
  case exec he                => cases pc <;> contradiction
  case panic                  => cases h
  case release                => exact h
  case leave exit             => cases exit <;> exact h
  case «return»               => trivial

theorem removes (n : Next m pc next) (hl : m.tables.entries.lookup connId = none)
    (h : pc.removes connId) : next.removes connId := by
  cases n
  case acquire hw | giveUp hw =>
    cases pc <;> simp only [waits, Option.some.injEq, Prod.mk.injEq, reduceCtorEq] at hw
    case removeEntries =>
      obtain ⟨_, rfl, rfl⟩ := hw
      first | exact h | trivial
    all_goals cases h
  case exec he =>
    cases pc <;> simp only [Pc.exec, Option.some.injEq, Prod.mk.injEq, reduceCtorEq] at he
    case removeEntry =>
      cases h
      rw [hl] at he
      cases he
      trivial
    all_goals cases h
  case panic      => cases h
  case release    => exact h
  case leave exit => cases exit <;> exact h
  case «return»   => trivial

end Next
end Pc

theorem next_of_step (h : step s l = some s') (hc : ∀ c, l.action ≠ .call c) :
    Pc.Next s.manager (s.pc l.thread) (s'.pc l.thread) := by
  obtain ⟨t, _ | _ | _ | _ | _ | _⟩ := l
  case call c => exact absurd rfl (hc c)
  case acquire =>
    have ⟨k, next, gaveUp, hw, _, hs⟩ := step_acquire h
    subst hs
    simp only [State.goto_pc_self]
    split
    case isTrue  => exact .giveUp hw
    case isFalse => exact .acquire hw
  case exec =>
    have ⟨pc, m, he, hs⟩ := step_exec h
    subst hs
    simp only [State.goto_pc_self]
    exact .exec he
  case panic =>
    have ⟨⟨_, _, _, hp⟩, hs⟩ := step_panic h
    subst hs
    simp only [State.goto_pc_self, hp]
    exact .panic
  case release =>
    obtain ⟨_, _, _, hp, hs⟩ | ⟨exit, hp, hs⟩ := step_release h <;> subst hs
    case inl => simp only [State.goto_pc_self, hp]; exact .release
    case inr => simp only [State.goto_pc_self, hp]; exact .leave
  case «return» =>
    have ⟨⟨_, hp⟩, hs⟩ := step_return h
    subst hs
    simp only [State.goto_pc_self, hp]
    exact .return

-- What the own steps of a thread preserve holds until it makes its next call.
theorem pc_preserved {Q : Pc ς → Prop} (r : Run (system τ ς) s ls s')
    (hc : ∀ c, ⟨t, .call c⟩ ∉ ls)
    (hq : ∀ {m pc next}, Pc.Next m pc next → Q pc → Q next) (h : Q (s.pc t)) : Q (s'.pc t) := by
  refine r.preserves (P := fun s => Q (s.pc t)) (fun {s₁ l s₂} hl hs e => ?_) h
  by_cases ht : l.thread = t
  case pos =>
    subst ht
    exact hq (next_of_step e fun c hl' => hc c <| hl' ▸ hl) hs
  case neg => exact step_pc_of_ne e (Ne.symm ht) ▸ hs

-- A call of `insert_connection` changes the maps only when it succeeds.
theorem inserted_of_step (h : step s l = some s') (hi : (s.pc l.thread).inserts) :
    s'.manager.tables = s.manager.tables ∨ (s'.pc l.thread).inserted := by
  obtain ⟨t, _ | _ | _ | _ | _ | _⟩ := l
  case call    => have ⟨_, h⟩ := step_call h; exact .inl (h ▸ rfl)
  case acquire => have ⟨_, _, _, _, _, h⟩ := step_acquire h; exact .inl (h ▸ rfl)
  case exec =>
    have ⟨pc, m, he, h⟩ := step_exec h
    obtain ⟨_, _, hp, _, hm⟩ | ⟨_, _, _, _, hp, hr, hn, _⟩ | ⟨_, _, hp, _⟩ | ⟨_, _, hp, _⟩ |
      ⟨hm, _⟩ := Pc.exec_cases he
    case inl => exact .inl (h ▸ hm ▸ rfl)
    case inr.inl =>
      obtain ⟨_, ht, _⟩ | ⟨ho, _⟩ := ConnectionTables.insertConnection_cases hr
      case inl => exact .inl (h ▸ ht)
      case inr =>
        right
        subst h hn ho
        simp only [State.goto_pc_self]
        trivial
    case inr.inr.inl     => rw [hp] at hi; cases hi
    case inr.inr.inr.inl => rw [hp] at hi; cases hi
    case inr.inr.inr.inr => exact .inl (h ▸ hm ▸ rfl)
  case panic    => have ⟨_, h⟩ := step_panic h; exact .inl (h ▸ rfl)
  case release  => obtain ⟨_, _, _, _, h⟩ | ⟨_, _, h⟩ := step_release h <;> exact .inl (h ▸ rfl)
  case «return» => have ⟨_, h⟩ := step_return h; exact .inl (h ▸ rfl)

theorem superseded_mono (h : step s l = some s') (hc : connId ∈ s.superseded) :
    connId ∈ s'.superseded := by
  obtain ⟨t, _ | _ | _ | _ | _ | _⟩ := l
  case call    => have ⟨_, h⟩ := step_call h; exact h ▸ hc
  case acquire => have ⟨_, _, _, _, _, h⟩ := step_acquire h; exact h ▸ hc
  case exec    => have ⟨_, _, _, h⟩ := step_exec h; exact h ▸ List.mem_append_left _ hc
  case panic   => have ⟨_, h⟩ := step_panic h; exact h ▸ hc
  case release => obtain ⟨_, _, _, _, h⟩ | ⟨_, _, h⟩ := step_release h <;> exact h ▸ hc
  case «return» => have ⟨_, h⟩ := step_return h; exact h ▸ hc

-- A call that is refused changes nothing.
theorem refused_throughout {connection : Connection ς} {myId : PeerId} {e : Error}
    (r : Run (system τ ς) s ls s') (hp : s.pc t = (Call.insertConnection connection myId).start)
    (hc : ∀ c, ⟨t, .call c⟩ ∉ ls) (hd : s'.pc t = .done (.inserted (.error e))) :
    (system τ ς).Throughout s ls s' fun s₁ l s₂ =>
      l.thread = t → s₂.manager.tables = s₁.manager.tables := by
  rintro ls₁ l ls₂ s₁ s₂ rfl r₁ h r₂ rfl
  have hc₁ : ∀ c, ⟨l.thread, .call c⟩ ∉ ls₁ := fun c hm => hc c <| List.mem_append_left _ hm
  have hc₂ : ∀ c, ⟨l.thread, .call c⟩ ∉ ls₂ := fun c hm =>
    hc c <| List.mem_append_right _ <| List.mem_cons_of_mem _ hm
  have hi : (s₁.pc l.thread).inserts := pc_preserved r₁ hc₁ Pc.Next.inserts (hp ▸ trivial)
  refine (inserted_of_step h hi).resolve_right fun hn => ?_
  have := pc_preserved r₂ hc₂ Pc.Next.inserted hn
  rw [hd] at this
  cases this

theorem tables_of_removes (h : step s l = some s') (hi : (s.pc l.thread).removes connId)
    (hl : s.manager.tables.entries.lookup connId = none) :
    s'.manager.tables = s.manager.tables := by
  obtain ⟨t, _ | _ | _ | _ | _ | _⟩ := l
  case call    => have ⟨_, h⟩ := step_call h; exact h ▸ rfl
  case acquire => have ⟨_, _, _, _, _, h⟩ := step_acquire h; exact h ▸ rfl
  case exec =>
    have ⟨pc, m, he, h⟩ := step_exec h
    obtain ⟨_, _, hp, _, hm⟩ | ⟨_, _, _, _, hp, _⟩ | ⟨_, _, hp, hc, _⟩ | ⟨_, _, hp, _⟩ | ⟨hm, _⟩ :=
      Pc.exec_cases he
    case inl             => exact h ▸ hm ▸ rfl
    case inr.inl         => rw [hp] at hi; cases hi
    case inr.inr.inl     => rw [hp] at hi; cases hi; rw [hl] at hc; contradiction
    case inr.inr.inr.inl => rw [hp] at hi; cases hi
    case inr.inr.inr.inr => exact h ▸ hm ▸ rfl
  case panic    => have ⟨_, h⟩ := step_panic h; exact h ▸ rfl
  case release  => obtain ⟨_, _, _, _, h⟩ | ⟨_, _, h⟩ := step_release h <;> exact h ▸ rfl
  case «return» => have ⟨_, h⟩ := step_return h; exact h ▸ rfl

-- A call of `remove` for a connection that has been replaced changes nothing.
theorem superseded_throughout (hr : Reachable (system τ ς) s) (hs : connId ∈ s.superseded)
    (hp : s.pc t = (Call.remove connId).start) (hc : ∀ c, ⟨t, .call c⟩ ∉ ls) :
    (system τ ς).Throughout s ls s' fun s₁ l s₂ =>
      l.thread = t → s₂.manager.tables = s₁.manager.tables := by
  rintro ls₁ l ls₂ s₁ s₂ rfl r h _ rfl
  -- Along the run the id stays superseded, so it has no entry.
  have ⟨hr, hs, hi⟩ : Reachable (system τ ς) s₁ ∧ connId ∈ s₁.superseded ∧
      (s₁.pc l.thread).removes connId := by
    refine r.preserves (P := fun s => Reachable (system τ ς) s ∧ connId ∈ s.superseded ∧
      (s.pc l.thread).removes connId) (fun {s l' s'} hm ⟨hr, hs, hi⟩ e => ?_) ⟨hr, hs, hp ▸ rfl⟩
    refine ⟨.step hr e, superseded_mono e hs, ?_⟩
    by_cases ht : l'.thread = l.thread
    case pos =>
      rw [← ht] at hi hc ⊢
      refine Pc.Next.removes (next_of_step e fun c hl => ?_) (Fresh.reachable hr |>.superseded hs).right hi
      exact hc c <| List.mem_append_left _ <| hl ▸ hm
    case neg => exact step_pc_of_ne e (Ne.symm ht) ▸ hi
  exact tables_of_removes h hi (Fresh.reachable hr |>.superseded hs).right

-- Whatever the threads do, they do not block one another for good, the maps are inverse to each
-- other whenever nobody works on them, and neither a refused connection nor the late cleanup of a
-- replaced one leaves a trace.
theorem tables_safe (r : Reachable (system τ ς) s) :
    (∀ group : Set τ, ¬Mutex.Deadlock s.holder (Pc.wants ∘ s.pc) group) ∧
    (s.holder .entries = none → s.holder .peerIndex = none →
      (∀ p c, s.manager.tables.peerIndex.lookup p = some c ↔
        ∃ e, s.manager.tables.entries.lookup c = some e ∧ e.connection.remotePeerId = p) ∧
      ∀ c c' e e', s.manager.tables.entries.lookup c = some e →
        s.manager.tables.entries.lookup c' = some e' →
        e.connection.remotePeerId = e'.connection.remotePeerId → c = c') ∧
    (∀ t l s', .entries ∈ (s.pc t).holds → step s l = some s' → l.thread ≠ t →
      s'.manager.tables = s.manager.tables) ∧
    (∀ t connection myId ls s' e, s.pc t = (Call.insertConnection connection myId).start →
      Run (system τ ς) s ls s' → (∀ c, ⟨t, .call c⟩ ∉ ls) →
      s'.pc t = .done (.inserted (.error e)) →
      (system τ ς).Throughout s ls s' fun s₁ l s₂ =>
        l.thread = t → s₂.manager.tables = s₁.manager.tables) ∧
    ∀ t connId ls s', connId ∈ s.superseded → s.pc t = (Call.remove connId).start →
      (∀ c, ⟨t, .call c⟩ ∉ ls) →
      (system τ ς).Throughout s ls s' fun s₁ l s₂ =>
        l.thread = t → s₂.manager.tables = s₁.manager.tables := by
  have g := Guarded.reachable r
  refine ⟨g.not_deadlock, fun he _ => ?_, fun _ _ _ hh h hl => g.isolated hh h hl,
    fun _ _ _ _ _ _ hp hr hc hd => refused_throughout hr hp hc hd,
    fun _ _ _ _ hs hp hc => superseded_throughout r hs hp hc⟩
  -- Without a holder of `entries` no thread is in the middle of `remove`.
  have i := (Tidy.reachable r).inverse fun t => by
    by_contra hc
    have ⟨_, hd⟩ := Option.ne_none_iff_exists'.mp hc
    exact g.agrees.not_held he t <| Pc.holds_of_pending hd
  exact ⟨fun _ _ => i.def, fun _ _ _ _ h h' hp => i.entry_unique h h' hp⟩

-- Two threads connect to one peer, and then the cleanup of the first connection begins.
def replacement : List (Label Nat Unit) :=
  let insert := [.exec, .acquire, .acquire, .exec, .release, .release, .release, .return]
  let conn : Connection Unit := ⟨⟨.replicate 32 1⟩, .outgoing, ()⟩
  let call := .insertConnection conn ⟨.replicate 32 9⟩
  (.call call :: insert).map (⟨0, ·⟩) ++ (.call call :: insert).map (⟨1, ·⟩) ++ [⟨0, .call <| .remove 1⟩]

theorem tables_safe_replacement : ∃ s : State Nat Unit, Reachable (system Nat Unit) s ∧
    s.superseded = [1] ∧ s.pc 0 = .removeEntries 1 ∧
    ∀ ls s', (∀ c, ⟨0, .call c⟩ ∉ ls) →
      (system Nat Unit).Throughout s ls s' fun s₁ l s₂ =>
        l.thread = 0 → s₂.manager.tables = s₁.manager.tables := by
  have hs : (replacement.foldlM step State.init).isSome := by decide
  have r : Reachable (system Nat Unit) ((replacement.foldlM step State.init).get hs) :=
    Run.reachable (.init rfl) <| .ofFn (Option.some_get hs).symm
  have hd : ((replacement.foldlM step State.init).get hs).superseded = [1] := rfl
  have ⟨_, _, _, _, h⟩ := tables_safe r
  exact ⟨_, r, hd, rfl, fun ls s' => h 0 1 ls s' (hd ▸ List.mem_singleton_self 1) rfl⟩

end Parsip.Locking
