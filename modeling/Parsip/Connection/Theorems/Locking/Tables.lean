import Parsip.Connection.Theorems.Locking.Guards
import Parsip.Connection.Theorems.Manager

namespace Parsip.Locking

open Transition

variable {τ ς : Type} [DecidableEq τ] {s s' : State τ ς} {t t' : τ} {k : Lock} {c : Call ς}
variable {pc next gaveUp : Pc ς} {m m' : ConnectionManager ς} {connId : ConnId}

namespace Pc

-- The id that `insert_connection` has taken from the counter.
def reserved : Pc ς → Option ConnId
  | insertEntries connId .. | insertPeerIndex connId .. | insertBody connId .. => some connId
  | _                                                                          => none

-- The entry that `remove` has taken out while the index may still have it.
def pending : Pc ς → Option (ConnId × PeerId)
  | removePeerIndex connId peerId | removeBody connId peerId => some (connId, peerId)
  | _                                                        => none

theorem holds_of_pending {d : ConnId × PeerId} (h : pc.pending = some d) : .entries ∈ pc.holds := by
  cases pc <;> simp [pending] at h <;> simp [holds]

theorem waits_reserved (h : pc.waits = some (k, next, gaveUp)) :
    next.reserved = pc.reserved ∧ gaveUp.reserved = none := by
  cases pc <;> simp only [waits, Option.some.injEq, Prod.mk.injEq, reduceCtorEq] at h
  all_goals
    obtain ⟨rfl, rfl, rfl⟩ := h
    exact ⟨rfl, rfl⟩

theorem waits_pending (h : pc.waits = some (k, next, gaveUp)) :
    next.pending = pc.pending ∧ gaveUp.pending = none ∧
    (pc.pending ≠ none → pc.trusts ∧ k = .peerIndex) := by
  cases pc <;> simp only [waits, Option.some.injEq, Prod.mk.injEq, reduceCtorEq] at h
  all_goals
    obtain ⟨rfl, rfl, rfl⟩ := h
    simp [pending, trusts]

-- The work between two lock operations that does something to the maps or to the counter.
theorem exec_cases (h : pc.exec m = some (next, m')) :
    (∃ connection myId, pc = .insertStart connection myId ∧
      next = .insertEntries m.nextConnId connection myId ∧
      m' = { m with nextConnId := m.nextConnId + 1 }) ∨
    (∃ connId connection myId result, pc = .insertBody connId connection myId ∧
      m.tables.insertConnection connId connection myId = (result, m'.tables) ∧
      next = .unlock [.peerIndex, .entries] (.done <| .inserted result) ∧
      m'.nextConnId = m.nextConnId) ∨
    (∃ connId entry, pc = .removeEntry connId ∧ m.tables.entries.lookup connId = some entry ∧
      next = .removePeerIndex connId entry.connection.remotePeerId ∧
      m' = { m with
        tables := { m.tables with entries := m.tables.entries.erase connId } }) ∨
    (∃ connId peerId, pc = .removeBody connId peerId ∧
      next = .unlock [.peerIndex, .entries] (.done .removed) ∧
      m' = { m with tables := m.tables.removeIndex connId peerId }) ∨
    (m' = m ∧ next.reserved = none ∧ pc.reserved = none ∧ next.pending = none ∧
      pc.pending = none ∧ pc.supersedes m = []) := by
  cases pc <;> simp only [exec, Option.some.injEq, Prod.mk.injEq, reduceCtorEq] at h
  case insertStart connection myId =>
    exact .inl ⟨connection, myId, rfl, h.left.symm, h.right.symm⟩
  case insertBody connId connection myId =>
    refine .inr <| .inl ⟨connId, connection, myId, _, rfl, ?_, h.left.symm, h.right ▸ rfl⟩
    exact h.right ▸ rfl
  case removeEntry connId =>
    split at h
    case h_1 entry he =>
      cases h
      exact .inr <| .inr <| .inl ⟨connId, entry, rfl, he, rfl, rfl⟩
    case h_2 =>
      cases h
      exact .inr <| .inr <| .inr <| .inr ⟨rfl, rfl, rfl, rfl, rfl, rfl⟩
  case removeBody connId peerId =>
    exact .inr <| .inr <| .inr <| .inl ⟨connId, peerId, rfl, h.left.symm, h.right.symm⟩
  case sendLookup | sendRoute =>
    split at h <;> cases h <;>
      exact .inr <| .inr <| .inr <| .inr ⟨rfl, rfl, rfl, rfl, rfl, rfl⟩
  case isConnectedLookup =>
    exact .inr <| .inr <| .inr <| .inr ⟨h.right.symm, h.left ▸ rfl, rfl, h.left ▸ rfl, rfl, rfl⟩

end Pc

theorem Call.start_reserved : c.start.reserved = none := by
  cases c <;> rfl

theorem Call.start_pending : c.start.pending = none := by
  cases c <;> rfl

theorem Exit.pc_reserved (e : Exit ς) : e.pc.reserved = none := by
  cases e <;> rfl

theorem Exit.pc_pending (e : Exit ς) : e.pc.pending = none := by
  cases e <;> rfl

-- No connection id is used twice.
structure Fresh (s : State τ ς) : Prop where
  reserved : ∀ {t connId}, (s.pc t).reserved = some connId → connId < s.manager.nextConnId ∧
    s.manager.tables.entries.lookup connId = none ∧ connId ∉ s.superseded
  distinct : ∀ {t t' connId}, (s.pc t).reserved = some connId → (s.pc t').reserved = some connId →
    t = t'
  entered : ∀ {connId e}, s.manager.tables.entries.lookup connId = some e →
    connId < s.manager.nextConnId
  superseded : ∀ {connId}, connId ∈ s.superseded → connId < s.manager.nextConnId ∧
    s.manager.tables.entries.lookup connId = none

namespace Fresh

omit [DecidableEq τ] in
theorem init : Fresh (.init : State τ ς) where
  reserved h   := by contradiction
  distinct h   := by contradiction
  entered h    := by simp [State.init, ConnectionManager.new, ConnectionTables.empty] at h
  superseded h := by contradiction

-- A step that makes no new entry and reserves no new id.
theorem keep (f : Fresh s) (hs : s'.pc = Function.update s.pc t pc)
    (hm : s'.manager.nextConnId = s.manager.nextConnId) (hd : s'.superseded = s.superseded)
    (hr : pc.reserved = none ∨ pc.reserved = (s.pc t).reserved)
    (he : ∀ {c e}, s'.manager.tables.entries.lookup c = some e →
      s.manager.tables.entries.lookup c = some e) : Fresh s' := by
  have hp : ∀ {t' c}, (s'.pc t').reserved = some c → (s.pc t').reserved = some c := by
    intro t' c h
    rw [hs, Function.update_apply] at h
    split at h
    case isTrue ht =>
      obtain hr | hr := hr
      case inl => rw [hr] at h; contradiction
      case inr => rw [ht, ← hr, h]
    case isFalse => exact h
  have hn : ∀ {c}, s.manager.tables.entries.lookup c = none →
      s'.manager.tables.entries.lookup c = none := by
    intro c h
    by_contra hc
    have ⟨e, hc⟩ := Option.ne_none_iff_exists'.mp hc
    rw [he hc] at h
    contradiction
  constructor
  case reserved =>
    intro t' c h
    have ⟨h₁, h₂, h₃⟩ := f.reserved (hp h)
    exact ⟨hm ▸ h₁, hn h₂, hd ▸ h₃⟩
  case distinct   => exact fun h h' => f.distinct (hp h) (hp h')
  case entered    => exact fun h => hm ▸ f.entered (he h)
  case superseded =>
    intro c h
    have ⟨h₁, h₂⟩ := f.superseded (hd ▸ h)
    exact ⟨hm ▸ h₁, hn h₂⟩

-- The counter runs ahead of all ids in use.
theorem insertStart {connection : Connection ς} {myId : PeerId} (f : Fresh s)
    (hs : s' = { s.goto t (.insertEntries s.manager.nextConnId connection myId) with
      manager := { s.manager with nextConnId := s.manager.nextConnId + 1 } }) : Fresh s' := by
  subst hs
  have hp : ∀ {t' c}, ((s.goto t (.insertEntries s.manager.nextConnId connection myId)).pc
      t').reserved = some c → t' = t ∧ c = s.manager.nextConnId ∨ (s.pc t').reserved = some c := by
    intro t' c h
    by_cases ht : t' = t
    case pos =>
      rw [ht, State.goto_pc_self] at h
      exact .inl ⟨ht, (Option.some.inj h).symm⟩
    case neg => exact .inr <| State.goto_pc_of_ne ht ▸ h
  constructor
  case reserved =>
    intro t' c h
    obtain ⟨_, rfl⟩ | h := hp h
    case inl =>
      refine ⟨Nat.lt_succ_self _, ?_, fun hm => (f.superseded hm).left.false⟩
      by_contra hc
      have ⟨e, he⟩ := Option.ne_none_iff_exists'.mp hc
      exact (f.entered he).false
    case inr =>
      have ⟨h₁, h₂⟩ := f.reserved h
      exact ⟨Nat.lt_succ_of_lt h₁, h₂⟩
  case distinct =>
    intro t₁ t₂ c h₁ h₂
    obtain ⟨h₁, hc⟩ | h₁ := hp h₁ <;> obtain ⟨h₂, hc'⟩ | h₂ := hp h₂
    case inl.inl => exact h₁.trans h₂.symm
    case inl.inr => exact absurd hc (f.reserved h₂).left.ne
    case inr.inl => exact absurd hc' (f.reserved h₁).left.ne
    case inr.inr => exact f.distinct h₁ h₂
  case entered    => exact fun h => Nat.lt_succ_of_lt <| f.entered h
  case superseded => exact fun h => (f.superseded h).imp_left Nat.lt_succ_of_lt

-- A replaced entry is gone for good, since its id was used up.
theorem insertBody {connection : Connection ς} {myId : PeerId} {result : Except Error ConnId}
    (f : Fresh s) (hp : s.pc t = .insertBody connId connection myId)
    (hi : s.manager.tables.insertConnection connId connection myId = (result, m.tables))
    (hn : m.nextConnId = s.manager.nextConnId) (hr : pc.reserved = none)
    (hs : s' = { s.goto t pc with
      manager := m
      superseded := s.superseded ++ (s.pc t).supersedes s.manager }) : Fresh s' := by
  have hc : (s.pc t).reserved = some connId := hp ▸ rfl
  have ⟨hlt, hl, hf⟩ := f.reserved hc
  have hd : ∀ {c}, c ∈ (s.pc t).supersedes s.manager → c < s.manager.nextConnId ∧
      s.manager.tables.entries.contains c ∧ m.tables.entries.lookup c = none := by
    intro c h
    simp only [hp, Pc.supersedes] at h
    split at h
    case isFalse => contradiction
    case isTrue hk =>
      have ⟨hc, hn⟩ := ConnectionTables.lookup_oldConnId hi hk <| Option.mem_toList.mp h
      have ⟨_, he⟩ := Table.contains_eq_true.mp hc
      exact ⟨f.entered he, hc, hn <| by rintro rfl; rw [hl] at he; contradiction⟩
  have he : ∀ {c}, c ≠ connId → s.manager.tables.entries.lookup c = none →
      m.tables.entries.lookup c = none := by
    intro c hne h
    by_contra hc
    have ⟨e, hc⟩ := Option.ne_none_iff_exists'.mp hc
    obtain hc | hc := ConnectionTables.lookup_insertConnection hi hc
    case inl => exact hne hc
    case inr => rw [hc] at h; contradiction
  subst hs
  have hr : ∀ {t' c}, ((s.goto t pc).pc t').reserved = some c →
      t' ≠ t ∧ (s.pc t').reserved = some c := by
    intro t' c h
    by_cases ht : t' = t
    case pos => rw [ht, State.goto_pc_self, hr] at h; contradiction
    case neg => exact ⟨ht, State.goto_pc_of_ne ht ▸ h⟩
  constructor
  case reserved =>
    intro t' c h
    have ⟨ht, h⟩ := hr h
    have ⟨h₁, h₂, h₃⟩ := f.reserved h
    refine ⟨hn ▸ h₁, he (fun hc' => ht <| f.distinct h (hc' ▸ hc)) h₂, fun hm => ?_⟩
    obtain hm | hm := List.mem_append.mp hm
    case inl => exact h₃ hm
    case inr =>
      have ⟨_, hm, _⟩ := hd hm
      rw [Table.contains_eq_false.mpr h₂] at hm
      contradiction
  case distinct => exact fun h h' => f.distinct (hr h).right (hr h').right
  case entered =>
    intro c e h
    obtain hc | hc := ConnectionTables.lookup_insertConnection hi h
    case inl => exact hc ▸ hn ▸ hlt
    case inr => exact hn ▸ f.entered hc
  case superseded =>
    intro c h
    obtain h | h := List.mem_append.mp h
    case inl =>
      have ⟨h₁, h₂⟩ := f.superseded h
      exact ⟨hn ▸ h₁, he (fun hc => hf <| hc ▸ h) h₂⟩
    case inr =>
      have ⟨h₁, _, h₂⟩ := hd h
      exact ⟨hn ▸ h₁, h₂⟩

theorem exec (f : Fresh s) (h : Locking.step s ⟨t, .exec⟩ = some s') : Fresh s' := by
  have ⟨pc, m, he, hs⟩ := step_exec h
  obtain ⟨conn, me, hp, hn, hm⟩ | ⟨n, conn, me, r, hp, hi, hn, hm⟩ | ⟨n, e, hp, hl, hn, hm⟩ |
    ⟨n, q, hp, hn, hm⟩ | ⟨hm, hr, _, _, _, hd⟩ := Pc.exec_cases he
  case inl =>
    subst hm hn
    exact f.insertStart (by simpa [hp, Pc.supersedes] using hs)
  case inr.inl => exact f.insertBody hp hi hm (hn ▸ rfl) hs
  case inr.inr.inl =>
    subst hm hn hs
    refine f.keep rfl rfl (by simp [hp, Pc.supersedes]) (.inl rfl) fun h => ?_
    simp only [Table.lookup_erase, Option.ite_none_left_eq_some] at h
    exact h.right
  case inr.inr.inr.inl =>
    subst hm hn hs
    refine f.keep rfl rfl (by simp [hp, Pc.supersedes]) (.inl rfl) fun h => ?_
    simpa only [ConnectionTables.removeIndex_entries] using h
  case inr.inr.inr.inr =>
    subst hm hs
    exact f.keep rfl rfl (by simp [hd]) (.inl hr) id

theorem step {l : Label τ ς} (f : Fresh s) (h : step s l = some s') : Fresh s' := by
  obtain ⟨t, _ | _ | _ | _ | _ | _⟩ := l
  case call =>
    have ⟨_, hs⟩ := step_call h
    subst hs
    exact f.keep rfl rfl rfl (.inl Call.start_reserved) id
  case acquire =>
    have ⟨k, next, gaveUp, hw, _, hs⟩ := step_acquire h
    subst hs
    refine f.keep rfl rfl rfl ?_ id
    have ⟨hn, hg⟩ := Pc.waits_reserved hw
    split
    case isTrue  => exact .inl hg
    case isFalse => exact .inr hn
  case exec => exact f.exec h
  case panic =>
    have ⟨_, hs⟩ := step_panic h
    subst hs
    exact f.keep rfl rfl rfl (.inl rfl) id
  case release =>
    obtain ⟨_, _, _, _, hs⟩ | ⟨exit, _, hs⟩ := step_release h <;> subst hs
    case inl => exact f.keep rfl rfl rfl (.inl rfl) id
    case inr => exact f.keep rfl rfl rfl (.inl exit.pc_reserved) id
  case «return» =>
    have ⟨_, hs⟩ := step_return h
    subst hs
    exact f.keep rfl rfl rfl (.inl rfl) id

theorem reachable (r : Reachable (system τ ς) s) : Fresh s := by
  refine Invariant.reachable ⟨?_, fun f h => f.step h⟩ r
  rintro _ rfl
  exact init

end Fresh

-- The maps are inverse to each other but for the entry that a thread of `remove` is about to clear
-- from the index.
structure Tidy (s : State τ ς) : Prop where
  inverse : (∀ t, (s.pc t).pending = none) → s.manager.tables.Inverse
  pending : ∀ {t connId peerId}, (s.pc t).pending = some (connId, peerId) →
    (s.manager.tables.removeIndex connId peerId).Inverse ∧ connId ∉ s.superseded

namespace Tidy

omit [DecidableEq τ] in
theorem init : Tidy (.init : State τ ς) where
  inverse _ := ConnectionTables.Inverse.empty
  pending h := by contradiction

omit [DecidableEq τ] in
-- While a thread that is not in the middle of `remove` holds `entries`, no other thread is.
theorem inverse_of_holds (y : Tidy s) (g : Guarded s) (hh : .entries ∈ (s.pc t).holds)
    (hp : (s.pc t).pending = none) : s.manager.tables.Inverse := by
  refine y.inverse fun t' => ?_
  by_contra hc
  have ⟨_, hd⟩ := Option.ne_none_iff_exists'.mp hc
  have := g.exclusive hh <| Pc.holds_of_pending hd
  subst this
  exact hc hp

-- A step that leaves the maps alone and neither begins nor gives up a removal.
theorem keep (y : Tidy s) (hs : s'.pc = Function.update s.pc t pc)
    (hm : s'.manager.tables = s.manager.tables) (hd : s'.superseded = s.superseded)
    (hp : pc.pending = (s.pc t).pending) : Tidy s' := by
  have he : ∀ t', (s'.pc t').pending = (s.pc t').pending := by
    intro t'
    rw [hs, Function.update_apply]
    split
    case isTrue ht => rw [ht, hp]
    case isFalse   => rfl
  constructor
  case inverse => exact fun h => hm ▸ y.inverse fun t' => (he t').symm.trans (h t')
  case pending => exact fun h => hm ▸ hd ▸ y.pending ((he _).symm.trans h)

-- A step of a thread that holds `entries` and is not in the middle of `remove` after it.
theorem settle (g : Guarded s) (hh : .entries ∈ (s.pc t).holds)
    (hs : s'.pc = Function.update s.pc t pc) (hp : pc.pending = none)
    (i : s'.manager.tables.Inverse) : Tidy s' where
  inverse _ := i
  pending {t' connId peerId} h := by
    rw [hs, Function.update_apply] at h
    split at h
    case isTrue  => rw [hp] at h; contradiction
    case isFalse ht => exact absurd (g.exclusive (Pc.holds_of_pending h) hh) ht

theorem exec (y : Tidy s) (g : Guarded s) (f : Fresh s) (h : Locking.step s ⟨t, .exec⟩ = some s') :
    Tidy s' := by
  obtain ⟨pc, m, he, hs⟩ := step_exec h
  subst hs
  obtain ⟨conn, me, hp, hn, hm⟩ | ⟨n, conn, me, r, hp, hi, hn, hm⟩ | ⟨n, e, hp, hl, hn, hm⟩ |
    ⟨n, q, hp, hn, hm⟩ | ⟨hm, _, _, hn, hp, hd⟩ := Pc.exec_cases he
  case inl =>
    subst hm hn
    exact y.keep rfl rfl (by simp [hp, Pc.supersedes]) (by rw [hp]; rfl)
  case inr.inl =>
    have hh : .entries ∈ (s.pc t).holds := by simp [hp, Pc.holds]
    obtain ⟨_, hl, _⟩ := f.reserved (show (s.pc t).reserved = some n from hp ▸ rfl)
    have i := y.inverse_of_holds g hh (hp ▸ rfl)
    exact settle g hh rfl (hn ▸ rfl) <| i.insertConnection hl hi
  case inr.inr.inl =>
    subst hm hn
    have hh : .entries ∈ (s.pc t).holds := by simp [hp, Pc.holds]
    have i := y.inverse_of_holds g hh (hp ▸ rfl)
    have hr : s.manager.tables.remove n = ConnectionTables.removeIndex
        { s.manager.tables with entries := s.manager.tables.entries.erase n } n
        e.connection.remotePeerId := by
      rw [ConnectionTables.remove, hl]
    constructor
    case inverse =>
      intro h
      have := h t
      simp [Pc.pending] at this
    case pending =>
      intro t' c q h
      by_cases ht : t' = t
      case pos =>
        subst ht
        simp only [State.goto_pc_self, Pc.pending, Option.some.injEq, Prod.mk.injEq] at h
        obtain ⟨rfl, rfl⟩ := h
        refine ⟨hr ▸ i.remove, ?_⟩
        simp only [hp, Pc.supersedes, List.append_nil]
        intro hm
        rw [(f.superseded hm).right] at hl
        contradiction
      case neg =>
        simp only [State.goto_pc_of_ne ht] at h
        exact absurd (g.exclusive (Pc.holds_of_pending h) hh) ht
  case inr.inr.inr.inl =>
    subst hm hn
    have hh : .entries ∈ (s.pc t).holds := by simp [hp, Pc.holds]
    exact settle g hh rfl rfl (y.pending (t := t) (hp ▸ rfl)).left
  case inr.inr.inr.inr =>
    subst hm
    exact y.keep rfl rfl (by simp [hd]) (hn.trans hp.symm)

theorem step {l : Label τ ς} (y : Tidy s) (g : Guarded s) (o : Sound s) (f : Fresh s)
    (h : step s l = some s') : Tidy s' := by
  obtain ⟨t, _ | _ | _ | _ | _ | _⟩ := l
  case call =>
    have ⟨hp, hs⟩ := step_call h
    subst hs
    exact y.keep rfl rfl rfl (Call.start_pending.trans <| hp ▸ rfl)
  case acquire =>
    have ⟨k, next, gaveUp, hw, _, hs⟩ := step_acquire h
    subst hs
    refine y.keep rfl rfl rfl ?_
    have ⟨hn, hg, ht⟩ := Pc.waits_pending hw
    split
    case isTrue hk =>
      by_contra hc
      have ⟨htr, hkp⟩ := ht fun hp => hc (hg.trans hp.symm)
      rw [hkp, o.not_poisoned g htr] at hk
      contradiction
    case isFalse => exact hn
  case exec => exact y.exec g f h
  case panic =>
    have ⟨⟨_, _, _, hp⟩, hs⟩ := step_panic h
    subst hs
    exact y.keep rfl rfl rfl (by rw [hp]; rfl)
  case release =>
    obtain ⟨_, _, _, hp, hs⟩ | ⟨exit, hp, hs⟩ := step_release h <;> subst hs
    case inl => exact y.keep rfl rfl rfl (hp ▸ rfl)
    case inr => exact y.keep rfl rfl rfl (exit.pc_pending.trans <| hp ▸ rfl)
  case «return» =>
    have ⟨⟨_, hp⟩, hs⟩ := step_return h
    subst hs
    exact y.keep rfl rfl rfl (hp ▸ rfl)

theorem reachable (r : Reachable (system τ ς) s) : Tidy s := by
  have hr {s : State τ ς} (r : Reachable (system τ ς) s) : Guarded s ∧ Sound s ∧ Fresh s :=
    ⟨.reachable r, .reachable r, .reachable r⟩
  refine Invariant.relative hr ?_ (fun ⟨g, o, f⟩ y h => y.step g o f h) r
  rintro _ rfl
  exact init

end Tidy

end Parsip.Locking
