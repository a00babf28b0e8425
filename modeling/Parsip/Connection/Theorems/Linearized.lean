import Parsip.Connection.Sections
import Parsip.Connection.Theorems.Locking

-- Threads that call the connection manager see nothing of its locks.

namespace Parsip.Locking

open Transition
open Sections (Program)

variable {τ ς : Type} [DecidableEq τ] {s s' : State τ ς} {t t' : τ} {k : Lock} {c : Call ς} {l : Label τ ς}
variable {pc next gaveUp : Pc ς} {m m' : ConnectionManager ς} {connId : ConnId} {b : Bool}
variable {a : Sections.State (Shared ς) τ (Section ς) (Answer ς) (Reply ς)}

-- What is left to do of the call that a thread is in.
def Exit.rest : Exit ς → Program (Section ς) (Answer ς) (Reply ς)
  | sendEntries connId => Section.routing connId
  | done reply         => .done reply
  | panicked           => .crashed

namespace Pc

def rest : Pc ς → Option (Program (Section ς) (Answer ς) (Reply ς))
  | idle                                       => none
  | insertStart connection myId                => some (Call.insertConnection connection myId).program
  | insertEntries connId connection myId       => some <| Section.inserting connId connection myId
  | insertPeerIndex connId connection myId     => some <| Section.inserting connId connection myId
  | insertBody connId connection myId          => some <| Section.inserting connId connection myId
  | removeEntries connId | removeEntry connId  => some <| Section.removing connId
  | removePeerIndex connId _                   => some <| Section.removing connId
  | removeBody connId _                        => some <| Section.removing connId
  | sendPeerIndex peerId | sendLookup peerId   => some <| Section.sending peerId
  | sendEntries connId | sendRoute connId      => some <| Section.routing connId
  | isConnectedPeerIndex peerId                => some <| Section.asking peerId
  | isConnectedLookup peerId                   => some <| Section.asking peerId
  | unlock _ exit                              => some exit.rest
  | done reply                                 => some <| .done reply
  | panicked                                   => some .crashed

-- A thread that has found its locks in order.
def works : Pc ς → Prop
  | insertPeerIndex .. | insertBody .. | removeEntry .. | removePeerIndex .. | removeBody .. | sendLookup .. |
    sendRoute .. | isConnectedLookup .. => True
  | _                                   => False

theorem holds_of_works (h : pc.works) : pc.holds ≠ [] := by
  cases pc <;> simp [works] at h <;> simp [holds]

-- Taking a lock does nothing that could be seen.
theorem waits_rest (h : pc.waits = some (k, next, gaveUp)) : next.rest = pc.rest := by
  cases pc <;> simp only [waits, Option.some.injEq, Prod.mk.injEq, reduceCtorEq] at h
  all_goals
    obtain ⟨_, rfl, _⟩ := h
    rfl

-- Behind the first lock that a thread finds poisoned, its section comes to nothing.
theorem waits_refused (h : pc.waits = some (k, next, gaveUp)) (hw : ¬pc.works) :
    ∃ a r f, pc.rest = some (.act a f) ∧ a.refused = some r ∧ gaveUp.rest = some (f r) := by
  cases pc <;> simp only [waits, Option.some.injEq, Prod.mk.injEq, reduceCtorEq] at h
  case insertPeerIndex | removePeerIndex => exact absurd trivial hw
  all_goals
    obtain ⟨_, _, rfl⟩ := h
    exact ⟨_, _, _, rfl, rfl, rfl⟩

theorem waits_works (h : pc.waits = some (k, next, gaveUp)) : ¬gaveUp.works := by
  cases pc <;> simp only [waits, Option.some.injEq, Prod.mk.injEq, reduceCtorEq] at h
  all_goals
    obtain ⟨_, _, rfl⟩ := h
    exact id

theorem unwinds_holds {guards : List Lock} (h : pc.unwinds = some guards) : pc.holds = guards := by
  cases pc <;> simp [unwinds] at h
  exact h.right

end Pc

theorem Call.start_rest : c.start.rest = some c.program := by
  cases c <;> rfl

theorem Call.start_works : ¬c.start.works := by
  cases c <;> exact id

theorem Exit.pc_rest (e : Exit ς) : e.pc.rest = some e.rest := by
  cases e <;> rfl

theorem Exit.pc_works (e : Exit ς) : ¬e.pc.works := by
  cases e <;> exact id

-- The object is ahead of the maps by nothing, and behind them by the first half of a removal.
structure Mirrors (m : ConnectionManager ς) (s : State τ ς) : Prop where
  nextConnId : m.nextConnId = s.manager.nextConnId
  peerIndex : m.tables.peerIndex = s.manager.tables.peerIndex
  entries : (∀ t, (s.pc t).pending = none) → m.tables.entries = s.manager.tables.entries
  pending : ∀ {t connId peerId}, (s.pc t).pending = some (connId, peerId) →
    s.manager.tables.entries = m.tables.entries.erase connId ∧
      ∃ e, m.tables.entries.lookup connId = some e ∧ e.connection.remotePeerId = peerId

namespace Mirrors

omit [DecidableEq τ] in
theorem init : Mirrors (.new : ConnectionManager ς) (.init : State τ ς) where
  nextConnId := rfl
  peerIndex := rfl
  entries _ := rfl
  pending h := by contradiction

-- A step that leaves the manager alone and neither begins nor ends a removal.
theorem keep (i : Mirrors m s) (hs : s'.pc = Function.update s.pc t pc) (hm : s'.manager = s.manager)
    (hp : pc.pending = (s.pc t).pending) : Mirrors m s' := by
  have he : ∀ t', (s'.pc t').pending = (s.pc t').pending := by
    intro t'
    rw [hs, Function.update_apply]
    split
    case isTrue ht => rw [ht, hp]
    case isFalse   => rfl
  constructor
  case nextConnId => exact hm ▸ i.nextConnId
  case peerIndex  => exact hm ▸ i.peerIndex
  case entries    => exact fun h => hm ▸ i.entries fun t' => (he t').symm.trans (h t')
  case pending    => exact fun h => hm ▸ i.pending ((he _).symm.trans h)

theorem reserve (i : Mirrors m s) (hs : s'.pc = Function.update s.pc t pc)
    (hm : s'.manager = { s.manager with nextConnId := s.manager.nextConnId + 1 })
    (hp : pc.pending = (s.pc t).pending) : Mirrors { m with nextConnId := m.nextConnId + 1 } s' := by
  have k : Mirrors m { s' with manager := s.manager } := i.keep hs rfl hp
  constructor
  case nextConnId => rw [hm, k.nextConnId]
  case peerIndex  => exact hm ▸ k.peerIndex
  case entries    => exact fun h => hm ▸ k.entries h
  case pending    => exact fun h => hm ▸ k.pending h

omit [DecidableEq τ] in
theorem eq_of_entries (i : Mirrors m s) (he : m.tables.entries = s.manager.tables.entries) : m = s.manager := by
  have hn := i.nextConnId
  have hi := i.peerIndex
  generalize s.manager = m₀ at he hn hi ⊢
  obtain ⟨⟨_, _⟩, _⟩ := m
  obtain ⟨⟨_, _⟩, _⟩ := m₀
  subst he hn hi
  rfl

omit [DecidableEq τ] in
-- While a thread that is not in the middle of a removal holds `entries`, nobody is.
theorem eq (i : Mirrors m s) (g : Guarded s) (hh : .entries ∈ (s.pc t).holds) (hp : (s.pc t).pending = none) :
    m = s.manager := by
  refine i.eq_of_entries <| i.entries fun t' => ?_
  by_contra hc
  have ⟨_, hd⟩ := Option.ne_none_iff_exists'.mp hc
  cases g.exclusive hh <| Pc.holds_of_pending hd
  exact hc hp

-- A step of a thread that holds `entries` and is not in the middle of a removal after it.
theorem settle (g : Guarded s) (hh : .entries ∈ (s.pc t).holds) (hs : s'.pc = Function.update s.pc t pc)
    (hp : pc.pending = none) (hm : m = s'.manager) : Mirrors m s' := by
  constructor
  case nextConnId => exact hm ▸ rfl
  case peerIndex  => exact hm ▸ rfl
  case entries    => exact fun _ => hm ▸ rfl
  case pending =>
    intro t' connId peerId h
    rw [hs, Function.update_apply] at h
    split at h
    case isTrue     => rw [hp] at h; contradiction
    case isFalse ht => exact absurd (g.exclusive (Pc.holds_of_pending h) hh) ht

-- The first half of a removal.
theorem takeOut {e : ConnectionEntry ς} (g : Guarded s) (hh : .entries ∈ (s.pc t).holds)
    (hs : s'.pc = Function.update s.pc t (.removePeerIndex connId e.connection.remotePeerId))
    (he : s.manager.tables.entries.lookup connId = some e)
    (hm : s'.manager = { s.manager with
      tables := { s.manager.tables with entries := s.manager.tables.entries.erase connId } }) :
    Mirrors s.manager s' := by
  constructor
  case nextConnId => exact hm ▸ rfl
  case peerIndex  => exact hm ▸ rfl
  case entries =>
    intro h
    have := hs ▸ h t
    rw [Function.update_self] at this
    contradiction
  case pending =>
    intro t' c q h
    rw [hs, Function.update_apply] at h
    split at h
    case isTrue =>
      cases h
      exact ⟨hm ▸ rfl, e, he, rfl⟩
    case isFalse ht => exact absurd (g.exclusive (Pc.holds_of_pending h) hh) ht

omit [DecidableEq τ] in
-- The second half completes it.
theorem putOut {p : PeerId} (i : Mirrors m s) (hp : (s.pc t).pending = some (connId, p)) :
    m.remove connId = { s.manager with tables := s.manager.tables.removeIndex connId p } := by
  have ⟨he, e, hl, hr⟩ := i.pending hp
  have hn := i.nextConnId
  have hi := i.peerIndex
  subst hr
  generalize s.manager = m₀ at he hn hi ⊢
  obtain ⟨⟨_, _⟩, _⟩ := m₀
  subst he hn hi
  simp only [ConnectionManager.remove, ConnectionTables.remove, hl]

end Mirrors

-- The object is poisoned from the panic on, each lock from when the guard is dropped.
structure Taints (b : Bool) (s : State τ ς) : Prop where
  poisoned : ∀ k, b = true ↔ s.poisoned k = true ∨ ∃ t guards, (s.pc t).unwinds = some guards ∧ k ∈ guards
  works : ∀ {t}, (s.pc t).works → b = false

namespace Taints

omit [DecidableEq τ] in
theorem init : Taints false (.init : State τ ς) where
  poisoned k := by simp [State.init, Pc.unwinds]
  works _ := rfl

-- A step that poisons no lock.
theorem keep (i : Taints b s) (hs : s'.pc = Function.update s.pc t pc) (hp : s'.poisoned = s.poisoned)
    (hu : ∀ k, (∃ guards, pc.unwinds = some guards ∧ k ∈ guards) ↔ ∃ guards, (s.pc t).unwinds = some guards ∧ k ∈ guards)
    (hw : pc.works → b = false) : Taints b s' := by
  constructor
  case poisoned =>
    intro k
    rw [i.poisoned k, hp]
    refine or_congr_right <| exists_congr fun t' => ?_
    rw [hs, Function.update_apply]
    split
    case isTrue ht => rw [ht]; exact (hu k).symm
    case isFalse   => rfl
  case works =>
    intro t' h
    rw [hs, Function.update_apply] at h
    split at h
    case isTrue  => exact hw h
    case isFalse => exact i.works h

omit [DecidableEq τ] in
-- A lock that is free and in order has not been poisoned, and nobody is about to poison it.
theorem of_free (i : Taints b s) (g : Guarded s) (hk : s.holder k = none) (hp : s.poisoned k = false) : b = false := by
  refine Bool.eq_false_iff.mpr fun hb => ?_
  obtain hc | ⟨t, guards, hu, hm⟩ := (i.poisoned k).mp hb
  case inl => rw [hp] at hc; contradiction
  case inr =>
    have hm : k ∈ (s.pc t).holds := by rwa [Pc.unwinds_holds hu]
    exact g.agrees.not_held hk t hm

omit [DecidableEq τ] in
-- While nobody holds `entries`, nobody is about to poison a lock.
theorem eq (i : Taints b s) (g : Guarded s) (o : Sound s) (hn : s.holder .entries = none) (k : Lock) :
    s.poisoned k = b := by
  refine Bool.eq_iff_iff.mpr ⟨fun h => (i.poisoned k).mpr (.inl h), fun hb => ?_⟩
  refine ((i.poisoned k).mp hb).resolve_right ?_
  rintro ⟨t, guards, hu, hm⟩
  have he : .entries ∈ guards := by
    have hs := o.unwinding hu
    simp only [List.suffix_cons_iff, List.suffix_nil] at hs
    obtain rfl | rfl | rfl := hs
    case inl | inr.inl => simp
    case inr.inr       => contradiction
  have hh : .entries ∈ (s.pc t).holds := Pc.unwinds_holds hu ▸ he
  exact g.agrees.not_held hn t hh

theorem release {guards : List Lock} {exit : Exit ς} (i : Taints b s)
    (hp : s.pc t = .unlock (k :: guards) exit)
    (hs : s' = { s.goto t (.unlock guards exit) with
      holder := Function.update s.holder k none
      poisoned := Function.update s.poisoned k (exit.poisons || s.poisoned k) }) : Taints b s' := by
  cases he : exit.poisons
  case false =>
    have hu : s'.pc = Function.update s.pc t (.unlock guards exit) := hs ▸ rfl
    refine i.keep hu ?_ ?_ False.elim
    · simp [hs, he, Function.update_eq_self]
    · simp [hp, Pc.unwinds, he]
  case true =>
    have hu : (s.pc t).unwinds = some (k :: guards) := by simp [hp, Pc.unwinds, he]
    have hb : b = true := (i.poisoned k).mpr <| .inr ⟨t, _, hu, List.mem_cons_self ..⟩
    subst hs
    constructor
    case poisoned =>
      intro k'
      refine iff_of_true hb ?_
      show Function.update s.poisoned k _ k' = true ∨ ∃ t' guards', (Pc.unwinds ((s.goto t _).pc t')) = some guards' ∧ k' ∈ guards'
      by_cases hk : k' = k
      case pos => simp [hk, he]
      case neg =>
        rw [Function.update_of_ne hk]
        refine ((i.poisoned k').mp hb).imp_right ?_
        rintro ⟨t', guards', hu', hm⟩
        by_cases ht : t' = t
        case pos =>
          subst ht
          cases hu.symm.trans hu'
          exact ⟨t', guards, by simp [Pc.unwinds, he], (List.mem_cons.mp hm).resolve_left hk⟩
        case neg => exact ⟨t', guards', by simp only [State.goto_pc_of_ne ht, hu'], hm⟩
    case works =>
      intro t' h
      by_cases ht : t' = t
      case pos => subst ht; simp only [State.goto_pc_self] at h; contradiction
      case neg => simp only [State.goto_pc_of_ne ht] at h; exact i.works h

end Taints

-- An object that shows what the threads and their locks show.
structure Linked (a : Sections.State (Shared ς) τ (Section ς) (Answer ς) (Reply ς)) (s : State τ ς) : Prop where
  mirrors : Mirrors a.object.manager s
  taints : Taints a.object.poisoned s
  running : ∀ t, a.running t = (s.pc t).rest

namespace Linked

-- The rest of a call after a step of its thread.
theorem running_goto {q : Option (Program (Section ς) (Answer ς) (Reply ς))} (i : Linked a s)
    (hs : s'.pc = Function.update s.pc t pc) (hr : pc.rest = q) (t' : τ) :
    (a.set t q).running t' = (s'.pc t').rest := by
  rw [hs]
  by_cases ht : t' = t
  case pos => rw [ht, Sections.State.set_running_self, Function.update_self, hr]
  case neg => rw [Sections.State.set_running_of_ne ht, Function.update_of_ne ht, i.running]

-- A step that the object takes no notice of.
theorem stutter (i : Linked a s) (hs : s'.pc = Function.update s.pc t pc) (hr : pc.rest = (s.pc t).rest)
    (hm : Mirrors a.object.manager s') (ht : Taints a.object.poisoned s') : Linked a s' := by
  refine ⟨hm, ht, fun t' => ?_⟩
  have h := i.running_goto hs hr t'
  rwa [Sections.State.set, ← i.running, Function.update_eq_self] at h

theorem call (i : Linked a s) (h : Locking.step s ⟨t, .call c⟩ = some s') :
    ∃ a', Linked a' s' ∧ Trace (sections τ ς) Sections.observe a [.call t c] a' := by
  have ⟨hp, hs⟩ := step_call h
  have hn : (s.pc t).unwinds = none := by rw [hp]; rfl
  subst hs
  refine ⟨a.set t (some c.program), ⟨?_, ?_, ?_⟩, Sections.Trace.call <| by rw [i.running, hp]; rfl⟩
  case refine_1 => exact i.mirrors.keep rfl rfl (Call.start_pending.trans <| hp ▸ rfl)
  case refine_2 => exact i.taints.keep rfl rfl (by simp [Call.start_unwinds, hn]) fun h => absurd h Call.start_works
  case refine_3 => exact i.running_goto rfl Call.start_rest

theorem acquire (i : Linked a s) (g : Guarded s) (o : Sound s) (h : Locking.step s ⟨t, .acquire⟩ = some s') :
    ∃ a', Linked a' s' ∧ Trace (sections τ ς) Sections.observe a [] a' := by
  obtain ⟨k, next, gaveUp, hw, hk, hs⟩ := step_acquire h
  have ⟨hu, hn, hg⟩ := Pc.unwinds_of_waits hw
  have ⟨hd, hd', hd''⟩ := Pc.waits_pending hw
  cases hp : s.poisoned k <;> simp only [hp, Bool.false_eq_true, if_false, if_true] at hs <;> subst hs
  case false =>
    have hb := i.taints.of_free g hk hp
    refine ⟨a, i.stutter (t := t) rfl (Pc.waits_rest hw) ?_ ?_, .refl⟩
    case refine_1 => exact i.mirrors.keep rfl rfl hd
    case refine_2 => exact i.taints.keep rfl rfl (by simp [hu, hn]) fun _ => hb
  case true =>
    have hb : a.object.poisoned = true := (i.taints.poisoned k).mpr (.inl hp)
    have hw' : ¬(s.pc t).works := fun h => by rw [i.taints.works h] at hb; contradiction
    obtain ⟨sec, r, f, hr, hf, hg'⟩ := Pc.waits_refused hw hw'
    have ha : Apply a.object sec r a.object := by
      obtain ⟨⟨m, b⟩, _⟩ := a
      cases hb
      exact .refuse hf
    refine ⟨_, ⟨?_, ?_, ?_⟩, Sections.Trace.act ((i.running t).trans hr) ha⟩
    case refine_1 =>
      refine i.mirrors.keep rfl rfl (hd'.trans <| Eq.symm ?_)
      by_contra hc
      have ⟨htr, hkp⟩ := hd'' hc
      rw [hkp, o.not_poisoned g htr] at hp
      contradiction
    case refine_2 => exact i.taints.keep rfl rfl (by simp [hu, hg]) fun h => absurd h (Pc.waits_works hw)
    case refine_3 => exact i.running_goto rfl hg'

-- The work of a thread under its locks.
theorem act {sec : Section ς} {r : Answer ς} {f : Answer ς → Program (Section ς) (Answer ς) (Reply ς)}
    (i : Linked a s) (hs : s'.pc = Function.update s.pc t pc) (hr : (s.pc t).rest = some (.act sec f))
    (ha : Apply a.object sec r ⟨m, b⟩) (hn : pc.rest = some (f r)) (hm : Mirrors m s') (ht : Taints b s') :
    ∃ a', Linked a' s' ∧ Trace (sections τ ς) Sections.observe a [] a' :=
  ⟨{ a.set t (f r) with object := ⟨m, b⟩ }, ⟨hm, ht, i.running_goto hs hn⟩,
    Sections.Trace.act ((i.running t).trans hr) ha⟩

theorem exec (i : Linked a s) (g : Guarded s) (h : Locking.step s ⟨t, .exec⟩ = some s') :
    ∃ a', Linked a' s' ∧ Trace (sections τ ς) Sections.observe a [] a' := by
  obtain ⟨pc, m, he, hs⟩ := step_exec h
  have ⟨hu, hn⟩ := Pc.unwinds_of_exec he
  have ht (hw : pc.works → a.object.poisoned = false) : Taints a.object.poisoned s' := by
    subst hs
    exact i.taints.keep rfl rfl (by simp [hu, hn]) hw
  have hq : s'.pc = Function.update s.pc t pc := hs ▸ rfl
  have hm : s'.manager = m := hs ▸ rfl
  have hb (hw : (s.pc t).works) : a.object.poisoned = false := i.taints.works hw
  have hx (hh : .entries ∈ (s.pc t).holds) (hd : (s.pc t).pending = none) : a.object.manager = s.manager :=
    i.mirrors.eq g hh hd
  have hk (hm : s'.manager = s.manager) (hd : pc.pending = (s.pc t).pending) : Mirrors a.object.manager s' :=
    i.mirrors.keep hq hm hd
  clear hs
  generalize ho : a.object = o at ht hb hx hk
  obtain ⟨m₀, b⟩ := o
  have act {sec : Section ς} {r : Answer ς} {f : Answer ς → Program (Section ς) (Answer ς) (Reply ς)} {m' b'}
      (hr : (s.pc t).rest = some (.act sec f)) (ha : Apply ⟨m₀, b⟩ sec r ⟨m', b'⟩) (hn : pc.rest = some (f r))
      (hm : Mirrors m' s') (ht : Taints b' s') := i.act hq hr (ho ▸ ha) hn hm ht
  cases hp : s.pc t <;> rw [hp] at he <;> simp only [Pc.exec, Option.some.injEq, Prod.mk.injEq, reduceCtorEq] at he
  all_goals rw [hp] at hb hx hk act
  case insertStart connection myId =>
    obtain ⟨rfl, he⟩ := he
    have hd := i.mirrors.nextConnId
    simp only [ho] at hd
    refine act rfl .reserve (by rw [hd]; rfl) ?_ (ht False.elim)
    exact (ho ▸ i.mirrors).reserve hq (hm.trans he.symm) (by rw [hp]; rfl)
  case insertBody connId connection myId =>
    obtain ⟨rfl, he⟩ := he
    obtain rfl := hx (by simp [Pc.holds]) rfl
    obtain rfl := hb trivial
    refine act rfl (.insert rfl) rfl ?_ (ht False.elim)
    exact .settle g (by simp [hp, Pc.holds]) hq rfl <| he.trans hm.symm
  case removeEntry connId =>
    obtain rfl := hx (by simp [Pc.holds]) rfl
    obtain rfl := hb trivial
    have hh : .entries ∈ (s.pc t).holds := by simp [hp, Pc.holds]
    split at he <;> cases he
    case h_1 e hl =>
      refine ⟨a, i.stutter hq (hp ▸ rfl) ?_ ?_, .refl⟩
      case refine_1 => exact ho ▸ .takeOut g hh hq hl hm
      case refine_2 => exact ho ▸ ht fun _ => rfl
    case h_2 hl =>
      refine act rfl .remove rfl ?_ (ht False.elim)
      refine .settle g hh hq rfl ?_
      rw [hm, ConnectionManager.remove, ConnectionTables.remove_of_absent hl]
  case removeBody connId peerId =>
    obtain ⟨rfl, he⟩ := he
    obtain rfl := hb trivial
    refine act rfl .remove rfl ?_ (ht False.elim)
    refine .settle g (by simp [hp, Pc.holds]) hq rfl ?_
    rw [hm, ← he]
    exact (ho ▸ i.mirrors).putOut (t := t) (hp ▸ rfl)
  case sendLookup peerId =>
    obtain rfl := hb trivial
    have hl := i.mirrors.peerIndex
    simp only [ho] at hl
    split at he <;> cases he
    case h_1 connId hc =>
      refine act rfl .lookUp ?_ (hk hm rfl) (ht False.elim)
      rw [hl, hc]
      rfl
    case h_2 hc =>
      refine act rfl .lookUp ?_ (hk hm rfl) (ht False.elim)
      rw [hl, hc]
      rfl
  case sendRoute connId =>
    obtain rfl := hx (by simp [Pc.holds]) rfl
    obtain rfl := hb trivial
    split at he <;> cases he
    case h_1 e hc =>
      refine act rfl .route ?_ (hk hm rfl) (ht False.elim)
      rw [hc]
      rfl
    case h_2 hc =>
      refine act rfl .route ?_ (hk hm rfl) (ht False.elim)
      rw [hc]
      rfl
  case isConnectedLookup peerId =>
    obtain ⟨rfl, rfl⟩ := he
    obtain rfl := hb trivial
    have hl := congrArg (·.contains peerId) i.mirrors.peerIndex
    simp only [ho] at hl
    refine act rfl .isConnected ?_ (hk hm rfl) (ht False.elim)
    rw [show m₀.tables.isConnected peerId = s.manager.tables.isConnected peerId from hl]
    rfl

theorem panic (i : Linked a s) (g : Guarded s) (h : Locking.step s ⟨t, .panic⟩ = some s') :
    ∃ a', Linked a' s' ∧ Trace (sections τ ς) Sections.observe a [] a' := by
  have hc : (s.pc t).panics s.manager := (Option.ite_none_right_eq_some.mp h).left
  obtain ⟨⟨connId, connection, myId, hp⟩, hs⟩ := step_panic h
  have hh : .entries ∈ (s.pc t).holds := by simp [hp, Pc.holds]
  have hm := i.mirrors.eq g hh (hp ▸ rfl)
  have hb := i.taints.works (t := t) (hp ▸ trivial)
  rw [hp] at hc hs
  have ho : a.object = ⟨s.manager, false⟩ := by rw [← hm, ← hb]
  have ha : Apply a.object (.insert connId connection myId) .panicked ⟨s.manager, true⟩ := ho ▸ .panic hc
  subst hs
  refine i.act rfl (by rw [hp]; rfl) ha rfl (.settle g hh rfl rfl rfl) ⟨?_, ?_⟩
  case refine_1 =>
    refine fun k => iff_of_true rfl <| .inr ⟨t, [.peerIndex, .entries], by simp [Pc.unwinds, Exit.poisons, Pc.holds], ?_⟩
    cases k <;> simp
  case refine_2 =>
    intro t' hw
    by_cases ht : t' = t
    case pos =>
      rw [ht, State.goto_pc_self] at hw
      contradiction
    case neg =>
      -- Nobody else is at work, because both locks are taken.
      rw [State.goto_pc_of_ne ht] at hw
      obtain ⟨k, hk⟩ := List.exists_mem_of_ne_nil _ <| Pc.holds_of_works hw
      refine absurd (g.exclusive hk ?_) ht
      cases k <;> simp [hp, Pc.holds]

theorem release (i : Linked a s) (h : Locking.step s ⟨t, .release⟩ = some s') :
    ∃ a', Linked a' s' ∧ Trace (sections τ ς) Sections.observe a [] a' := by
  obtain ⟨k, guards, exit, hp, hs⟩ | ⟨exit, hp, hs⟩ := step_release h <;> subst hs
  case inr =>
    refine ⟨a, i.stutter (t := t) rfl ?_ ?_ ?_, .refl⟩
    case refine_1 => rw [hp, exit.pc_rest]; rfl
    case refine_2 => exact i.mirrors.keep rfl rfl (exit.pc_pending.trans <| hp ▸ rfl)
    case refine_3 =>
      refine i.taints.keep rfl rfl ?_ fun h => absurd h exit.pc_works
      intro k
      rw [exit.pc_unwinds, hp]
      simp [Pc.unwinds]
  case inl =>
    refine ⟨a, i.stutter (t := t) rfl ?_ ?_ ?_, .refl⟩
    case refine_1 => rw [hp]; rfl
    case refine_2 => exact i.mirrors.keep rfl rfl (hp ▸ rfl)
    case refine_3 => exact i.taints.release hp rfl

theorem «return» (i : Linked a s) {reply : Reply ς} (hp : s.pc t = .done reply)
    (h : Locking.step s ⟨t, .return⟩ = some s') :
    ∃ a', Linked a' s' ∧ Trace (sections τ ς) Sections.observe a [.return t reply] a' := by
  have ⟨_, hs⟩ := step_return h
  subst hs
  refine ⟨a.set t none, ⟨?_, ?_, ?_⟩, Sections.Trace.return <| by rw [i.running, hp]; rfl⟩
  case refine_1 => exact i.mirrors.keep rfl rfl (hp ▸ rfl)
  case refine_2 => exact i.taints.keep rfl rfl (by simp [hp, Pc.unwinds]) False.elim
  case refine_3 => exact i.running_goto rfl rfl

theorem step (i : Linked a s) (g : Guarded s) (o : Sound s) (h : Locking.step s l = some s') :
    ∃ a', Linked a' s' ∧ Trace (sections τ ς) Sections.observe a (observe s l).toList a' := by
  obtain ⟨t, _ | _ | _ | _ | _ | _⟩ := l
  case call     => exact i.call h
  case acquire  => exact i.acquire g o h
  case exec     => exact i.exec g h
  case panic    => exact i.panic g h
  case release  => exact i.release h
  case «return» =>
    obtain ⟨⟨reply, hp⟩, _⟩ := step_return h
    have ho : observe s ⟨t, .return⟩ = some (.return t reply) := by rw [observe, hp]
    exact ho ▸ i.return hp h

end Linked

-- Whatever the threads do, they see what they would see if each of their sections took place at once, and when
-- nobody holds `entries` the maps, the counter and the poison flags are those that the sections have led to.
theorem linearized {os : List (Sections.Event τ (Call ς) (Reply ς))} (r : Trace (system τ ς) observe .init os s) :
    ∃ a, Trace (sections τ ς) Sections.observe ⟨⟨.new, false⟩, fun _ => none⟩ os a ∧
      (∀ t, a.running t = (s.pc t).rest) ∧ (s.holder .entries = none →
        a.object.manager = s.manager ∧ ∀ k, s.poisoned k = a.object.poisoned) := by
  obtain ⟨a, ⟨g, o, i⟩, r'⟩ : ∃ a, (Guarded s ∧ Sound s ∧ Linked a s) ∧
      Trace (sections τ ς) Sections.observe ⟨⟨.new, false⟩, fun _ => none⟩ os a := by
    refine r.simulate (R := fun s a => Guarded s ∧ Sound s ∧ Linked a s) ?_ ⟨.init, .init, .init, .init, fun _ => rfl⟩
    rintro s l s' a ⟨g, o, i⟩ h
    have ⟨a', i', r⟩ := i.step g o h
    exact ⟨a', ⟨g.step h, o.step g h, i'⟩, r⟩
  refine ⟨a, r', i.running, fun hn => ?_⟩
  have he := i.mirrors.entries fun t => by
    by_contra hc
    have ⟨_, hd⟩ := Option.ne_none_iff_exists'.mp hc
    exact g.agrees.not_held hn t <| Pc.holds_of_pending hd
  exact ⟨i.mirrors.eq_of_entries he, i.taints.eq g o hn⟩

-- Two connections to one peer are inserted, and the second one replaces the first.
def replacing : List (Sections.Event Nat (Call Unit) (Reply Unit)) :=
  let conn : Connection Unit := ⟨⟨.replicate 32 1⟩, .outgoing, ()⟩
  let call := .insertConnection conn ⟨.replicate 32 9⟩
  [.call 0 call, .return 0 (.inserted (.ok 1)), .call 1 call, .return 1 (.inserted (.ok 2)), .call 0 (.remove 1)]

theorem linearized_replacing : ∃ s, Trace (system Nat Unit) observe .init replacing s ∧
    ∃ a, Trace (sections Nat Unit) Sections.observe ⟨⟨.new, false⟩, fun _ => none⟩ replacing a ∧
      (∀ t, a.running t = (s.pc t).rest) ∧ (s.holder .entries = none →
        a.object.manager = s.manager ∧ ∀ k, s.poisoned k = a.object.poisoned) := by
  have hs : (replacement.foldlM step State.init).isSome := by decide
  have r : Trace (system Nat Unit) observe .init replacing ((replacement.foldlM step State.init).get hs) :=
    .ofFn (Option.some_get hs).symm rfl
  exact ⟨_, r, linearized r⟩

end Parsip.Locking
