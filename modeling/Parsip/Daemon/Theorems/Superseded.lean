import Mathlib.Logic.Relation
import Parsip.Daemon.Theorems.EventHandler
import Parsip.Daemon.Theorems.Node

-- What the end of a connection does after another one has replaced it.

namespace Parsip.Node

open Transition

-- The next event is the end of a connection of `p` that has been replaced, by one that is established or by one
-- that has been replaced by it in turn.
def SupersededEnd (s : Node) (p : PeerId) : Prop :=
  ∃ c c' entry events, s.events = ⟨some c, .disconnected p⟩ :: events ∧
    Relation.TransGen (fun c c' => s.replacedBy c = some c') c c' ∧
    s.manager.tables.entries.lookup c' = some entry ∧ entry.state = .established ∧
    entry.connection.remotePeerId = p

-- No transfer of `p` is cancelled, no download, no request, and no client is told of an error.
structure Unhurt (s s' : Node) (p : PeerId) : Prop where
  transfers : ∀ {r t}, s.daemon.transferMgr.transfers.lookup r = some t → t.peerId = p →
    s'.daemon.transferMgr.transfers.lookup r = some t
  downloads : ∀ {id download}, s.daemon.downloadMgr.downloads.lookup id = some download →
    s'.daemon.downloadMgr.downloads.lookup id = some download
  pending   : ∀ {r sender}, s.daemon.reqTracker.get r = some sender →
    s'.daemon.reqTracker.get r = some sender
  silent    : ∃ fx, s'.effects = s.effects ++ fx ∧ ∀ sender m, .respond sender (.error m) ∉ fx

-- There is no transfer of `p`.
def Idle (s : Node) (p : PeerId) : Prop :=
  ∀ {r t}, s.daemon.transferMgr.transfers.lookup r = some t → t.peerId ≠ p

variable [Crypto] {me p : PeerId} {s₀ s s' : Node} {l : Label} {ls : List Label} {env : Env}

theorem step_disconnected {c : Option ConnId} {events : List QueuedEvent}
    (he : s.events = ⟨c, .disconnected p⟩ :: events) (h : s.step me (.handle env) = some s') :
    ∃ env d fx, s.daemon.disconnected env p = (d, fx) ∧
      s' = { s with daemon := d, events, effects := s.effects ++ fx } := by
  simp only [step, handle, he, Daemon.handleEvent] at h
  exact ⟨_, _, _, rfl, (Option.some.inj h).symm⟩

-- Nothing in the event tells the connection that has ended from the one that has not.
theorem unhurt_iff (h : s.step me (.handle env) = some s') (e : s.SupersededEnd p) :
    s.Unhurt s' p ↔ s.Idle p := by
  obtain ⟨c, _, _, events, he, _⟩ := e
  have ⟨env, d, fx, hd, hs⟩ := step_disconnected he h
  constructor
  case mp =>
    intro u r t ht hp
    have := u.transfers ht hp
    rw [hs, (Daemon.disconnected_spec hd).right, TransferManager.cancelForPeer_lookup, ht] at this
    simp [Option.filter, hp] at this
  case mpr =>
    intro i
    rw [Daemon.disconnected_of_none i] at hd
    cases hd
    subst hs
    exact ⟨fun ht _ => ht, id, id, [], rfl, nofun⟩

-- In a run, the end of a superseded connection is always harmless exactly when there is never a
-- transfer of the peer at that moment.
theorem superseded_unhurt_iff :
    (system me).Throughout s₀ ls s (fun s l s' => ∀ env p, l = .handle env → s.SupersededEnd p → s.Unhurt s' p) ↔
      (system me).Throughout s₀ ls s (fun s l _ => ∀ env p, l = .handle env → s.SupersededEnd p → s.Idle p) := by
  refine Run.throughout_iff fun _ h => forall₄_congr fun env p he e => ?_
  exact unhurt_iff (he ▸ h) e

-- The tables are consistent, and a connection that has been replaced has left them.
structure Sound (s : Node) : Prop where
  consistent : s.manager.Consistent
  replaced   : ∀ {c c'}, s.replacedBy c = some c' →
    c < s.manager.nextConnId ∧ s.manager.tables.entries.lookup c = none

namespace Sound

omit [Crypto]

theorem init (h : Initial s) : Sound s := by
  obtain ⟨_, _, _, rfl⟩ := h
  exact ⟨.new, nofun⟩

theorem register {connection : Connection Unit} (k : Sound s) : Sound (s.register me connection) := by
  cases h : s.manager.tables.insertConnection s.manager.nextConnId connection me
  case mk result t =>
    have hm : s.manager.insertConnection connection me = (result, ⟨t, s.manager.nextConnId + 1⟩) := by
      simp only [ConnectionManager.insertConnection, h]
    have kept {c : ConnId} (hc : c < s.manager.nextConnId) (hn : s.manager.tables.entries.lookup c = none) :
        c < s.manager.nextConnId + 1 ∧ t.entries.lookup c = none := by
      refine ⟨Nat.lt_succ_of_lt hc, Option.eq_none_iff_forall_ne_some.mpr fun e he => ?_⟩
      obtain rfl | he := ConnectionTables.lookup_insertConnection h he
      case inl => exact Nat.lt_irrefl _ hc
      case inr => rw [hn] at he; contradiction
    have keep {c c'} (hr : s.replacedBy c = some c') := kept (k.replaced hr).left (k.replaced hr).right
    obtain ⟨_, hc⟩ := k.consistent.insertConnection_cases hm
    simp only [Node.register, hm]
    obtain ⟨⟨e, rfl⟩, _⟩ | ⟨rfl, hk, _⟩ := hc
    case inl => exact ⟨k.consistent.insertConnection hm, keep⟩
    case inr =>
      refine ⟨k.consistent.insertConnection hm, fun {c c'} hr => ?_⟩
      simp only [setReader] at hr
      split at hr
      case h_2 => exact keep hr
      case h_1 old ho =>
        by_cases hc : c = old
        case neg => exact keep <| (Function.update_of_ne hc ..).symm.trans hr
        case pos =>
          subst hc
          have hk := hk <| ConnectionTables.isConnected_of_oldConnId ho
          obtain ⟨he, hn⟩ := ConnectionTables.lookup_oldConnId h hk ho
          obtain ⟨_, he⟩ := Table.contains_eq_true.mp he
          have hl := k.consistent.entered he
          exact ⟨Nat.lt_succ_of_lt hl, hn (Nat.ne_of_lt hl)⟩

theorem remove {c : ConnId} (k : Sound s) : Sound { s with manager := s.manager.remove c } where
  consistent    := k.consistent.remove
  replaced {_ _} h := by
    obtain ⟨hl, hn⟩ := k.replaced h
    refine ⟨hl, ?_⟩
    rw [ConnectionManager.remove, ConnectionTables.lookup_remove, hn, ite_self]

-- The other steps leave the tables alone.
theorem keep (k : Sound s) (hm : s'.manager = s.manager) (hr : s'.replacedBy = s.replacedBy) : Sound s' where
  consistent := hm ▸ k.consistent
  replaced h := hm ▸ k.replaced (hr ▸ h)

variable [Crypto]

theorem step (k : Sound s) (h : s.step me l = some s') : Sound s' := by
  cases takes h
  case register => exact k.register
  case remove   => exact k.remove.keep rfl rfl
  case announce | message | leave | panic | post | handle | writer | detached => exact k.keep rfl rfl

theorem reachable (r : Reachable (system me) s) : Sound s :=
  Invariant.reachable ⟨init, step⟩ r

end Sound

-- A daemon and a peer that it has connected to twice. The second connection has replaced the first one
-- and serves a request when the first one comes to its end.
def daemonId : PeerId :=
  ⟨.replicate 32 9⟩

def peer : PeerId :=
  ⟨.replicate 32 1⟩

def listing : Message :=
  .resourceList 1 [⟨⟨.replicate 32 7⟩, "photo", 3⟩]

def reconnecting : List Label := [
  .register ⟨peer, .outgoing, ()⟩,
  .announce 1,
  .handle (.fine 0),
  .register ⟨peer, .outgoing, ()⟩,
  .read 2 (.ok <| some listing.toFrame),
  .handle (.fine 0),
  .post (.controlRequest (.getResource "p1" "r1") 0),
  .handle (.fine 0),
  .read 1 (.ok none)
]

def fresh : Node :=
  .new (.new ⟨∅⟩ "/downloads".toList .empty)

def reconnected : Node :=
  (reconnecting.foldlM (@step .transparent daemonId) fresh).getD fresh

def hurt : Node :=
  (@step .transparent daemonId reconnected (.handle (.fine 0))).getD reconnected

omit [Crypto] in
theorem reconnected_hurt : Initial fresh ∧
    Run (@system .transparent daemonId) fresh (reconnecting ++ [.handle (.fine 0)]) hurt ∧
    ¬(@system .transparent daemonId).Throughout fresh (reconnecting ++ [.handle (.fine 0)]) hurt
      fun s l s' => ∀ env p, l = .handle env → s.SupersededEnd p → s.Unhurt s' p := by
  let _ := Crypto.transparent
  have r : Run (system daemonId) fresh reconnecting reconnected :=
    .ofFn (rfl : reconnecting.foldlM (step daemonId) fresh = _)
  have h : reconnected.step daemonId (.handle (.fine 0)) = some hurt := rfl
  refine ⟨⟨_, _, _, rfl⟩, r.snoc h, fun u => ?_⟩
  have e : reconnected.SupersededEnd peer := 
    ⟨1, 2, ⟨⟨peer, .outgoing, ()⟩, .established⟩, [], rfl, .single rfl, rfl, rfl, rfl⟩
  have hn : (hurt.daemon.transferMgr.transfers.lookup 1) = none := by decide +kernel
  have hp : (reconnected.daemon.transferMgr.transfers.lookup 1).map (·.peerId) = some peer := by decide +kernel
  have ⟨t, ht, hp⟩ := Option.map_eq_some_iff.mp hp
  have := (u rfl r h .refl (.fine 0) peer rfl e).transfers ht hp
  rw [hn] at this
  contradiction

end Parsip.Node
