import Parsip.Daemon.Theorems.Answers
import Parsip.Daemon.Theorems.Readers

-- What the reader of a connection leaves to be done when it tells of its end, and which steps start
-- transfers and connect peers.

namespace Parsip

namespace Daemon

variable {d d' : Daemon} {env : Env} {e : PeerEvent} {fx : List Effect} {p : PeerId} {r : UInt32} {c : ReplyTo}
variable {peerAlias resourceAlias : String}

-- A transfer is from a peer that there has been one from, or it has just been started.
theorem handleEvent_peer [Crypto] {t' : Transfer} (h : d.handleEvent env e = .ok (d', fx))
    (ht : d'.transferMgr.transfers.lookup r = some t') :
    (∃ t, d.transferMgr.transfers.lookup r = some t ∧ t.peerId = t'.peerId) ∨
      ∃ peerAlias resourceAlias c, e = .controlRequest (.getResource peerAlias resourceAlias) c ∧
        d.Starts env peerAlias resourceAlias ∧ d.aliases.getPeer peerAlias = some t'.peerId ∧ r = d.reqTracker.nextId := by
  have keep (h : d'.transferMgr = d.transferMgr) : ∃ t, d.transferMgr.transfers.lookup r = some t ∧ t.peerId = t'.peerId :=
    ⟨t', h ▸ ht, rfl⟩
  have hh : Monitor.Handles env ⟨d, .empty⟩ fx ⟨d', Log.empty.record d e fx⟩ e := Monitor.handles h rfl
  cases hh
  case quiet hs _ _ | refused hs _ => exact .inl <| keep hs.transferMgr
  case list hm _ _ | failed hm _ _ => exact .inl <| keep hm
  case notStarted hd _ => exact .inl <| keep (congrArg Daemon.transferMgr hd)
  case accepted hm _ _ =>
    rw [show d'.transferMgr = _ from hm, TransferManager.updateProgress_lookup] at ht
    split at ht
    case isFalse => exact .inl ⟨t', ht, rfl⟩
    case isTrue =>
      obtain ⟨t, hl, rfl⟩ := Option.map_eq_some_iff.mp ht
      exact .inl ⟨t, hl, Transfer.progress_peerId.symm⟩
  case completed hm _ _ =>
    rw [show d'.transferMgr = _ from hm, TransferManager.complete_lookup, Option.ite_none_left_eq_some] at ht
    exact .inl ⟨t', ht.right, rfl⟩
  case started hp hr hi _ hs _ hm _ _ =>
    rw [show d'.transferMgr = _ from hm, TransferManager.register_lookup] at ht
    split at ht
    case isFalse => exact .inl ⟨t', ht, rfl⟩
    case isTrue he =>
      cases ht
      exact .inr ⟨_, _, _, rfl, starts_of_started hp hr hi hs, hp, he⟩
  case disconnected hd _ =>
    rw [(disconnected_spec hd).right, TransferManager.cancelForPeer_lookup, Option.filter_eq_some_iff] at ht
    exact .inl ⟨t', ht.left, rfl⟩

theorem getResource_peer (h : d.getResource env c peerAlias resourceAlias = (d', fx))
    (hs : d.Starts env peerAlias resourceAlias) (hp : d.aliases.getPeer peerAlias = some p) :
    ∃ r t, d'.transferMgr.transfers.lookup r = some t ∧ t.peerId = p := by
  obtain ⟨rfl, m, rfl⟩ | ⟨p', id, info, hp', _, _, _, _, _, hm, _⟩ := getResource_spec h
  case inl => exact absurd hs <| not_starts h
  case inr =>
    refine ⟨d.reqTracker.nextId, d.transfer env p' id info.size, ?_, ?_⟩
    case refine_1 => rw [hm, TransferManager.register_lookup]; exact if_pos rfl
    case refine_2 => exact Option.some.inj <| hp'.symm.trans hp

end Daemon

namespace Node

variable {me p : PeerId} {s s' : Node} {l : Label} {c : ConnId} {env : Env}

-- The reader of a connection that is still registered has told of its end, and is about to remove it.
def Closing (s : Node) (c : ConnId) : Prop :=
  (∃ reader, s.readers.lookup c = some reader ∧ reader.phase = .ending) ∧ s.manager.tables.entries.contains c

theorem Closing.setReader {c' : ConnId} {reader reader' : Reader} (k : s.Closing c) (h : s.readers.lookup c' = some reader)
    (hp : reader.phase = .ending → reader'.phase = .ending) : (s.setReader c' reader').Closing c := by
  obtain ⟨⟨reader'', hr, he⟩, hc⟩ := k
  refine ⟨?_, hc⟩
  by_cases hn : c = c'
  case neg => exact ⟨reader'', Table.lookup_insert.trans <| (if_neg hn).trans hr, he⟩
  case pos =>
    subst hn
    cases h.symm.trans hr
    exact ⟨reader', Table.lookup_insert.trans <| if_pos rfl, hp he⟩

-- Whose end has been announced, its reader is about to remove it or it is not registered any more.
structure Announced (s : Node) : Prop where
  remote  : ∀ {c p}, ⟨some c, .disconnected p⟩ ∈ s.events → s.remote c = some p
  closing : ∀ {c p}, ⟨some c, .disconnected p⟩ ∈ s.events → s.manager.tables.entries.contains c → s.Closing c

namespace Announced

theorem init (h : Initial s) : Announced s := by
  obtain ⟨_, _, _, rfl⟩ := h
  constructor <;> intro _ _ h <;> contradiction

-- No end is announced that has not been before, and what is announced stays so.
theorem keep (k : Announced s) (he : ∀ {c p}, ⟨some c, .disconnected p⟩ ∈ s'.events → ⟨some c, .disconnected p⟩ ∈ s.events)
    (hr : ∀ {c p}, ⟨some c, .disconnected p⟩ ∈ s.events → s'.remote c = s.remote c)
    (hc : ∀ {c p}, ⟨some c, .disconnected p⟩ ∈ s.events → s'.manager.tables.entries.contains c →
      s.manager.tables.entries.contains c ∧ (s.Closing c → s'.Closing c)) : Announced s' where
  remote h    := hr (he h) ▸ k.remote (he h)
  closing h h' := by
    obtain ⟨h', hk⟩ := hc (he h) h'
    exact hk <| k.closing (he h) h'

theorem register {connection : Connection Unit} (k : Announced s) (a : Attended s) : Announced (s.register me connection) := by
  cases h : s.manager.tables.insertConnection s.manager.nextConnId connection me
  case mk result t =>
    have hm : s.manager.insertConnection connection me = (result, ⟨t, s.manager.nextConnId + 1⟩) := by
      simp only [ConnectionManager.insertConnection, h]
    have below {c p} (h : ⟨some c, .disconnected p⟩ ∈ s.events) : c ≠ s.manager.nextConnId :=
      Nat.ne_of_lt <| a.below <| k.remote h
    have kept {c p} (he : ⟨some c, .disconnected p⟩ ∈ s.events) (hc : t.entries.contains c) :
        s.manager.tables.entries.contains c := by
      obtain ⟨e, hl⟩ := Table.contains_eq_true.mp hc
      exact Table.contains_eq_true.mpr ⟨e, (ConnectionTables.lookup_insertConnection h hl).resolve_left <| below he⟩
    cases result <;> simp only [Node.register, hm]
    case error => exact k.keep id (fun _ => rfl) fun he hc => ⟨kept he hc, fun h => ⟨h.left, hc⟩⟩
    case ok n =>
      have hn : n = s.manager.nextConnId := insertConnection_ok <| congrArg Prod.fst hm
      refine k.keep id (fun he => ?_) fun he hc => ⟨kept he hc, ?_⟩
      case refine_1 => exact remote_setReader.trans <| if_neg <| hn ▸ below he
      case refine_2 =>
        rintro ⟨⟨reader, hr, hp⟩, _⟩
        exact ⟨⟨reader, Table.lookup_insert.trans <| (if_neg <| hn ▸ below he).trans hr, hp⟩, hc⟩

theorem setReader {reader reader' : Reader} (k : Announced s) (h : s.readers.lookup c = some reader)
    (hi : reader'.peerId = reader.peerId) (hp : reader.phase = .ending → reader'.phase = .ending) :
    Announced (s.setReader c reader') :=
  k.keep id (fun _ => congrFun (Attended.setReader_remote h hi) _) fun _ hc => ⟨hc, fun hk => hk.setReader h hp⟩

-- Another event is added.
theorem push {origin : Option ConnId} {e : PeerEvent} (k : Announced s) (h : ∀ p, e ≠ .disconnected p) :
    Announced (s.push origin e) := by
  refine k.keep (fun {c p} hm => ?_) (fun _ => rfl) fun _ hc => ⟨hc, id⟩
  obtain hm | hm := List.mem_append.mp hm
  case inl => exact hm
  case inr =>
    cases List.mem_singleton.mp hm
    exact absurd rfl <| h p

theorem leave {reader : Reader} (k : Announced s) (h : s.readers.lookup c = some reader) :
    Announced (s.push c (.disconnected reader.peerId) |>.setReader c { reader with phase := .ending }) := by
  have k' : Announced (s.setReader c { reader with phase := .ending }) := k.setReader h rfl fun _ => rfl
  constructor
  case remote =>
    intro c' p hm
    obtain hm | hm := List.mem_append.mp hm
    case inl => exact k'.remote hm
    case inr =>
      cases List.mem_singleton.mp hm
      exact remote_setReader.trans <| if_pos rfl
  case closing =>
    intro c' p hm hc
    obtain hm | hm := List.mem_append.mp hm
    case inl => exact k'.closing hm hc
    case inr =>
      cases List.mem_singleton.mp hm
      exact ⟨⟨_, Table.lookup_insert.trans <| if_pos rfl, rfl⟩, hc⟩

theorem remove {reader reader' : Reader} (k : Announced s) (h : s.readers.lookup c = some reader)
    (hi : reader'.peerId = reader.peerId) :
    Announced ({ s with manager := s.manager.remove c }.setReader c reader') := by
  refine k.keep id (fun _ => congrFun (Attended.setReader_remote h hi) _) fun {c' p} _ hc => ?_
  replace hc : (s.manager.remove c).tables.entries.contains c' := hc
  obtain ⟨e, he⟩ := Table.contains_eq_true.mp hc
  rw [ConnectionManager.remove, ConnectionTables.lookup_remove, Option.ite_none_left_eq_some] at he
  obtain ⟨hn, he⟩ := he
  refine ⟨Table.contains_eq_true.mpr ⟨e, he⟩, ?_⟩
  rintro ⟨⟨reader, hr, hp⟩, _⟩
  exact ⟨⟨reader, Table.lookup_insert.trans <| (if_neg hn).trans hr, hp⟩, hc⟩

theorem step [Crypto] (k : Announced s) (a : Attended s) (h : s.step me l = some s') : Announced s' := by
  cases takes h
  case register          => exact k.register a
  case announce hr       => exact (k.push fun _ => PeerEvent.noConfusion).setReader hr rfl id
  case message           => exact k.push fun _ => PeerEvent.noConfusion
  case leave hr _ _      => exact k.leave hr
  case panic hr hp _     => exact k.setReader hr rfl fun he => by cases hp.symm.trans he
  case remove hr _       => exact k.remove hr rfl
  case post hc           => exact k.push fun _ he => hc (he ▸ trivial)
  case handle he _       => exact k.keep (fun hm => he ▸ List.mem_cons_of_mem _ hm) (fun _ => rfl) fun _ hc => ⟨hc, id⟩
  case writer | detached => exact k.keep id (fun _ => rfl) fun _ hc => ⟨hc, id⟩

end Announced

-- Only the event loop touches the transfers.
theorem step_transferMgr [Crypto] (h : s.step me l = some s') (hl : ∀ env, l ≠ .handle env) :
    s'.daemon.transferMgr = s.daemon.transferMgr := by
  cases takes h
  case handle => exact absurd rfl <| hl _
  case writer ht | detached ht => exact ht
  case register =>
    simp only [Node.register]
    split <;> rfl
  case announce | message | leave | panic | remove | post => rfl

-- A peer gets connected only by an insertion.
theorem step_isConnected [Crypto] (k : s.manager.Consistent) (h : s.step me l = some s') (hn : s.manager.tables.isConnected p = false)
    (hi : ∀ connection, l = .register connection → connection.remotePeerId = p →
      ∃ e, (s.manager.insertConnection connection me).fst = .error e) : s'.manager.tables.isConnected p = false := by
  cases takes h
  case announce | message | leave | panic | post | handle | writer | detached => exact hn
  case remove =>
    refine Table.contains_eq_false.mpr ?_
    simp only [setReader, k.lookup_remove]
    split
    case isTrue  => rfl
    case isFalse => exact Table.contains_eq_false.mp hn
  case register connection _ =>
    cases ht : s.manager.tables.insertConnection s.manager.nextConnId connection me
    case mk result t =>
      have hm : s.manager.insertConnection connection me = (result, ⟨t, s.manager.nextConnId + 1⟩) := by
        simp only [ConnectionManager.insertConnection, ht]
      obtain ⟨⟨e, rfl, _⟩, rfl, _⟩ | ⟨rfl, hx, _⟩ := ConnectionTables.insertConnection_cases ht
      all_goals simp only [Node.register, hm]
      case inl => exact hn
      case inr =>
        have hp : connection.remotePeerId ≠ p := by
          intro hp
          obtain ⟨e, he⟩ := hi connection rfl hp
          cases (congrArg Prod.fst hm).symm.trans he
        refine Table.contains_eq_false.mpr ?_
        show t.peerIndex.lookup p = none
        rw [hx, Table.lookup_insert, if_neg hp.symm]
        exact Table.contains_eq_false.mp hn

end Node
end Parsip
