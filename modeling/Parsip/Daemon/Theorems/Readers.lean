import Parsip.Daemon.Theorems.Node

-- Every connection that is registered has a reader, and it is the reader of its peer.

namespace Parsip.Node

variable {me p : PeerId} {s s' : Node} {l : Label} {c c' : ConnId} {reader reader' : Reader}

-- The peer at the other end of a connection, whatever has become of the connection.
def remote (s : Node) (c : ConnId) : Option PeerId :=
  s.readers.lookup c |>.map (·.peerId)

@[simp]
theorem remote_setReader : (s.setReader c reader).remote c' = if c' = c then some reader.peerId else s.remote c' := by
  simp only [remote, setReader, Table.lookup_insert]
  split <;> rfl

theorem insertConnection_ok {m : ConnectionManager Unit} {connection : Connection Unit}
    (h : (m.insertConnection connection me).fst = .ok c) : c = m.nextConnId := by
  cases hi : m.tables.insertConnection m.nextConnId connection me
  case mk result t =>
    simp only [ConnectionManager.insertConnection, hi] at h
    obtain ⟨⟨e, rfl, _⟩, _⟩ | ⟨rfl, _⟩ := ConnectionTables.insertConnection_cases hi
    case inl => contradiction
    case inr => exact (Except.ok.inj h).symm

theorem remote_register {connection : Connection Unit} (h : (s.manager.insertConnection connection me).fst = .ok c) :
    (s.register me connection).remote c = some connection.remotePeerId := by
  cases hm : s.manager.insertConnection connection me
  case mk result manager =>
    rw [hm] at h
    subst h
    simp only [register, hm, remote_setReader, if_true]

structure Attended (s : Node) : Prop where
  below   : ∀ {c p}, s.remote c = some p → c < s.manager.nextConnId
  indexed : ∀ {p c}, s.manager.tables.peerIndex.lookup p = some c → s.remote c = some p

namespace Attended

theorem init (h : Initial s) : Attended s := by
  obtain ⟨_, _, _, rfl⟩ := h
  constructor
  case below   => intro _ _ h; contradiction
  case indexed => intro _ _ h; contradiction

-- Readers keep their peers, and the connections that are registered have been so before.
theorem keep (k : Attended s) (hr : s'.remote = s.remote) (hn : s'.manager.nextConnId = s.manager.nextConnId)
    (hi : ∀ {p c}, s'.manager.tables.peerIndex.lookup p = some c → s.manager.tables.peerIndex.lookup p = some c) :
    Attended s' ∧ ∀ {c p}, s.remote c = some p → s'.remote c = some p :=
  ⟨⟨fun h => hn ▸ k.below (hr ▸ h), fun h => hr ▸ k.indexed (hi h)⟩, fun h => hr ▸ h⟩

theorem setReader_remote (h : s.readers.lookup c = some reader) (hp : reader'.peerId = reader.peerId) :
    (s.setReader c reader').remote = s.remote := by
  funext c'
  rw [remote_setReader]
  split
  case isTrue he  => rw [he, remote, h, hp]; rfl
  case isFalse    => rfl

theorem register {connection : Connection Unit} (k : Attended s) :
    Attended (s.register me connection) ∧ ∀ {c p}, s.remote c = some p → (s.register me connection).remote c = some p := by
  cases h : s.manager.tables.insertConnection s.manager.nextConnId connection me
  case mk result t =>
    have hm : s.manager.insertConnection connection me = (result, ⟨t, s.manager.nextConnId + 1⟩) := by
      simp only [ConnectionManager.insertConnection, h]
    obtain ⟨⟨e, rfl, _⟩, rfl, _⟩ | ⟨rfl, hi, _⟩ := ConnectionTables.insertConnection_cases h
    all_goals simp only [Node.register, hm]
    case inl => exact ⟨⟨fun h => Nat.lt_succ_of_lt <| k.below h, k.indexed⟩, id⟩
    case inr =>
      have keep {c p} (h : s.remote c = some p) : c ≠ s.manager.nextConnId := Nat.ne_of_lt <| k.below h
      refine ⟨⟨fun {c p} h => ?_, fun {p c} h => ?_⟩, fun {c p} h => ?_⟩
      case refine_1 =>
        rw [remote_setReader] at h
        split at h
        case isTrue hc  => exact hc ▸ Nat.lt_succ_self _
        case isFalse hc => exact Nat.lt_succ_of_lt <| k.below h
      case refine_2 =>
        rw [remote_setReader]
        replace h : t.peerIndex.lookup p = some c := h
        rw [hi, Table.lookup_insert] at h
        split at h
        case isTrue hp => cases h; rw [if_pos rfl, hp]
        case isFalse =>
          have h := k.indexed h
          exact (if_neg (keep h)).trans h
      case refine_3 => exact remote_setReader.trans <| (if_neg (keep h)).trans h

theorem step [Crypto] (k : Attended s) (h : s.step me l = some s') :
    Attended s' ∧ ∀ {c p}, s.remote c = some p → s'.remote c = some p := by
  cases takes h
  case register => exact k.register
  case message | post | handle | writer | detached => exact k.keep rfl rfl id
  case announce hr | leave hr _ _ | panic hr _ _ => exact k.keep (setReader_remote hr rfl) rfl id
  case remove hr _ => exact k.keep (setReader_remote hr rfl) rfl ConnectionTables.peerIndex_of_remove

end Attended

-- A step apart from the event loop: requests and transfers stay as they are, events are added, and who
-- reads goes on or tells of its end.
structure Adds (s s' : Node) (es : List QueuedEvent) : Prop where
  reqTracker  : s'.daemon.reqTracker = s.daemon.reqTracker
  transferMgr : s'.daemon.transferMgr = s.daemon.transferMgr
  effects     : s'.effects = s.effects
  events      : s'.events = s.events ++ es
  readers     : ∀ {c reader}, s.readers.lookup c = some reader → reader.phase = .reading →
    (∃ reader', s'.readers.lookup c = some reader' ∧ reader'.peerId = reader.peerId ∧ reader'.phase = .reading) ∨
      ∃ e ∈ es, e.event = .disconnected reader.peerId

namespace Adds

theorem refl : Adds s s [] :=
  ⟨rfl, rfl, rfl, (List.append_nil _).symm, fun h hg => .inl ⟨_, h, rfl, hg⟩⟩

variable {es : List QueuedEvent} {m : Message} {e : PeerEvent} {result : Except Error (Option Frame)}

-- The readers are as before, but for one that goes on to read, or tells of its end.
theorem setReader (h : s.readers.lookup c = some reader) (hp : reader'.peerId = reader.peerId)
    (hr : reader'.phase = reader.phase ∨ (∃ e ∈ es, e.event = .disconnected reader.peerId) ∨ reader.phase ≠ .reading) :
    Adds s { s with events := s.events ++ es, readers := s.readers.insert c reader' } es where
  reqTracker  := rfl
  transferMgr := rfl
  effects     := rfl
  events      := rfl
  readers {c' reader''} h' hg := by
    simp only [Table.lookup_insert]
    by_cases hc : c' = c
    case neg => exact .inl ⟨reader'', by rw [if_neg hc, h'], rfl, hg⟩
    case pos =>
      subst hc
      cases h.symm.trans h'
      obtain hr | hr | hr := hr
      case inl      => exact .inl ⟨reader', if_pos rfl, hp, hr.trans hg⟩
      case inr.inl  => exact .inr hr
      case inr.inr  => exact absurd hg hr

theorem register {connection : Connection Unit} (k : Attended s) : Adds s (s.register me connection) [] := by
  simp only [Node.register]
  split
  case h_2 => exact ⟨rfl, rfl, rfl, (List.append_nil _).symm, fun h hg => .inl ⟨_, h, rfl, hg⟩⟩
  case h_1 c manager hm =>
    have hc : c = s.manager.nextConnId := insertConnection_ok <| congrArg Prod.fst hm
    refine ⟨rfl, rfl, rfl, (List.append_nil _).symm, fun {c' reader} h hg => .inl ⟨reader, ?_, rfl, hg⟩⟩
    have hn : c' ≠ c := hc ▸ Nat.ne_of_lt (k.below (by rw [remote, h]; rfl))
    exact Table.lookup_insert.trans <| (if_neg hn).trans h

variable [Crypto]

theorem post (h : s.step me (.post e) = some s') : Adds s s' [⟨none, e⟩] := by
  cases takes h
  case post => exact ⟨rfl, rfl, rfl, rfl, fun h hg => .inl ⟨_, h, rfl, hg⟩⟩

theorem message (h : s.step me (.read c result) = some s') (hm : readTurn result = .message m) :
    ∃ p, s.remote c = some p ∧ Adds s s' [⟨c, .message p m⟩] := by
  cases takes h
  case leave ht | panic ht => cases hm.symm.trans ht
  case message reader m' _ hr ht =>
    cases hm.symm.trans ht
    exact ⟨reader.peerId, by rw [remote, hr]; rfl, rfl, rfl, rfl, rfl, fun h hg => .inl ⟨_, h, rfl, hg⟩⟩

theorem leave (h : s.step me (.read c result) = some s') (hm : readTurn result = .leave) :
    ∃ p, s.remote c = some p ∧ Adds s s' [⟨c, .disconnected p⟩] := by
  cases takes h
  case message ht | panic ht => cases hm.symm.trans ht
  case leave reader _ hr _ =>
    refine ⟨reader.peerId, by rw [remote, hr]; rfl, setReader hr rfl <| .inr <| .inl ?_⟩
    exact ⟨_, List.mem_singleton.mpr rfl, rfl⟩

-- The other threads of a connection, and those that write files.
theorem other (k : Attended s) (h : s.step me l = some s') (hh : ∀ env, l ≠ .handle env)
    (hr : ∀ c result, l ≠ .read c result) : ∃ es, Adds s s' es := by
  have ht := takes h
  cases ht
  case handle                  => exact absurd rfl <| hh _
  case message | leave | panic => exact absurd rfl <| hr _ _
  case post                    => exact ⟨_, post h⟩
  case register                => exact ⟨_, register k⟩
  case announce hl             => exact ⟨_, setReader hl rfl <| .inl rfl⟩
  case remove reader hl hp =>
    have a := @setReader s _ reader { reader with phase := .ended } [] hl rfl (.inr <| .inr <| by simp [hp])
    exact ⟨[], a.reqTracker, a.transferMgr, a.effects, (List.append_nil _).symm, a.readers⟩
  case writer hq ht | detached hq ht =>
    exact ⟨[], hq, ht, rfl, (List.append_nil _).symm, fun h hg => .inl ⟨_, h, rfl, hg⟩⟩

end Adds
end Parsip.Node
