import Parsip.Connection.Theorems.Manager
import Parsip.Daemon.Node

-- What each step of a daemon and its connections does.

namespace Parsip

namespace Daemon

variable {d d' : Daemon} {id : ResourceId} {i : Nat} {faults : WriteFaults}

theorem turnWriter_tables (h : d.turnWriter id faults = some d') :
    d'.aliases = d.aliases ∧ d'.reqTracker = d.reqTracker ∧ d'.transferMgr = d.transferMgr := by
  simp only [turnWriter] at h
  split at h
  case h_2 => contradiction
  case h_1 =>
    obtain ⟨_, _, rfl⟩ := Option.map_eq_some_iff.mp h
    exact ⟨rfl, rfl, rfl⟩

theorem turnDetached_tables (h : d.turnDetached i faults = some d') :
    d'.aliases = d.aliases ∧ d'.reqTracker = d.reqTracker ∧ d'.transferMgr = d.transferMgr := by
  simp only [turnDetached] at h
  split at h
  case h_2 => contradiction
  case h_1 =>
    obtain ⟨_, _, rfl⟩ := Option.map_eq_some_iff.mp h
    exact ⟨rfl, rfl, rfl⟩

end Daemon

namespace Node

variable [Crypto] {me : PeerId} {s s' : Node} {l : Label}

inductive Takes (me : PeerId) (s : Node) : Label → Node → Prop
  | register {connection} (other : connection.remotePeerId ≠ me) :
    Takes me s (.register connection) (s.register me connection)
  | announce {c p phase} (lookup : s.readers.lookup c = some ⟨p, false, phase⟩) :
    Takes me s (.announce c) (s.push c (.newConnection p) |>.setReader c ⟨p, true, phase⟩)
  | message {c result reader m} (lookup : s.readers.lookup c = some reader) (reading : reader.phase = .reading)
    (turn : readTurn result = .message m) : Takes me s (.read c result) (s.push c (.message reader.peerId m))
  | leave {c result reader} (lookup : s.readers.lookup c = some reader) (reading : reader.phase = .reading)
    (turn : readTurn result = .leave) :
    Takes me s (.read c result) (s.push c (.disconnected reader.peerId) |>.setReader c { reader with phase := .ending })
  | panic {c result reader} (lookup : s.readers.lookup c = some reader) (reading : reader.phase = .reading)
    (turn : readTurn result = .panic) : Takes me s (.read c result) (s.setReader c { reader with phase := .ended })
  | remove {c reader} (lookup : s.readers.lookup c = some reader) (ending : reader.phase = .ending) :
    Takes me s (.remove c) ({ s with manager := s.manager.remove c }.setReader c { reader with phase := .ended })
  | post {e} (other : ¬e.OfConnection) : Takes me s (.post e) (s.push none e)
  | handle {env e events d fx} (next : s.events = e :: events)
    (handled : s.daemon.handleEvent env e.event = .ok (d, fx)) :
    Takes me s (.handle env) { s with daemon := d, events, effects := s.effects ++ fx }
  | writer {id faults d} (aliases : d.aliases = s.daemon.aliases) (reqTracker : d.reqTracker = s.daemon.reqTracker)
    (transferMgr : d.transferMgr = s.daemon.transferMgr) : Takes me s (.writer id faults) { s with daemon := d }
  | detached {i faults d} (aliases : d.aliases = s.daemon.aliases) (reqTracker : d.reqTracker = s.daemon.reqTracker)
    (transferMgr : d.transferMgr = s.daemon.transferMgr) : Takes me s (.detached i faults) { s with daemon := d }

theorem takes (h : s.step me l = some s') : s.Takes me l s' := by
  cases l <;> simp only [step] at h
  case register =>
    split at h <;> cases h
    case isFalse hp => exact .register hp
  case announce =>
    split at h <;> cases h
    case h_1 hr => exact .announce hr
  case read c result =>
    split at h
    case h_2 => contradiction
    case h_1 reader hr =>
      split at h <;> cases h
      case isTrue hp =>
        simp only [read]
        split
        case h_1 ht => exact .message hr hp ht
        case h_2 ht => exact .leave hr hp ht
        case h_3 ht => exact .panic hr hp ht
  case remove =>
    split at h
    case h_2 => contradiction
    case h_1 hr =>
      split at h <;> cases h
      case isTrue hp => exact .remove hr hp
  case post =>
    split at h <;> cases h
    case isFalse hc => exact .post hc
  case handle =>
    simp only [handle] at h
    split at h
    case h_1 => contradiction
    case h_2 he =>
      split at h <;> cases h
      case h_1 hd => exact .handle he hd
  case writer =>
    obtain ⟨d, hd, rfl⟩ := Option.map_eq_some_iff.mp h
    obtain ⟨ha, hq, ht⟩ := Daemon.turnWriter_tables hd
    exact .writer ha hq ht
  case detached =>
    obtain ⟨d, hd, rfl⟩ := Option.map_eq_some_iff.mp h
    obtain ⟨ha, hq, ht⟩ := Daemon.turnDetached_tables hd
    exact .detached ha hq ht

end Node
end Parsip
