import Parsip.Library.Transition
import Parsip.Daemon.EventHandler

-- The daemon together with a record of what has happened to it. The record changes nothing about the
-- daemon's steps.

namespace Parsip

open Transition

-- The data of a `ResourceChunk` message and where it came from.
structure Chunk where
  sender : PeerId
  requestId : UInt32
  offset : UInt64
  data : Bytes

namespace Chunk

def event (id : ResourceId) (c : Chunk) : PeerEvent :=
  .message c.sender <| .resourceChunk c.requestId id c.offset c.data

-- The bytes of some chunks, one after another.
def bytes (cs : List Chunk) : Bytes :=
  cs.flatMap data

-- Every chunk goes on where the one before it ends, the first one at `n`.
def ConsecutiveFrom : Nat → List Chunk → Prop
  | _, []      => True
  | n, c :: cs => c.offset.toNat = n ∧ ConsecutiveFrom (n + c.data.length) cs

def Consecutive (cs : List Chunk) : Prop :=
  ConsecutiveFrom 0 cs

end Chunk

-- For each resource: the peer and the request for which its last download was started, the chunks
-- that this download has accepted, and the peer whose list the cached information is from.
structure Log where
  handled : List PeerEvent
  asked : ResourceId → Option (PeerId × UInt32)
  accepted : ResourceId → List Chunk
  listed : ResourceId → Option PeerId

namespace Log

def empty : Log where
  handled := []
  asked _ := none
  accepted _ := []
  listed _ := none

def start (log : Log) (id : ResourceId) (peerId : PeerId) (requestId : UInt32) : Log :=
  { log with
    asked    := Function.update log.asked id (peerId, requestId)
    accepted := Function.update log.accepted id [] }

def accept (log : Log) (id : ResourceId) (c : Chunk) : Log :=
  { log with accepted := Function.update log.accepted id (log.accepted id ++ [c]) }

def list (log : Log) (peerId : PeerId) (resources : List ResourceInfo) : Log :=
  { log with listed := fun id => if ∃ res ∈ resources, res.id = id then peerId else log.listed id }

-- What `d` has done with an event, according to the effects.
def observe (log : Log) (d : Daemon) (fx : List Effect) : PeerEvent → Log
  | .message peerId (.resourceChunk requestId id offset data) =>
    match (d.downloadMgr.processChunk id data).fst with
    | .ok _    => log.accept id ⟨peerId, requestId, offset, data⟩
    | .error _ => log
  | .message peerId (.resourceList _ resources) => log.list peerId resources
  | .controlRequest (.getResource ..) _ =>
    match fx with
    | [.send peerId (.downloadResource requestId id)] => log.start id peerId requestId
    | _                                               => log
  | _ => log

def record (log : Log) (d : Daemon) (e : PeerEvent) (fx : List Effect) : Log :=
  { log.observe d fx e with handled := log.handled ++ [e] }

end Log

-- The event loop handles an event, or a writer thread takes a turn.
inductive Action
  | handle (env : Env) (e : PeerEvent)
  | writer (id : ResourceId) (faults : WriteFaults)
  | detached (i : Nat) (faults : WriteFaults)

namespace Daemon

-- A turn of the writer thread of an active download.
def turnWriter (d : Daemon) (id : ResourceId) (faults : WriteFaults) : Option Daemon :=
  match d.downloadMgr.downloads.lookup id with
  | some download =>
    download.writer.turn d.storage.disk faults |>.map fun (writer, disk) =>
      { d with
        downloadMgr := d.downloadMgr.put { download with writer }
        storage     := { d.storage with disk } }
  | none => none

-- A turn of a writer thread that outlives its download.
def turnDetached (d : Daemon) (i : Nat) (faults : WriteFaults) : Option Daemon :=
  match d.storage.detached[i]? with
  | some writer =>
    writer.turn d.storage.disk faults |>.map fun (writer, disk) =>
      { d with storage := { disk, detached := d.storage.detached.set i writer } }
  | none => none

end Daemon

structure Monitor where
  daemon : Daemon
  log : Log

namespace Monitor

variable [Crypto]

-- A daemon whose event loop has panicked takes no further step.
def step (s : Monitor) : Action → Option Monitor
  | .handle env e =>
    match s.daemon.handleEvent env e with
    | .ok (d, fx) => some ⟨d, s.log.record s.daemon e fx⟩
    | .error _    => none
  | .writer id faults  => s.daemon.turnWriter id faults |>.map ({ s with daemon := · })
  | .detached i faults => s.daemon.turnDetached i faults |>.map ({ s with daemon := · })

def Initial (s : Monitor) : Prop :=
  ∃ store downloadsDir disk, s = ⟨.new store downloadsDir disk, .empty⟩

def system : System Monitor Action :=
  .ofFn Initial step

-- A daemon without files that has just started.
def fresh : Monitor :=
  ⟨.new ⟨∅⟩ "/downloads".toList .empty, .empty⟩

omit [Crypto] in
theorem fresh_initial : Initial fresh :=
  ⟨_, _, _, rfl⟩

end Monitor
end Parsip
