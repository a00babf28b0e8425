import Mathlib.Logic.Function.Basic
import Parsip.Connection.Manager
import Parsip.Library.Transition
import Parsip.Protocol.Serialize

-- Threads that send while others insert and remove connections. What the connection manager does while
-- it holds a lock is one step.

namespace Parsip

open Transition

variable {τ ς : Type}

def ConnectionTables.established (t : ConnectionTables ς) (peerId : PeerId) : Bool :=
  t.entries.values.any fun e => e.connection.remotePeerId = peerId ∧ e.state = .established

-- The connection that `insert_connection` replaces.
def ConnectionTables.supersedes (t : ConnectionTables ς) (connection : Connection ς) (myId : PeerId) :
    Option ConnId :=
  if keepNew myId connection.remotePeerId connection.direction then t.oldConnId connection.remotePeerId else none

namespace Sending

inductive Phase (ς : Type)
  | idle
  -- `insert_connection` has reserved an id.
  | inserting (connId : ConnId) (connection : Connection ς) (myId : PeerId)
  -- `send` before its first section, after it, after its second, and with what it returns.
  | sending (peerId : PeerId) (message : Message)
  | found (peerId : PeerId) (message : Message) (connId : Option ConnId)
  | routed (peerId : PeerId) (message : Message) (connection : Option (Connection ς))
  | returned (peerId : PeerId) (message : Message) (result : Except Error Unit) (queued : Option (Connection ς))

namespace Phase

-- The peer that a call of `send` is about.
def peer : Phase ς → Option PeerId
  | sending peerId .. | found peerId .. | routed peerId .. | returned peerId .. => some peerId
  | idle | inserting .. => none

-- The connection that a call has found and not fetched yet.
def awaits : Phase ς → Option ConnId
  | found _ _ connId => connId
  | _                => none

end Phase

-- `queue` is what has been queued on a sender, and `closed` says that its writer thread has returned. The
-- rest is a record of the last call of every thread: whether its peer has had an established entry all the
-- time, whether the connection that it has found has been replaced before the call has fetched it, and
-- whether the writer thread of the connection had returned before it was handed the frame.
structure State (τ ς : Type) where
  manager : ConnectionManager ς
  phase : τ → Phase ς
  queue : ς → List Frame
  closed : ς → Bool
  covered : τ → Bool
  overtaken : τ → Bool
  severed : τ → Bool

inductive Label (τ ς : Type)
  | insertConnection (t : τ) (connection : Connection ς) (myId : PeerId)
  | insert (t : τ)
  | remove (connId : ConnId)
  | send (t : τ) (peerId : PeerId) (message : Message)
  | lookUp (t : τ)
  | fetch (t : τ)
  | push (t : τ)
  | return (t : τ)
  | close (sender : ς)

variable [DecidableEq τ] [DecidableEq ς]

namespace State

def goto (s : State τ ς) (t : τ) (phase : Phase ς) : State τ ς :=
  { s with phase := Function.update s.phase t phase }

def act (s : State τ ς) : Label τ ς → Option (State τ ς)
  | .insertConnection t connection myId =>
    match s.phase t with
    | .idle => some {
        s.goto t (.inserting s.manager.nextConnId connection myId) with
        manager := { s.manager with nextConnId := s.manager.nextConnId + 1 }
      }
    | _ => none
  | .insert t =>
    match s.phase t with
    | .inserting connId connection myId =>
      let (_, tables) := s.manager.tables.insertConnection connId connection myId
      let replaced := s.manager.tables.supersedes connection myId
      some {
        s.goto t .idle with
        manager   := { s.manager with tables }
        overtaken := fun t => s.overtaken t || replaced.any fun c => (s.phase t).awaits = some c
      }
    | _ => none
  | .remove connId => some { s with manager := s.manager.remove connId }
  | .send t peerId message =>
    match s.phase t with
    | .idle => some {
        s.goto t (.sending peerId message) with
        covered   := Function.update s.covered t true
        overtaken := Function.update s.overtaken t false
        severed   := Function.update s.severed t false
      }
    | _ => none
  | .lookUp t =>
    match s.phase t with
    | .sending peerId message => s.goto t (.found peerId message (s.manager.tables.peerIndex.lookup peerId))
    | _ => none
  | .fetch t =>
    match s.phase t with
    | .found peerId message (some connId) =>
      s.goto t (.routed peerId message (s.manager.tables.entries.lookup connId |>.map (·.connection)))
    | .found peerId message none => s.goto t (.routed peerId message none)
    | _ => none
  | .push t =>
    match s.phase t with
    | .routed peerId message (some connection) =>
      if s.closed connection.sender then some {
        s.goto t (.returned peerId message (.error ⟨.brokenPipe, "Writer thread closed"⟩) none) with
        severed := Function.update s.severed t true
      }
      else some {
        s.goto t (.returned peerId message (.ok ()) (some connection)) with
        queue := Function.update s.queue connection.sender (s.queue connection.sender ++ [message.toFrame])
      }
    | .routed peerId message none =>
      s.goto t (.returned peerId message (.error ⟨.notConnected, "Peer not connected"⟩) none)
    | _ => none
  | .return t =>
    match s.phase t with
    | .returned .. => s.goto t .idle
    | _            => none
  | .close sender => some { s with closed := Function.update s.closed sender true }

def observed (s : State τ ς) : State τ ς :=
  { s with covered := fun t => s.covered t && (s.phase t).peer.all s.manager.tables.established }

end State

def step (s : State τ ς) (l : Label τ ς) : Option (State τ ς) :=
  s.act l |>.map (·.observed)

def init : State τ ς where
  manager := .new
  phase _ := .idle
  queue _ := []
  closed _ := false
  covered _ := false
  overtaken _ := false
  severed _ := false

def system (τ ς : Type) [DecidableEq τ] [DecidableEq ς] : System (State τ ς) (Label τ ς) :=
  .ofFn (· = init) step

end Sending
end Parsip
