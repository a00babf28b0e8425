import Parsip.Connection.Manager
import Parsip.Daemon.Dialling

-- The daemon together with its connections and the threads that connect it to peers, from the handshake to
-- what the event loop makes of the result.

namespace Parsip

open Transition

-- There is an established connection to the peer.
def ConnectionTables.holds {ς : Type} (t : ConnectionTables ς) (peerId : PeerId) : Bool :=
  t.entries.values.any fun e => e.connection.remotePeerId = peerId ∧ e.state = .established

-- How far the thread of a `Connect` request is. `connected`, `failed` and `rejected` are what it has to say, or what
-- is made of its end if it panics. Whether a peer that an attempt is `rejected` for had been connected at that
-- moment is a record that no step looks at.
inductive Phase
  | dialling
  -- `perform_handshake` has returned.
  | authenticated (peerId : PeerId)
  -- `Connection::new` has returned.
  | prepared (peerId : PeerId)
  -- `insert_connection` has returned.
  | registered (peerId : PeerId)
  | connected (peerId : PeerId)
  | failed (message : String)
  | rejected (peerId : PeerId) (message : String) (held : Bool)

namespace Phase

-- The peer that the handshake has been completed with.
def peer : Phase → Option PeerId
  | dialling | failed _ => none
  | authenticated peerId | prepared peerId | registered peerId | connected peerId | rejected peerId .. => some peerId

def result : Phase → Option (Except String PeerId)
  | connected peerId                                       => some <| .ok peerId
  | failed message | rejected _ message _                  => some <| .error message
  | dialling | authenticated _ | prepared _ | registered _ => none

-- What a thread does next, with what comes of it where that is up to others.
inductive Turn
  -- `TcpStream::connect` and `perform_handshake`
  | handshake (result : Except Error PeerId)
  -- `Connection::new`
  | prepare (result : Except Error Unit)
  -- `insert_connection`
  | register
  -- `start_read_loop` and the announcement of the connection
  | announce
  -- Threads that cannot be started, for one.
  | panic

end Phase

def Error.connectionFailed (e : Error) : String :=
  "Connection failed: " ++ e.message

-- A turn of the thread in `Peer::connect`.
def Phase.turn (myId : PeerId) (manager : ConnectionManager Unit) :
    Phase → Phase.Turn → Option (Phase × ConnectionManager Unit)
  | dialling, .handshake (.error e) => some (failed e.connectionFailed, manager)
  | dialling, .handshake (.ok theirId) =>
    if theirId = myId then
      let e : Error := ⟨.invalidData, "Rejected self-connection"⟩
      some (rejected theirId e.connectionFailed (manager.tables.holds theirId), manager)
    else some (authenticated theirId, manager)
  | authenticated theirId, .prepare (.error e) =>
    some (rejected theirId e.connectionFailed (manager.tables.holds theirId), manager)
  | authenticated theirId, .prepare (.ok ()) => some (prepared theirId, manager)
  | prepared theirId, .register =>
    match manager.insertConnection ⟨theirId, .outgoing, ()⟩ myId with
    | (.ok _, manager')    => some (registered theirId, manager')
    | (.error e, manager') => some (rejected theirId e.connectionFailed (manager.tables.holds theirId), manager')
  | registered theirId, .announce => some (connected theirId, manager)
  | dialling, .panic => some (failed "Connection thread panicked", manager)
  | authenticated theirId, .panic | prepared theirId, .panic | registered theirId, .panic =>
    some (rejected theirId "Connection thread panicked" (manager.tables.holds theirId), manager)
  | _, _ => none

structure Attempt where
  reqId : UInt32
  address : SocketAddr
  sender : ReplyTo
  phase : Phase

namespace Attempt

def start (dial : Dial) : Attempt where
  reqId := dial.reqId
  address := dial.address
  sender := dial.sender
  phase := .dialling

def dial (a : Attempt) : Dial where
  reqId := a.reqId
  address := a.address
  sender := a.sender
  result := a.phase.result

end Attempt

structure Connecting where
  service : Service
  manager : ConnectionManager Unit
  attempts : List Attempt

namespace Connecting

-- Other peers connect and connections end at any time.
inductive Label
  | act (a : Action)
  | turn (i : Nat) (turn : Phase.Turn)
  -- `register_connection` for an incoming connection, after the handshake
  | accept (theirId : PeerId)
  -- `on_disconnect`
  | remove (connId : ConnId)
  | report (env : Env) (i : Nat)

abbrev daemon (s : Connecting) : Daemon :=
  s.service.daemon

-- What is left when threads are not looked into.
def dialling (s : Connecting) : Dialling where
  service := s.service
  dials := s.attempts.map (·.dial)

variable [Crypto]

def step (myId : PeerId) (s : Connecting) : Label → Option Connecting
  | .act (.handle _ (.connectResult ..)) => none
  | .act (.handle env e) =>
    s.service.step (.handle env e) |>.map fun service =>
      { s with service, attempts := s.attempts ++ (s.service.dialled env e).map .start }
  | .act a => s.service.step a |>.map ({ s with service := · })
  | .turn i turn =>
    match s.attempts[i]? with
    | some a =>
      a.phase.turn myId s.manager turn |>.map fun (phase, manager) =>
        { s with manager, attempts := s.attempts.set i { a with phase } }
    | none => none
  | .accept theirId =>
    if theirId = myId then none
    else some { s with manager := (s.manager.insertConnection ⟨theirId, .incoming, ()⟩ myId).snd }
  | .remove connId => some { s with manager := s.manager.remove connId }
  | .report env i =>
    match s.attempts[i]? with
    | some a =>
      match a.phase.result with
      | some result =>
        s.service.step (.handle env (.connectResult a.reqId result)) |>.map fun service =>
          { s with service, attempts := s.attempts.eraseIdx i }
      | none => none
    | none => none

def Initial (s : Connecting) : Prop :=
  s.service.Initial ∧ s.manager = .new ∧ s.attempts = []

def system (myId : PeerId) : System Connecting Label :=
  .ofFn Initial (step myId)

end Connecting
end Parsip
