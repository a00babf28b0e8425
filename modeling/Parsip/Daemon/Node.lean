import Parsip.Connection.Manager
import Parsip.Connection.Reader
import Parsip.Daemon.History

-- A daemon with its connections: the threads that register a connection and read from it, the queue of
-- events and the event loop.

namespace Parsip

open Transition

-- A reader is `ending` from its last event until it has removed its connection. When parsing a frame
-- panics it is `ended` without either.
inductive ReaderPhase
  | reading
  | ending
  | ended
deriving DecidableEq

structure Reader where
  peerId : PeerId
  announced : Bool
  phase : ReaderPhase
deriving DecidableEq

-- `from` is the connection whose reader has sent an event, and `replacedBy` names for a connection the
-- one that has replaced it. Both, and `effects`, are a record that no step looks at.
structure QueuedEvent where
  «from» : Option ConnId
  event : PeerEvent

structure Node where
  daemon : Daemon
  manager : ConnectionManager Unit
  readers : Table ConnId Reader
  events : List QueuedEvent
  effects : List Effect
  replacedBy : ConnId → Option ConnId

-- What the threads of a connection send.
def PeerEvent.OfConnection : PeerEvent → Prop
  | .newConnection _ | .disconnected _ | .message .. => True
  | _                                                => False

instance : DecidablePred PeerEvent.OfConnection
  | .newConnection _ | .disconnected _ | .message ..                           => .isTrue trivial
  | .discovered .. | .controlRequest .. | .scanTimeout _ | .connectResult .. => .isFalse id

namespace Node

inductive Label
  -- `register_connection` after the handshake
  | register (connection : Connection Unit)
  | announce (connId : ConnId)
  -- A turn of the read loop.
  | read (connId : ConnId) (result : Except Error (Option Frame))
  -- `on_disconnect`
  | remove (connId : ConnId)
  | post (e : PeerEvent)
  | handle (env : Env)
  | writer (id : ResourceId) (faults : WriteFaults)
  | detached (i : Nat) (faults : WriteFaults)

def new (daemon : Daemon) : Node where
  daemon := daemon
  manager := .new
  readers := ∅
  events := []
  effects := []
  replacedBy _ := none

def push (s : Node) («from» : Option ConnId) (e : PeerEvent) : Node :=
  { s with events := s.events ++ [⟨«from», e⟩] }

def setReader (s : Node) (connId : ConnId) (reader : Reader) : Node :=
  { s with readers := s.readers.insert connId reader }

def register (myId : PeerId) (s : Node) (connection : Connection Unit) : Node :=
  let theirId := connection.remotePeerId
  match s.manager.insertConnection connection myId with
  | (.ok connId, manager) =>
    let replacedBy := match s.manager.tables.oldConnId theirId with
      | some old => Function.update s.replacedBy old (some connId)
      | none     => s.replacedBy
    { s with manager, replacedBy }.setReader connId ⟨theirId, false, .reading⟩
  | (.error _, manager) => { s with manager }

def read (s : Node) (connId : ConnId) (reader : Reader) (result : Except Error (Option Frame)) : Node :=
  match readTurn result with
  | .message m => s.push connId (.message reader.peerId m)
  | .leave     => s.push connId (.disconnected reader.peerId) |>.setReader connId { reader with phase := .ending }
  | .panic     => s.setReader connId { reader with phase := .ended }

variable [Crypto]

-- The event loop takes the oldest event.
def handle (s : Node) (env : Env) : Option Node :=
  match s.events with
  | []          => none
  | e :: events =>
    match s.daemon.handleEvent env e.event with
    | .ok (daemon, fx) => some { s with daemon, events, effects := s.effects ++ fx }
    | .error _         => none

def step (myId : PeerId) (s : Node) : Label → Option Node
  | .register connection =>
    if connection.remotePeerId = myId then none else some <| s.register myId connection
  | .announce connId =>
    match s.readers.lookup connId with
    | some ⟨peerId, false, phase⟩ =>
      some <| s.push connId (.newConnection peerId) |>.setReader connId ⟨peerId, true, phase⟩
    | _ => none
  | .read connId result =>
    match s.readers.lookup connId with
    | some reader => if reader.phase = .reading then some <| s.read connId reader result else none
    | none        => none
  | .remove connId =>
    match s.readers.lookup connId with
    | some reader =>
      if reader.phase = .ending then
        some <| { s with manager := s.manager.remove connId }.setReader connId { reader with phase := .ended }
      else none
    | none => none
  | .post e               => if e.OfConnection then none else some <| s.push none e
  | .handle env           => s.handle env
  | .writer id faults     => s.daemon.turnWriter id faults |>.map ({ s with daemon := · })
  | .detached i faults    => s.daemon.turnDetached i faults |>.map ({ s with daemon := · })

def Initial (s : Node) : Prop :=
  ∃ store downloadsDir disk, s = .new (.new store downloadsDir disk)

def system (myId : PeerId) : System Node Label :=
  .ofFn Initial (step myId)

end Node
end Parsip
