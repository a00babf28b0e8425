import Parsip.Network.Mesh

-- A daemon whose peers go away: the readers of their connections, the event loop and its calls of
-- `peer.send`, each of which takes its steps one by one.

namespace Parsip

open Transition

-- The call of `peer.send` that the event loop makes.
def Effect.call : Effect → Option Sending
  | .send target message => some ⟨target, message, .lookUp⟩
  | _                    => none

-- `sending` is what the event loop has still to send for the event that it has handled last. For each
-- connection: what the event loop has put into the queue of its writer thread, and whether the thread has
-- returned. The rest is a record that no step looks at: peers that have gone away, with their only
-- connection, from when its end has been handled until a new one is inserted.
structure Departing where
  node : Node
  sending : List Sending
  queued : ConnId → List Message
  closed : ConnId → Bool
  departed : List (PeerId × ConnId)

namespace Departing

inductive Label
  | node (l : Node.Label)
  | handle (env : Env)
  -- The event loop goes on with a call of `peer.send`.
  | send
  | push
  | close (connId : ConnId)

abbrev daemon (s : Departing) : Daemon :=
  s.node.daemon

abbrev tables (s : Departing) : ConnectionTables Unit :=
  s.node.manager.tables

-- The next event is the end of the only connection of a peer, removed or not.
def departs (s : Departing) : Option (PeerId × ConnId) :=
  match s.node.events with
  | ⟨some connId, .disconnected peerId⟩ :: _ =>
    if ∀ c ∈ s.tables.peerIndex.lookup peerId, c = connId then some (peerId, connId) else none
  | _ => none

-- The peer whose connection gets into the tables.
def inserts (myId : PeerId) (s : Departing) : Node.Label → Option PeerId
  | .register connection =>
    match (s.node.manager.insertConnection connection myId).fst with
    | .ok _    => some connection.remotePeerId
    | .error _ => none
  | _ => none

-- `sender.send`, which fails after the writer thread has returned.
def put (s : Departing) (connId : ConnId) (m : Message) : Departing :=
  if s.closed connId then s
  else { s with queued := Function.update s.queued connId (s.queued connId ++ [m]) }

-- The event loop takes the oldest event when it has nothing to send.
def handle [Crypto] (s : Departing) (env : Env) : Option Departing :=
  match s.sending, s.node.handle env with
  | [], some node => some { s with
      node
      sending  := node.effects.drop s.node.effects.length |>.filterMap Effect.call
      departed := s.departed ++ s.departs.toList }
  | _, _ => none

def send (s : Departing) : Option Departing :=
  match s.sending with
  | ⟨_, _, .push _⟩ :: _ | [] => none
  | x :: sending              => some { s with sending := (x.next s.tables).toList ++ sending }

def push (s : Departing) : Option Departing :=
  match s.sending with
  | ⟨_, m, .push connId⟩ :: sending => some { s.put connId m with sending }
  | _                               => none

def step [Crypto] (myId : PeerId) (s : Departing) : Label → Option Departing
  | .node (.handle _) => none
  | .node l           => s.node.step myId l |>.map fun node =>
    { s with node, departed := s.departed.filter fun (peerId, _) => s.inserts myId l ≠ some peerId }
  | .handle env       => s.handle env
  | .send             => s.send
  | .push             => s.push
  | .close connId     => some { s with closed := Function.update s.closed connId true }

def new (node : Node) : Departing where
  node := node
  sending := []
  queued _ := []
  closed _ := false
  departed := []

def Initial (s : Departing) : Prop :=
  ∃ node : Node, node.Initial ∧ s = .new node

def system [Crypto] (myId : PeerId) : System Departing Label :=
  .ofFn Initial (step myId)

end Departing
end Parsip
