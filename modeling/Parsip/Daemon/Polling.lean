import Parsip.Daemon.Node

-- A daemon that takes its time over `ListPeers`: the event loop asks for one alias after the other whether the peer
-- is connected, in whatever order the aliases come, and the other threads go on in between.

namespace Parsip

open Transition

-- `asked` is what `is_connected` has returned so far for the next event.
structure Polling where
  node : Node
  asked : Table String Bool

namespace Polling

inductive Label
  | node (l : Node.Label)
  | ask (name : String)

def new (node : Node) : Polling where
  node := node
  asked := ∅

-- The next event is a `ListPeers`.
def lists (s : Polling) : Bool :=
  match s.node.events with
  | ⟨_, .controlRequest .listPeers _⟩ :: _ => true
  | _                                      => false

def ask (s : Polling) (name : String) : Option Polling :=
  match s.lists, s.node.daemon.aliases.peerAliases.lookup name, s.asked.lookup name with
  | true, some peerId, none =>
    some { s with asked := s.asked.insert name (s.node.manager.tables.isConnected peerId) }
  | _, _, _ => none

def env (s : Polling) (env : Env) : Env :=
  { env with isConnected := fun name _ => s.asked.lookup name == some true }

-- A `ListPeers` is answered when all aliases have been asked for.
def handle [Crypto] (s : Polling) (env : Env) : Option Polling :=
  if s.lists → ∀ peer ∈ s.node.daemon.aliases.peerAliases.toList, s.asked.contains peer.fst then
    s.node.handle (s.env env) |>.map new
  else none

def step [Crypto] (myId : PeerId) (s : Polling) : Label → Option Polling
  | .node (.handle env) => s.handle env
  | .node l             => s.node.step myId l |>.map ({ s with node := · })
  | .ask name           => s.ask name

def system [Crypto] (myId : PeerId) : System Polling Label :=
  .ofFn (∃ node : Node, node.Initial ∧ · = new node) (step myId)

end Polling
end Parsip
