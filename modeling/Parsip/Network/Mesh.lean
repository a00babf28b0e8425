import Parsip.Daemon.Service
import Parsip.Daemon.Serving

-- Any number of daemons with all their threads, over connections that come, go and replace each other.

namespace Parsip

open Transition

-- What a call of `peer.send` does next: it looks up the connection of the peer, fetches the sender of
-- that connection and pushes the frame to its queue, and holds no lock in between.
inductive SendPhase
  | lookUp
  | fetch (connId : ConnId)
  | push (connId : ConnId)
deriving DecidableEq

-- A call of `peer.send` in the event loop.
structure Sending where
  target : PeerId
  message : Message
  phase : SendPhase
deriving DecidableEq

-- None when the call fails.
def Sending.next (x : Sending) (tables : ConnectionTables Unit) : Option Sending :=
  match x.phase with
  | .lookUp       => tables.peerIndex.lookup x.target |>.map ({ x with phase := .fetch · })
  | .fetch connId => if tables.entries.contains connId then some { x with phase := .push connId } else none
  | .push _       => none

-- What has become of one end of a TCP connection. Nobody reads any more at an end that is `gone`.
inductive EndPhase
  | handshake
  | reading
  | gone
deriving DecidableEq

def Direction.other : Direction → Direction
  | .incoming => .outgoing
  | .outgoing => .incoming

-- A TCP connection, which `party .outgoing` has dialled. In the `inbox` of an end is what is on its way
-- to it, from the queue of the writer thread at the other end to the reader.
structure Socket where
  party : Direction → PeerId
  inbox : Direction → List Message
  phase : Direction → EndPhase
  cut : Bool

namespace Socket

def dial (a b : PeerId) : Socket where
  party
    | .outgoing => a
    | .incoming => b
  inbox _ := []
  phase _ := .handshake
  cut := false

-- Whoever still reads at an end of it is going to find out.
def dead (sk : Socket) : Bool :=
  sk.cut || sk.phase .outgoing = .gone || sk.phase .incoming = .gone

def setInbox (sk : Socket) (dir : Direction) (ms : List Message) : Socket :=
  { sk with inbox := Function.update sk.inbox dir ms }

def setPhase (sk : Socket) (dir : Direction) (phase : EndPhase) : Socket :=
  { sk with phase := Function.update sk.phase dir phase }

end Socket

-- A daemon: its connections and event loop, what the event loop has still to send, and the threads that
-- send files, end scans and wait for the result of a dial. `channels` are those with which the requests
-- that have been handled have come.
structure Station where
  node : Node
  channels : List ReplyTo
  sending : List Sending
  uploads : List UploadThread
  timers : List UInt32
  dials : List UInt32
  -- The end of a TCP connection that has been registered.
  socket : ConnId → Option (Nat × Direction)

namespace Station

def new (node : Node) : Station where
  node := node
  channels := []
  sending := []
  uploads := []
  timers := []
  dials := []
  socket _ := none

abbrev daemon (st : Station) : Daemon :=
  st.node.daemon

abbrev tables (st : Station) : ConnectionTables Unit :=
  st.node.manager.tables

abbrev setUpload (st : Station) (i : Nat) (t : UploadThread) : Station :=
  { st with uploads := st.uploads.set i t }

-- What the event loop sets off. Messages always come on a connection.
def perform («from» : Option ConnId) (st : Station) : Effect → Station
  | .respond ..                     => st
  | .send target message            => { st with sending := st.sending ++ [⟨target, message, .lookUp⟩] }
  | .connect _ reqId                => { st with dials := st.dials ++ [reqId] }
  | .scanTimer reqId                => { st with timers := st.timers ++ [reqId] }
  | .upload target requestId id _   =>
    { st with uploads := st.uploads ++ [.start target requestId id (from.getD 0)] }

-- The event loop takes the oldest event when it has nothing to send.
def handle [Crypto] (st : Station) (env : Env) : Option Station :=
  match st.sending, st.node.events, st.node.handle env with
  | [], e :: _, some node =>
    some <| (node.effects.drop st.node.effects.length).foldl (perform e.from)
      { st with node, channels := st.channels ++ e.event.channel.toList }
  | _, _, _ => none

end Station

structure Mesh where
  station : PeerId → Station
  sockets : List Socket

namespace Mesh

inductive Label
  -- A client or the discovery thread sends an event.
  | post (a : PeerId) (e : PeerEvent)
  | handle (a : PeerId) (env : Env)
  -- The event loop goes on with a call of `peer.send`.
  | send (a : PeerId)
  | push (a : PeerId) (closed : Bool)
  -- The threads that write files.
  | writer (a : PeerId) (id : ResourceId) (faults : WriteFaults)
  | detached (a : PeerId) (i : Nat) (faults : WriteFaults)
  -- A thread that ends a scan, or that waits for the result of a dial.
  | timer (a : PeerId) (i : Nat)
  | dialled (a : PeerId) (i : Nat) (result : Except String PeerId)
  -- The threads that send files.
  | read (a : PeerId) (i : Nat) (result : Except Error Bytes)
  | lookUp (a : PeerId) (i : Nat)
  | fetch (a : PeerId) (i : Nat)
  | forward (a : PeerId) (i : Nat) (closed : Bool)
  -- A TCP connection comes into being, and each end gets registered or is given up.
  | dial (a b : PeerId)
  | register (k : Nat) (dir : Direction)
  | giveUp (k : Nat) (dir : Direction)
  | announce (a : PeerId) (connId : ConnId)
  -- The reader takes the next message, or leaves, and then `on_disconnect` runs.
  | deliver (a : PeerId) (connId : ConnId)
  | leave (a : PeerId) (connId : ConnId) (result : Except Error (Option Frame))
  | remove (a : PeerId) (connId : ConnId)
  -- The network fails, and what is on its way over a TCP connection that has come to its end is lost.
  | cut (k : Nat)
  | lose (k : Nat) (dir : Direction)

def setStation (s : Mesh) (a : PeerId) (st : Station) : Mesh :=
  { s with station := Function.update s.station a st }

def setSocket (s : Mesh) (k : Nat) (sk : Socket) : Mesh :=
  { s with sockets := s.sockets.set k sk }

-- The end over which a connection of `a` goes.
def «end» (s : Mesh) (a : PeerId) (connId : ConnId) : Option (Nat × Direction × Socket) :=
  (s.station a).socket connId |>.bind fun (k, dir) => s.sockets[k]? |>.map (k, dir, ·)

-- `sender.send`. It fails when the writer thread has returned, after a frame that it could not write.
def put (s : Mesh) (a : PeerId) (connId : ConnId) (m : Message) (closed : Bool) : Option Mesh :=
  match s.end a connId with
  | some (k, dir, sk) =>
    if closed then if sk.dead then some s else none
    else some <| s.setSocket k <| sk.setInbox dir.other (sk.inbox dir.other ++ [m])
  | none => none

variable [Crypto]

-- A step of a daemon, apart from its threads that send.
def move (s : Mesh) (a : PeerId) (l : Node.Label) : Option Mesh :=
  (s.station a).node.step a l |>.map fun node => s.setStation a { s.station a with node }

-- `register_connection` after the handshake.
def register (s : Mesh) (k : Nat) (dir : Direction) (sk : Socket) : Option Mesh :=
  let a := sk.party dir
  let st := s.station a
  let connection := ⟨sk.party dir.other, dir, ()⟩
  st.node.step a (.register connection) |>.map fun node =>
    match (st.node.manager.insertConnection connection a).fst with
    | .ok connId => s.setStation a { st with node, socket := Function.update st.socket connId (k, dir) }
      |>.setSocket k (sk.setPhase dir .reading)
    | .error _   => s.setStation a { st with node } |>.setSocket k (sk.setPhase dir .gone)

-- A frame that the codec of the other end refuses is never delivered.
def deliver (s : Mesh) (a : PeerId) (connId : ConnId) : Option Mesh :=
  match s.end a connId with
  | some (k, dir, sk) =>
    match sk.inbox dir with
    | m :: rest =>
      if m.toFrame.Fits then
        s.move a (.read connId (.ok (some m.toFrame))) |>.map (·.setSocket k (sk.setInbox dir rest))
      else none
    | [] => none
  | none => none

def leave (s : Mesh) (a : PeerId) (connId : ConnId) (result : Except Error (Option Frame)) : Option Mesh :=
  match s.end a connId with
  | some (k, dir, sk) =>
    if readTurn result = .leave then
      s.move a (.read connId result) |>.map (·.setSocket k (sk.setPhase dir .gone))
    else none
  | none => none

-- The thread goes on after a frame, or returns.
def forward (s : Mesh) (a : PeerId) (i : Nat) (t : UploadThread) (closed : Bool) : Option Mesh :=
  match t.phase with
  | .push connId m => s.put a connId m closed |>.map fun s =>
    s.setStation a <| (s.station a).setUpload i <| if closed then { t with phase := .ended } else t.next m
  | _ => none

def step (s : Mesh) : Label → Option Mesh
  | .post a e =>
    match e with
    | .discovered .. | .controlRequest .. => s.move a (.post e)
    | _                                   => none
  | .handle a env => (s.station a).handle env |>.map (s.setStation a)
  | .send a =>
    let st := s.station a
    match st.sending with
    | ⟨_, _, .push _⟩ :: _ | [] => none
    | x :: sending              => some <| s.setStation a { st with sending := (x.next st.tables).toList ++ sending }
  | .push a closed =>
    match (s.station a).sending with
    | ⟨_, m, .push connId⟩ :: sending =>
      s.put a connId m closed |>.map fun s => s.setStation a { s.station a with sending }
    | _ => none
  | .writer a id faults  => s.move a (.writer id faults)
  | .detached a i faults => s.move a (.detached i faults)
  | .timer a i =>
    let st := s.station a
    st.timers[i]?.bind fun r => s.setStation a { st with timers := st.timers.eraseIdx i } |>.move a (.post (.scanTimeout r))
  | .dialled a i result =>
    let st := s.station a
    st.dials[i]?.bind fun r => s.setStation a { st with dials := st.dials.eraseIdx i } |>.move a (.post (.connectResult r result))
  | .read a i result =>
    let st := s.station a
    st.uploads[i]?.bind fun t => t.read result |>.map fun t => s.setStation a (st.setUpload i t)
  | .lookUp a i =>
    let st := s.station a
    st.uploads[i]?.bind fun t => t.lookUp st.tables |>.map fun t => s.setStation a (st.setUpload i t)
  | .fetch a i =>
    let st := s.station a
    st.uploads[i]?.bind fun t => t.fetch st.tables |>.map fun t => s.setStation a (st.setUpload i t)
  | .forward a i closed => (s.station a).uploads[i]?.bind (s.forward a i · closed)
  | .dial a b           => if a = b then none else some { s with sockets := s.sockets ++ [.dial a b] }
  | .register k dir     => s.sockets[k]?.bind fun sk => if sk.phase dir = .handshake then s.register k dir sk else none
  | .giveUp k dir       =>
    s.sockets[k]?.bind fun sk => if sk.phase dir = .handshake then some <| s.setSocket k (sk.setPhase dir .gone) else none
  | .announce a connId     => s.move a (.announce connId)
  | .deliver a connId      => s.deliver a connId
  | .leave a connId result => s.leave a connId result
  | .remove a connId       => s.move a (.remove connId)
  | .cut k                 => s.sockets[k]?.map fun sk => s.setSocket k { sk with cut := true }
  | .lose k dir            => s.sockets[k]?.bind fun sk => if sk.dead then some <| s.setSocket k (sk.setInbox dir []) else none

def Initial (s : Mesh) : Prop :=
  (∀ a, ∃ node : Node, node.Initial ∧ s.station a = .new node) ∧ s.sockets = []

def system : System Mesh Label :=
  .ofFn Initial step

end Mesh
end Parsip
