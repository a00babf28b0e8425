import Parsip.Daemon.Node
import Parsip.Daemon.Upload

-- A daemon with the threads that send files, over connections that come, go and replace each other, up
-- to what arrives at the other end of each connection.

namespace Parsip

open Transition

-- What a thread that sends a file does next. `peer.send` looks up the connection of the peer, fetches
-- the sender of that connection and pushes the frame to its queue, and holds no lock in between.
inductive UploadPhase
  | read
  | lookUp (m : Message)
  | fetch (connId : ConnId) (m : Message)
  | push (connId : ConnId) (m : Message)
  | ended
deriving DecidableEq

-- `origin` is the connection on which the request has come. The thread does not know it.
structure UploadThread where
  upload : Upload
  phase : UploadPhase
  origin : ConnId
deriving DecidableEq

namespace UploadThread

def start (target : PeerId) (requestId : UInt32) (id : ResourceId) (origin : ConnId) : UploadThread where
  upload := .start target requestId id
  phase := .read
  origin := origin

def last (t : UploadThread) : Message :=
  .resourceEnd t.upload.requestId t.upload.id

-- `file.read`, or `File::open` in place of the first one.
def read (t : UploadThread) (result : Except Error Bytes) : Option UploadThread :=
  match t.phase, result with
  | .read, .error _ => some { t with phase := .ended }
  | .read, .ok data =>
    if data = [] then some { t with phase := .lookUp t.last }
    else if t.upload.Readable data then
      some { t with upload := t.upload.advance data, phase := .lookUp <| t.upload.chunk data }
    else none
  | _, _ => none

def lookUp (t : UploadThread) (tables : ConnectionTables Unit) : Option UploadThread :=
  match t.phase with
  | .lookUp m => some { t with phase := (tables.peerIndex.lookup t.upload.target).elim .ended (.fetch · m) }
  | _         => none

def fetch (t : UploadThread) (tables : ConnectionTables Unit) : Option UploadThread :=
  match t.phase with
  | .fetch connId m => some { t with phase := if tables.entries.contains connId then .push connId m else .ended }
  | _               => none

-- After a frame that has been pushed.
def next (t : UploadThread) (m : Message) : UploadThread :=
  { t with phase := if m = t.last then .ended else .read }

end UploadThread

-- `thread` is the number of the thread that has sent a frame, none for the event loop.
structure OutgoingFrame where
  thread : Option Nat
  message : Message
deriving DecidableEq

-- For each connection: what has been put into the queue of its writer thread, how much of that the thread
-- has written and how much has arrived, and whether the thread has returned.
structure Serving where
  node : Node
  threads : List UploadThread
  queued : ConnId → List OutgoingFrame
  written : ConnId → Nat
  arrived : ConnId → Nat
  closed : ConnId → Bool

namespace Serving

inductive Label
  | node (l : Node.Label)
  | handle (env : Env)
  | read (i : Nat) (result : Except Error Bytes)
  | lookUp (i : Nat)
  | fetch (i : Nat)
  | push (i : Nat)
  | write (connId : ConnId)
  | arrive (connId : ConnId)
  | close (connId : ConnId)

abbrev tables (s : Serving) : ConnectionTables Unit :=
  s.node.manager.tables

def setThread (s : Serving) (i : Nat) (t : UploadThread) : Serving :=
  { s with threads := s.threads.set i t }

-- `sender.send`, which fails after the writer thread has returned.
def put (s : Serving) (connId : ConnId) (f : OutgoingFrame) : Serving :=
  if s.closed connId then s
  else { s with queued := Function.update s.queued connId (s.queued connId ++ [f]) }

-- What the event loop sets off when it handles an event that has come on a connection.
def perform (origin : Option ConnId) (s : Serving) : Effect → Serving
  | .send target m                  => (s.tables.oldConnId target).elim s (s.put · ⟨none, m⟩)
  | .upload target requestId id _   =>
    { s with threads := s.threads ++ origin.toList.map (.start target requestId id) }
  | .respond .. | .connect .. | .scanTimer _ => s

-- The event loop takes the oldest event.
def handle [Crypto] (s : Serving) (env : Env) : Option Serving :=
  match s.node.events, s.node.handle env with
  | e :: _, some node => some <| (node.effects.drop s.node.effects.length).foldl (perform e.from) { s with node }
  | _, _              => none

def push (s : Serving) (i : Nat) (t : UploadThread) : Option Serving :=
  match t.phase with
  | .push connId m =>
    if s.closed connId then some <| s.setThread i { t with phase := .ended }
    else some <| s.put connId ⟨some i, m⟩ |>.setThread i (t.next m)
  | _ => none

variable [Crypto]

def step (myId : PeerId) (s : Serving) : Label → Option Serving
  | .node (.handle _)  => none
  | .node l            => s.node.step myId l |>.map ({ s with node := · })
  | .handle env        => s.handle env
  | .read i result     => s.threads[i]?.bind fun t => t.read result |>.map (s.setThread i)
  | .lookUp i          => s.threads[i]?.bind fun t => t.lookUp s.tables |>.map (s.setThread i)
  | .fetch i           => s.threads[i]?.bind fun t => t.fetch s.tables |>.map (s.setThread i)
  | .push i            => s.threads[i]?.bind (s.push i)
  | .write connId      =>
    if s.written connId < (s.queued connId).length ∧ ¬s.closed connId then
      some { s with written := Function.update s.written connId (s.written connId + 1) }
    else none
  | .arrive connId     =>
    if s.arrived connId < s.written connId then
      some { s with arrived := Function.update s.arrived connId (s.arrived connId + 1) }
    else none
  | .close connId      => some { s with closed := Function.update s.closed connId true }

def new (node : Node) : Serving where
  node := node
  threads := []
  queued _ := []
  written _ := 0
  arrived _ := 0
  closed _ := false

def Initial (s : Serving) : Prop :=
  ∃ node : Node, node.Initial ∧ s = .new node

def system (myId : PeerId) : System Serving Label :=
  .ofFn Initial (step myId)

end Serving
end Parsip
