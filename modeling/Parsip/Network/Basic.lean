import Parsip.Daemon.History
import Parsip.Daemon.Upload
import Parsip.Library.Channel

-- Daemons that run the code, each with its event loop, the writer threads of its downloads and the
-- threads that send files, over connections that are neither lost nor replaced.

namespace Parsip

open Transition

-- `finished` is a record of the uploads that have come to the end of their file.
structure Host where
  monitor : Monitor
  events : List PeerEvent
  uploads : List Upload
  finished : List Upload

namespace Host

-- What becomes of the `i`-th upload.
def setUpload (h : Host) (i : Nat) (u : Option Upload) : Host :=
  { h with uploads := h.uploads.take i ++ u.toList ++ h.uploads.drop (i + 1) }

def Initial (h : Host) : Prop :=
  h.monitor.Initial ∧ h.events = [] ∧ h.uploads = [] ∧ h.finished = []

end Host

-- The link from one daemon to another is what `channel` makes of the connection between them.
structure Network {κ : Type} (channel : Channel Message κ) where
  host : PeerId → Host
  link : PeerId → PeerId → channel.State
  connected : PeerId → PeerId → Bool

namespace Network

variable {κ : Type} {channel : Channel Message κ}

inductive Label (κ : Type)
  -- The connection manager of `a` registers the connection to `b`.
  | connect (a b : PeerId)
  -- Some other thread of `a` sends an event.
  | post (a : PeerId) (e : PeerEvent)
  -- The event loop of `a` handles the oldest event.
  | loop (a : PeerId) (env : Env)
  | writer (a : PeerId) (id : ResourceId)
  -- The `i`-th upload of `a` goes on with the result of `file.read`, or of `File::open` in place of the
  -- first one.
  | read (a : PeerId) (i : Nat) (result : Except Error Bytes)
  -- A move in the connection, from `a` to `b`.
  | link (a b : PeerId) (k : κ)

def setHost (s : Network channel) (a : PeerId) (h : Host) : Network channel :=
  { s with host := Function.update s.host a h }

def setLink (s : Network channel) (a b : PeerId) (l : channel.State) : Network channel :=
  { s with link := Function.update s.link a (Function.update (s.link a) b l) }

-- `peer.send`
def send (s : Network channel) (a b : PeerId) (m : Message) : Network channel :=
  if s.connected a b then s.setLink a b (channel.send (s.link a b) m) else s

def post (s : Network channel) (a : PeerId) (e : PeerEvent) : Network channel :=
  s.setHost a { s.host a with events := (s.host a).events ++ [e] }

-- Answers to clients leave the network, and other threads are the source of posts.
def perform (s : Network channel) (a : PeerId) : Effect → Network channel
  | .send b m                => s.send a b m
  | .upload target r id _    =>
    s.setHost a { s.host a with uploads := (s.host a).uploads ++ [.start target r id] }
  | .respond .. | .connect .. | .scanTimer _ => s

def performAll (s : Network channel) (a : PeerId) (fx : List Effect) : Network channel :=
  fx.foldl (perform · a) s

-- What the event loop finds around it. Its disk does not fail.
def env (_ : Network channel) (_ : PeerId) (env : Env) : Env :=
  { env with io := .none }

-- The state in which the effects of an event are performed.
def handled (s : Network channel) (a : PeerId) (e : PeerEvent) (events : List PeerEvent) (d : Daemon)
    (fx : List Effect) : Network channel :=
  let h := s.host a
  s.setHost a { h with monitor := ⟨d, h.monitor.log.record h.monitor.daemon e fx⟩, events }

-- One turn of the loop in the thread that sends a file.
def readTurn (s : Network channel) (a : PeerId) (i : Nat) (u : Upload) :
    Except Error Bytes → Option (Network channel)
  | .error _ => some <| s.setHost a <| (s.host a).setUpload i none
  | .ok data =>
    if data = [] then
      let h := (s.host a).setUpload i none
      some <| s.setHost a { h with finished := h.finished ++ [u] }
        |>.send a u.target (.resourceEnd u.requestId u.id)
    else if u.Readable data then
      if s.connected a u.target then
        some <| s.setHost a ((s.host a).setUpload i <| u.advance data) |>.send a u.target (u.chunk data)
      else some <| s.setHost a <| (s.host a).setUpload i none
    else none

variable [Crypto]

def step (s : Network channel) : Label κ → Option (Network channel)
  | .connect a b       =>
    if a = b then none
    else some { s with connected := Function.update s.connected a (Function.update (s.connected a) b true) }
  | .post a e          =>
    match e with
    | .message .. | .disconnected _ => none
    | _                             => some <| s.post a e
  | .loop a env        =>
    match (s.host a).events with
    | []          => none
    | e :: events =>
      match (s.host a).monitor.daemon.handleEvent (s.env a env) e with
      | .ok (d, fx) => some <| (s.handled a e events d fx).performAll a fx
      | .error _    => none
  | .writer a id       =>
    (s.host a).monitor.daemon.turnWriter id .none |>.map fun daemon =>
      s.setHost a { s.host a with monitor := { (s.host a).monitor with daemon } }
  | .read a i result   =>
    match (s.host a).uploads[i]? with
    | some u => s.readTurn a i u result
    | none   => none
  | .link a b k        =>
    match channel.move (s.link a b) k with
    | some (l, some m) => some <| s.setLink a b l |>.post b (.message a m)
    | some (l, none)   => some <| s.setLink a b l
    | none             => none

def Initial (s : Network channel) : Prop :=
  (∀ a, (s.host a).Initial) ∧ (∀ a b, s.link a b = channel.empty) ∧ ∀ a b, s.connected a b = false

def system (channel : Channel Message κ) : System (Network channel) (Label κ) :=
  .ofFn Initial step

end Network
end Parsip
