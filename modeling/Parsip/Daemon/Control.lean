import Parsip.Daemon.Service

-- The control socket: for each client a thread that reads its lines, hands what they ask for to the event
-- loop and writes back the answers. A line stands for what the parser makes of it, none where that fails.

namespace Parsip

open Transition

-- `is_terminal`
def ControlResponse.isTerminal : ControlResponse → Bool
  | .ok | .error _ | .scanResults _ | .peersList _ | .resourceList _ | .resourceAdded .. | .downloadComplete .. => true
  | .downloadProgress _ => false

def ControlResponse.invalidJson : ControlResponse :=
  .error "Invalid JSON"

-- What the thread of a client does next.
inductive ClientPhase
  | reading
  | refusing
  | receiving (c : ReplyTo)
  | writing (c : ReplyTo) (response : ControlResponse)
  | ended
deriving DecidableEq

-- `asked` is what the lines that have been read ask for, with the channel that is made for the answer,
-- and `written` is what the client can read. A client that has hung up cannot be written to any more.
structure Client where
  phase : ClientPhase
  asked : List (Option (ControlMessage × ReplyTo))
  written : List ControlResponse
  hungUp : Bool
deriving DecidableEq

namespace Client

def new : Client where
  phase := .reading
  asked := []
  written := []
  hungUp := false

def read (x : Client) (line : Option ControlMessage) (c : ReplyTo) : Client :=
  match line with
  | some cmd => { x with phase := .receiving c, asked := x.asked ++ [some (cmd, c)] }
  | none     => { x with phase := .refusing, asked := x.asked ++ [none] }

-- `stream.write_all`
def write (x : Client) (response : ControlResponse) : Client :=
  if x.hungUp then x else { x with written := x.written ++ [response] }

-- The thread goes on to the next line after the last response, and when it cannot write.
def respond (x : Client) (c : ReplyTo) (response : ControlResponse) : Client :=
  { x.write response with phase := if x.hungUp ∨ response.isTerminal then .reading else .receiving c }

end Client

-- The daemon as far as its clients are concerned. `channels` counts the channels made so far, and
-- `received` what has been taken from each of them.
structure Control where
  service : Service
  events : List PeerEvent
  clients : List Client
  channels : Nat
  received : ReplyTo → Nat

namespace Control

inductive Label
  | accept
  | line (i : Nat) (line : Option ControlMessage)
  | refuse (i : Nat)
  | receive (i : Nat)
  | write (i : Nat)
  -- There are no more lines, or they cannot be read.
  | close (i : Nat)
  | hangUp (i : Nat)
  -- Another thread sends an event.
  | post (e : PeerEvent)
  | handle (env : Env)
  | writer (id : ResourceId) (faults : WriteFaults)
  | detached (i : Nat) (faults : WriteFaults)

-- A channel is open as long as its sender is in the queue of events or with the request tracker.
def Open (s : Control) (c : ReplyTo) : Prop :=
  (∃ e ∈ s.events, e.channel = some c) ∨ c ∈ s.service.daemon.reqTracker.pendingRequests.values

instance {s : Control} {c : ReplyTo} : Decidable (s.Open c) :=
  inferInstanceAs (Decidable (_ ∨ _))

-- What has been sent on a channel and not been taken from it.
def unread (s : Control) (c : ReplyTo) : List ControlResponse :=
  (s.service.sent c).drop (s.received c)

def setClient (s : Control) (i : Nat) (x : Client) : Control :=
  { s with clients := s.clients.set i x }

def line (s : Control) (i : Nat) (x : Client) (line : Option ControlMessage) : Option Control :=
  match x.phase, line with
  | .reading, some cmd => some { s.setClient i (x.read line s.channels) with
      events   := s.events ++ [.controlRequest cmd s.channels]
      channels := s.channels + 1 }
  | .reading, none     => some <| s.setClient i (x.read none s.channels)
  | _, _               => none

def refuse (s : Control) (i : Nat) (x : Client) : Option Control :=
  match x.phase with
  | .refusing => some <| s.setClient i { x.write .invalidJson with phase := .reading }
  | _         => none

-- `res_rx.recv`
def receive (s : Control) (i : Nat) (x : Client) : Option Control :=
  match x.phase with
  | .receiving c =>
    match s.unread c with
    | response :: _ => some { s.setClient i { x with phase := .writing c response } with
        received := Function.update s.received c (s.received c + 1) }
    | []            => if s.Open c then none else some <| s.setClient i { x with phase := .reading }
  | _ => none

def write (s : Control) (i : Nat) (x : Client) : Option Control :=
  match x.phase with
  | .writing c response => some <| s.setClient i (x.respond c response)
  | _                   => none

def close (s : Control) (i : Nat) (x : Client) : Option Control :=
  match x.phase with
  | .reading => some <| s.setClient i { x with phase := .ended }
  | _        => none

variable [Crypto]

-- The event loop takes the oldest event.
def handle (s : Control) (env : Env) : Option Control :=
  match s.events with
  | []          => none
  | e :: events => s.service.step (.handle env e) |>.map ({ s with service := ·, events })

def step (s : Control) : Label → Option Control
  | .accept              => some { s with clients := s.clients ++ [.new] }
  | .line i line         => s.clients[i]?.bind (s.line i · line)
  | .refuse i            => s.clients[i]?.bind (s.refuse i)
  | .receive i           => s.clients[i]?.bind (s.receive i)
  | .write i             => s.clients[i]?.bind (s.write i)
  | .close i             => s.clients[i]?.bind (s.close i)
  | .hangUp i            => s.clients[i]? |>.map fun x => s.setClient i { x with hungUp := true }
  | .post e              => if e.channel.isSome then none else some { s with events := s.events ++ [e] }
  | .handle env          => s.handle env
  | .writer id faults    => s.service.step (.writer id faults) |>.map ({ s with service := · })
  | .detached i faults   => s.service.step (.detached i faults) |>.map ({ s with service := · })

def new (service : Service) : Control where
  service := service
  events := []
  clients := []
  channels := 0
  received _ := 0

def Initial (s : Control) : Prop :=
  ∃ service : Service, service.Initial ∧ s = .new service

def system : System Control Label :=
  .ofFn Initial step

end Control
end Parsip
