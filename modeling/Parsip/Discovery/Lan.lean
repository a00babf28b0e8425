import Parsip.Daemon.History
import Parsip.Discovery.Datagram

-- Daemons in one local network, and the datagrams between them. A datagram may get lost, come late, overtake
-- others and come several times.

namespace Parsip

open Transition

structure Datagram where
  payload : Bytes
  src : SocketAddr
  dst : SocketAddr
deriving DecidableEq

-- A daemon with its queue of events and the buffer of the thread that listens for datagrams.
structure Lan.Station where
  monitor : Monitor
  events : List PeerEvent
  buf : Discovery.Buffer

-- The hosts of a network. What they announce fits into the buffer of a listener.
structure Hosts (ν : Type) where
  discovery : ν → Discovery
  ip : ν → Ipv4Addr
  distinct : ∀ {a b}, (discovery a).myId = (discovery b).myId → a = b
  named : ∀ a, (discovery a).myNickname ≠ ""
  fits : ∀ a, (nameBytes (discovery a).myNickname).length ≤ 984

namespace Hosts

variable {ν : Type}

abbrev id (hosts : Hosts ν) (a : ν) : PeerId :=
  (hosts.discovery a).myId

-- Where `a` accepts connections.
def address (hosts : Hosts ν) (a : ν) : SocketAddr :=
  ⟨hosts.ip a, (hosts.discovery a).tcpListenPort⟩

-- Addresses that end in 255 are those of everybody.
def Reaches (hosts : Hosts ν) (dst : SocketAddr) (b : ν) : Prop :=
  dst.port = Discovery.discoveryPort ∧ (dst.ip = hosts.ip b ∨ dst.ip.toList.getLast? = some 255)

instance {hosts : Hosts ν} {dst : SocketAddr} {b : ν} : Decidable (hosts.Reaches dst b) :=
  inferInstanceAs (Decidable (_ ∧ _))

end Hosts

-- `received` has the number of each datagram that has come to somebody, and `scanned` the number of datagrams before
-- the last scan of a host, as long as its socket could be opened. No step looks at either.
structure Lan (ν : Type) where
  station : ν → Lan.Station
  sent : List Datagram
  received : List (Nat × ν)
  scanned : ν → Option Nat

namespace Lan

variable {ν : Type}

inductive Label (ν : Type)
  -- The event loop takes the oldest event. A scan is sent from some port.
  | handle (a : ν) (env : Env) (port : UInt16) (fibTrie : Option (List Char)) (localIp : Option Ipv4Addr)
  -- The thread that listens gets a datagram.
  | receive (n : Nat) (b : ν)
  -- Another thread sends an event.
  | post (a : ν) (e : PeerEvent)
  | writer (a : ν) (id : ResourceId) (faults : WriteFaults)
  | detached (a : ν) (i : Nat) (faults : WriteFaults)

def IsDiscovery : PeerEvent → Prop
  | .discovered .. => True
  | _              => False

instance : DecidablePred IsDiscovery
  | .discovered .. => .isTrue trivial
  | .newConnection _ | .disconnected _ | .message .. | .controlRequest .. | .scanTimeout _ | .connectResult .. => .isFalse id

variable [DecidableEq ν]

def setStation (s : Lan ν) (a : ν) (x : Station) : Lan ν :=
  { s with station := Function.update s.station a x }

-- What a listener makes of a datagram: what it sends and the events that it sets off.
def perform (hosts : Hosts ν) (b : ν) (s : Lan ν) : Discovery.Output → Lan ν
  | .sendTo payload addr => { s with sent := s.sent ++ [⟨payload, ⟨hosts.ip b, Discovery.discoveryPort⟩, addr⟩] }
  | .event e             => s.setStation b { s.station b with events := (s.station b).events ++ [e] }

def receive (hosts : Hosts ν) (s : Lan ν) (n : Nat) (b : ν) : Option (Lan ν) :=
  match s.sent[n]? with
  | some datagram =>
    if hosts.Reaches datagram.dst b then
      match (hosts.discovery b).receive (s.station b).buf datagram.payload datagram.src with
      | (buf, .ok outputs) =>
        some <| outputs.foldl (perform hosts b)
          { s.setStation b { s.station b with buf } with received := s.received ++ [(n, b)] }
      | (_, .error _) => none
    else none
  | none => none

-- What a scan sends, if its socket could be opened.
def scan (hosts : Hosts ν) (s : Lan ν) (a : ν) (env : Env) (port : UInt16) (fibTrie : Option (List Char))
    (localIp : Option Ipv4Addr) : PeerEvent → Lan ν
  | .controlRequest .scan _ =>
    match env.broadcastScan with
    | .ok () => { s with
      sent    := s.sent ++ ((hosts.discovery a).broadcastScan fibTrie localIp).map fun (payload, dst) =>
        ⟨payload, ⟨hosts.ip a, port⟩, dst⟩
      scanned := Function.update s.scanned a (some s.sent.length) }
    | .error _ => { s with scanned := Function.update s.scanned a none }
  | _ => s

variable [Crypto]

def handle (hosts : Hosts ν) (s : Lan ν) (a : ν) (env : Env) (port : UInt16) (fibTrie : Option (List Char))
    (localIp : Option Ipv4Addr) : Option (Lan ν) :=
  match (s.station a).events with
  | []          => none
  | e :: events =>
    (s.station a).monitor.step (.handle env e) |>.map fun monitor =>
      scan hosts (s.setStation a { s.station a with monitor, events }) a env port fibTrie localIp e

def step (hosts : Hosts ν) (s : Lan ν) : Label ν → Option (Lan ν)
  | .handle a env port fibTrie localIp => s.handle hosts a env port fibTrie localIp
  | .receive n b                       => s.receive hosts n b
  | .post a e =>
    if IsDiscovery e then none
    else some <| s.setStation a { s.station a with events := (s.station a).events ++ [e] }
  | .writer a id faults =>
    (s.station a).monitor.step (.writer id faults) |>.map fun monitor => s.setStation a { s.station a with monitor }
  | .detached a i faults =>
    (s.station a).monitor.step (.detached i faults) |>.map fun monitor => s.setStation a { s.station a with monitor }

omit [DecidableEq ν] [Crypto] in
def Initial (s : Lan ν) : Prop :=
  (∀ a, (s.station a).monitor.Initial ∧ (s.station a).events = []) ∧ s.sent = [] ∧ s.received = [] ∧ ∀ a, s.scanned a = none

def system (hosts : Hosts ν) : System (Lan ν) (Label ν) :=
  .ofFn Initial (step hosts)

end Lan
end Parsip
