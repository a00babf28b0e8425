import Parsip.Library.Utf8
import Parsip.Daemon.Basic
import Parsip.Discovery.Broadcast
import Parsip.Protocol.Deserialize

-- The datagrams that peers find each other with.

namespace Parsip

-- What `start` and `broadcast_scan` are called with.
structure Discovery where
  tcpListenPort : UInt16
  myId : PeerId
  myNickname : String

namespace Discovery

def discoveryPort : UInt16 :=
  9090

-- `PARREQ` and `PARRES`
def magicRequest : Bytes :=
  [80, 65, 82, 82, 69, 81]

def magicResponse : Bytes :=
  [80, 65, 82, 82, 69, 83]

-- `u16::to_be_bytes`
def beBytes16 (n : UInt16) : Bytes :=
  BigEndian.toBytes 2 n.toNat

-- `u16::from_be_bytes`
def readU16 (p : Bytes) (off : Nat) : Outcome UInt16 := do
  return .ofNat <| BigEndian.ofBytes (← readArray 2 p off).toList

def payload (magic : Bytes) (x : Discovery) : Bytes :=
  magic ++ beBytes16 x.tcpListenPort ++ x.myId.toBytes ++ nameBytes x.myNickname

-- The payload in `broadcast_scan`, and the one in the answer of a listener.
def request (x : Discovery) : Bytes :=
  x.payload magicRequest

def response (x : Discovery) : Bytes :=
  x.payload magicResponse

-- What a listener does.
inductive Output
  -- `send_to`
  | sendTo (payload : Bytes) (addr : SocketAddr)
  -- `event_tx.send`
  | event (e : PeerEvent)

-- What `broadcast_scan` sends, once its socket is open.
def broadcastScan (x : Discovery) (fibTrie : Option (List Char)) (localIp : Option Ipv4Addr) : List (Bytes × SocketAddr) :=
  (collectBroadcastAddrs fibTrie localIp).map fun target => (x.request, ⟨target, discoveryPort⟩)

-- The buffer of a listener. It is not cleared between two datagrams.
abbrev Buffer := U8Array 1024

-- `recv_from`: what does not fit into the buffer is lost.
def recvFrom (buf : Buffer) (datagram : Bytes) : Buffer × Nat :=
  (⟨datagram.take 1024 ++ buf.toList.drop datagram.length, by simp; omega⟩, min datagram.length 1024)

-- One turn of the loop in `start`, after `recv_from` has returned.
def handle (x : Discovery) (buf : Bytes) (amt : Nat) (src : SocketAddr) : Outcome (List Output) :=
  if amt ≥ 40 then do
    let isRequest := decide <| (← slice buf 0 6) = magicRequest
    let isResponse := decide <| (← slice buf 0 6) = magicResponse
    if isRequest || isResponse then do
      let remoteTcpPort ← readU16 buf 6
      let remotePeerId := PeerId.fromBytes (← readArray 32 buf 8)
      let nickname ← if amt > 40 then Utf8.decodeLossy <$> slice buf 40 amt else pure "Unknown"
      if remotePeerId ≠ x.myId then
        let reply := if isRequest then [.sendTo x.response { src with port := discoveryPort }] else []
        return reply ++ [.event <| .discovered remotePeerId { src with port := remoteTcpPort } nickname]
      else return []
    else return []
  else return []

def receive (x : Discovery) (buf : Buffer) (datagram : Bytes) (src : SocketAddr) : Buffer × Outcome (List Output) :=
  let (buf, amt) := recvFrom buf datagram
  (buf, x.handle buf.toList amt src)

end Discovery
end Parsip
