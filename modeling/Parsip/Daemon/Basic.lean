import Parsip.Library.Table
import Parsip.Resource.Transfer

namespace Parsip

-- `{:?}`
def PeerId.debug (id : PeerId) : String :=
  let hex := id.toBytes.flatMap fun b => [Nat.digitChar (b.toNat / 16), Nat.digitChar (b.toNat % 16)]
  "PeerId(" ++ String.ofList (hex.take 4) ++ ".." ++ String.ofList (hex.drop 60) ++ ")"

-- Discovery listens on IPv4 only.
structure SocketAddr where
  ip : U8Array 4
  port : UInt16
deriving DecidableEq

inductive ControlMessage
  | scan
  | connect (peerAlias : String)
  | listPeers
  | listResources (peerAlias : String)
  | getResource (peerAlias resourceAlias : String)
  | addResource (path : String)
deriving DecidableEq

structure DiscoveredPeerInfo where
  «alias» : String
  nickname : String
  address : SocketAddr
deriving DecidableEq

structure ConnectedPeerInfo where
  «alias» : String
  peerId : PeerId
deriving DecidableEq

structure CtrlResourceInfo where
  «alias» : String
  id : ResourceId
  name : String
  size : UInt64
deriving DecidableEq

-- `elapsed` is in milliseconds.
inductive ControlResponse
  | ok
  | error (message : String)
  | scanResults (peers : List DiscoveredPeerInfo)
  | peersList (peers : List ConnectedPeerInfo)
  | resourceList (resources : List CtrlResourceInfo)
  | resourceAdded («alias» : String) (id : ResourceId)
  | downloadProgress (progress : Progress)
  | downloadComplete (bytes : UInt64) (elapsed : Nat)
deriving DecidableEq

-- The sending half of the channel to a client.
abbrev ReplyTo := Nat

inductive PeerEvent
  | newConnection (peerId : PeerId)
  | disconnected (peerId : PeerId)
  | message (peerId : PeerId) (msg : Message)
  | discovered (peerId : PeerId) (addr : SocketAddr) (nickname : String)
  | controlRequest (cmd : ControlMessage) (sender : ReplyTo)
  | scanTimeout (reqId : UInt32)
  | connectResult (reqId : UInt32) (result : Except String PeerId)

structure RequestTracker where
  nextId : UInt32
  pendingRequests : Table UInt32 ReplyTo
deriving DecidableEq

namespace RequestTracker

def new : RequestTracker where
  nextId := 1
  pendingRequests := ∅

-- `next_id`
def advance (t : RequestTracker) : UInt32 × RequestTracker :=
  (t.nextId, { t with nextId := t.nextId + 1 })

def register (t : RequestTracker) (requestId : UInt32) (sender : ReplyTo) : RequestTracker :=
  { t with pendingRequests := t.pendingRequests.insert requestId sender }

def get (t : RequestTracker) (requestId : UInt32) : Option ReplyTo :=
  t.pendingRequests.lookup requestId

def complete (t : RequestTracker) (requestId : UInt32) : Option ReplyTo × RequestTracker :=
  (t.pendingRequests.lookup requestId,
    { t with pendingRequests := t.pendingRequests.erase requestId })

end RequestTracker

structure AliasRegistry where
  peerAliases : Table String PeerId
  peerIdToAlias : Table PeerId String
  resourceAliases : Table String ResourceId
  resourceIdToAlias : Table ResourceId String
  resourceInfo : Table ResourceId ResourceInfo
  discoveredPeers : Table PeerId DiscoveredPeerInfo
  nextPeerId : UInt32
  nextResourceId : UInt32
deriving DecidableEq

namespace AliasRegistry

def new : AliasRegistry where
  peerAliases := ∅
  peerIdToAlias := ∅
  resourceAliases := ∅
  resourceIdToAlias := ∅
  resourceInfo := ∅
  discoveredPeers := ∅
  nextPeerId := 1
  nextResourceId := 1

def addPeer (a : AliasRegistry) (peerId : PeerId) : String × AliasRegistry :=
  match a.peerIdToAlias.lookup peerId with
  | some name => (name, a)
  | none      =>
    let name := "p" ++ toString a.nextPeerId.toNat
    (name, { a with
      nextPeerId    := a.nextPeerId + 1
      peerIdToAlias := a.peerIdToAlias.insert peerId name
      peerAliases   := a.peerAliases.insert name peerId })

def addResource (a : AliasRegistry) (resourceId : ResourceId) : String × AliasRegistry :=
  match a.resourceIdToAlias.lookup resourceId with
  | some name => (name, a)
  | none      =>
    let name := "r" ++ toString a.nextResourceId.toNat
    (name, { a with
      nextResourceId    := a.nextResourceId + 1
      resourceIdToAlias := a.resourceIdToAlias.insert resourceId name
      resourceAliases   := a.resourceAliases.insert name resourceId })

def cacheInfo (a : AliasRegistry) (info : ResourceInfo) : AliasRegistry :=
  { a with resourceInfo := a.resourceInfo.insert info.id info }

def getInfo (a : AliasRegistry) (id : ResourceId) : Option ResourceInfo :=
  a.resourceInfo.lookup id

def getPeer (a : AliasRegistry) (name : String) : Option PeerId :=
  a.peerAliases.lookup name

def getResource (a : AliasRegistry) (name : String) : Option ResourceId :=
  a.resourceAliases.lookup name

end AliasRegistry
end Parsip
