import Parsip.Library.Table
import Parsip.Protocol.Basic

namespace Parsip

inductive Direction
  | incoming
  | outgoing
deriving DecidableEq

-- `ς` is the sending half of the channel to a connection's writer thread.
structure Connection (ς : Type) where
  remotePeerId : PeerId
  direction : Direction
  sender : ς
deriving DecidableEq

inductive ConnectionState
  | established
  | closing
deriving DecidableEq

structure ConnectionEntry (ς : Type) where
  connection : Connection ς
  state : ConnectionState
deriving DecidableEq

-- The connection counter has 64 bits. It is taken not to wrap around: fewer than 2 ^ 64 connections are registered.
abbrev ConnId := Nat

-- The two maps of a `ConnectionManager`, each behind its own mutex.
structure ConnectionTables (ς : Type) where
  entries : Table ConnId (ConnectionEntry ς)
  peerIndex : Table PeerId ConnId
deriving DecidableEq

namespace ConnectionTables

variable {ς : Type}

def empty : ConnectionTables ς where
  entries := ∅
  peerIndex := ∅

-- The tie-break between a new connection and the one it duplicates.
def keepNew (myId theirId : PeerId) (direction : Direction) : Bool :=
  let localWinsTie := decide (myId.toBytes > theirId.toBytes)
  match direction with
  | .outgoing => localWinsTie
  | .incoming => !localWinsTie

-- The connection that `insert_connection` finds registered for the peer.
def oldConnId (t : ConnectionTables ς) (theirId : PeerId) : Option ConnId :=
  match t.peerIndex.lookup theirId with
  | some oldConnId => if t.entries.contains oldConnId then some oldConnId else none
  | none           => none

-- What `insert_connection` does while it holds both locks.
def insertConnection (t : ConnectionTables ς) (connId : ConnId) (connection : Connection ς)
    (myId : PeerId) : Except Error ConnId × ConnectionTables ς :=
  let theirId := connection.remotePeerId
  let entry := ⟨connection, .established⟩
  match t.peerIndex.lookup theirId with
  | some oldConnId =>
    if t.entries.contains oldConnId then
      if keepNew myId theirId connection.direction then
        (.ok connId, {
          entries   := (t.entries.erase oldConnId).insert connId entry
          peerIndex := t.peerIndex.insert theirId connId
        })
      else (.error ⟨.alreadyExists, "Deduplication tie-breaker dropped connection"⟩, t)
    else
      (.ok connId, {
        entries   := t.entries.insert connId entry
        peerIndex := t.peerIndex.insert theirId connId
      })
  | none =>
    (.ok connId, {
      entries   := t.entries.insert connId entry
      peerIndex := t.peerIndex.insert theirId connId
    })

-- The part of `remove` under the `peer_index` lock.
def removeIndex (t : ConnectionTables ς) (connId : ConnId) (peerId : PeerId) : ConnectionTables ς :=
  if t.peerIndex.lookup peerId = some connId then
    { t with peerIndex := t.peerIndex.erase peerId }
  else t

-- `remove` holds the `entries` lock from its first to its last step.
def remove (t : ConnectionTables ς) (connId : ConnId) : ConnectionTables ς :=
  match t.entries.lookup connId with
  | some entry =>
    removeIndex { t with entries := t.entries.erase connId } connId entry.connection.remotePeerId
  | none => t

def isConnected (t : ConnectionTables ς) (peerId : PeerId) : Bool :=
  t.peerIndex.contains peerId

-- The sender on which `send` queues a frame for a peer.
def route (t : ConnectionTables ς) (peerId : PeerId) : Option ς := do
  let connId ← t.peerIndex.lookup peerId
  let entry ← t.entries.lookup connId
  return entry.connection.sender

end ConnectionTables

structure ConnectionManager (ς : Type) where
  tables : ConnectionTables ς
  nextConnId : ConnId
deriving DecidableEq

namespace ConnectionManager

variable {ς : Type}

def new : ConnectionManager ς where
  tables := .empty
  nextConnId := 1

-- `insert_connection` as a whole: the counter is advanced also when the connection is dropped.
def insertConnection (m : ConnectionManager ς) (connection : Connection ς) (myId : PeerId) :
    Except Error ConnId × ConnectionManager ς :=
  let (result, tables) := m.tables.insertConnection m.nextConnId connection myId
  (result, { tables, nextConnId := m.nextConnId + 1 })

def remove (m : ConnectionManager ς) (connId : ConnId) : ConnectionManager ς :=
  { m with tables := m.tables.remove connId }

end ConnectionManager
end Parsip
