import Parsip.Library.Mutex
import Parsip.Library.Transition
import Parsip.Connection.Manager

-- Threads that call the connection manager, at the level of single lock operations.

namespace Parsip.Locking

open Transition

inductive Lock
  | entries
  | peerIndex
deriving DecidableEq

inductive Call (ς : Type)
  | insertConnection (connection : Connection ς) (myId : PeerId)
  | remove (connId : ConnId)
  | send (peerId : PeerId)
  | isConnected (peerId : PeerId)

-- `send` ends with the sender on which the frame is then queued. That takes no lock.
inductive Reply (ς : Type)
  | inserted (r : Except Error ConnId)
  | removed
  | sent (r : Except Error ς)
  | connected (b : Bool)

-- What a thread does after it has dropped its guards. The guards of a thread that unwinds from a
-- panic poison their locks.
inductive Exit (ς : Type)
  | sendEntries (connId : ConnId)
  | done (reply : Reply ς)
  | panicked

-- Where a thread is. The constructors that wait for a lock are named after the lock.
inductive Pc (ς : Type)
  | idle
  | insertStart (connection : Connection ς) (myId : PeerId)
  | insertEntries (connId : ConnId) (connection : Connection ς) (myId : PeerId)
  | insertPeerIndex (connId : ConnId) (connection : Connection ς) (myId : PeerId)
  | insertBody (connId : ConnId) (connection : Connection ς) (myId : PeerId)
  | removeEntries (connId : ConnId)
  | removeEntry (connId : ConnId)
  | removePeerIndex (connId : ConnId) (peerId : PeerId)
  | removeBody (connId : ConnId) (peerId : PeerId)
  | sendPeerIndex (peerId : PeerId)
  | sendLookup (peerId : PeerId)
  | sendEntries (connId : ConnId)
  | sendRoute (connId : ConnId)
  | isConnectedPeerIndex (peerId : PeerId)
  | isConnectedLookup (peerId : PeerId)
  | unlock (guards : List Lock) (exit : Exit ς)
  | done (reply : Reply ς)
  | panicked

variable {τ ς : Type}

def Call.start : Call ς → Pc ς
  | insertConnection connection myId => .insertStart connection myId
  | remove connId                    => .removeEntries connId
  | send peerId                      => .sendPeerIndex peerId
  | isConnected peerId               => .isConnectedPeerIndex peerId

def Exit.pc : Exit ς → Pc ς
  | sendEntries connId => .sendEntries connId
  | done reply         => .done reply
  | panicked           => .panicked

def Exit.poisons : Exit ς → Bool
  | panicked => true
  | _        => false

def Exit.notConnected : Exit ς :=
  .done <| .sent <| .error ⟨.notConnected, "Peer not connected"⟩

namespace Pc

-- The guards of a thread, in the order in which they are dropped.
def holds : Pc ς → List Lock
  | insertPeerIndex .. | removeEntry .. | removePeerIndex .. | sendRoute .. => [.entries]
  | insertBody .. | removeBody ..                                           => [.peerIndex, .entries]
  | sendLookup .. | isConnectedLookup ..                                    => [.peerIndex]
  | unlock guards _                                                         => guards
  | _                                                                       => []

-- The lock that a thread waits for and where it goes on with the lock. Behind a poisoned lock it
-- drops its guards and gives up.
def waits : Pc ς → Option (Lock × Pc ς × Pc ς)
  | insertEntries connId connection myId   => some (.entries,
      insertPeerIndex connId connection myId,
      unlock [.entries] <| .done <| .inserted <| .error ⟨.other, "entries lock poisoned"⟩)
  | insertPeerIndex connId connection myId => some (.peerIndex,
      insertBody connId connection myId,
      unlock [.peerIndex, .entries] <| .done <| .inserted <|
        .error ⟨.other, "peer_index lock poisoned"⟩)
  | removeEntries connId                   => some (.entries,
      removeEntry connId,
      unlock [.entries] <| .done .removed)
  | removePeerIndex connId peerId          => some (.peerIndex,
      removeBody connId peerId,
      unlock [.peerIndex, .entries] <| .done .removed)
  | sendPeerIndex peerId                   => some (.peerIndex,
      sendLookup peerId,
      unlock [.peerIndex] <| .done <| .sent <| .error ⟨.other, "peer_index lock poisoned"⟩)
  | sendEntries connId                     => some (.entries,
      sendRoute connId,
      unlock [.entries] <| .done <| .sent <| .error ⟨.other, "entries lock poisoned"⟩)
  | isConnectedPeerIndex peerId            => some (.peerIndex,
      isConnectedLookup peerId,
      unlock [.peerIndex] <| .done <| .connected false)
  | _                                      => none

def wants (pc : Pc ς) : Option Lock :=
  pc.waits.map Prod.fst

-- The work of a thread between two lock operations.
def exec : Pc ς → ConnectionManager ς → Option (Pc ς × ConnectionManager ς)
  | insertStart connection myId, m       =>
    some (insertEntries m.nextConnId connection myId, { m with nextConnId := m.nextConnId + 1 })
  | insertBody connId connection myId, m =>
    let (result, tables) := m.tables.insertConnection connId connection myId
    some (unlock [.peerIndex, .entries] <| .done <| .inserted result, { m with tables })
  | removeEntry connId, m                =>
    match m.tables.entries.lookup connId with
    | some entry =>
      let tables := { m.tables with entries := m.tables.entries.erase connId }
      some (removePeerIndex connId entry.connection.remotePeerId, { m with tables })
    | none => some (unlock [.entries] <| .done .removed, m)
  | removeBody connId peerId, m          =>
    let tables := m.tables.removeIndex connId peerId
    some (unlock [.peerIndex, .entries] <| .done .removed, { m with tables })
  | sendLookup peerId, m                 =>
    match m.tables.peerIndex.lookup peerId with
    | some connId => some (unlock [.peerIndex] <| .sendEntries connId, m)
    | none        => some (unlock [.peerIndex] .notConnected, m)
  | sendRoute connId, m                  =>
    match m.tables.entries.lookup connId with
    | some entry => some (unlock [.entries] <| .done <| .sent <| .ok entry.connection.sender, m)
    | none       => some (unlock [.entries] .notConnected, m)
  | isConnectedLookup peerId, m          =>
    some (unlock [.peerIndex] <| .done <| .connected <| m.tables.isConnected peerId, m)
  | _, _                                 => none

-- The connections that the work of a thread replaces.
def supersedes : Pc ς → ConnectionManager ς → List ConnId
  | insertBody _ connection myId, m =>
    if ConnectionTables.keepNew myId connection.remotePeerId connection.direction then
      (m.tables.oldConnId connection.remotePeerId).toList
    else []
  | _, _ => []

-- `println!` panics when the standard output is closed. Only `insert_connection` prints with the
-- locks held, and before it has changed a map.
def panics : Pc ς → ConnectionManager ς → Bool
  | insertBody _ connection _, m => (m.tables.oldConnId connection.remotePeerId).isSome
  | _, _                         => false

end Pc

structure State (τ ς : Type) where
  manager : ConnectionManager ς
  holder : Lock → Option τ
  poisoned : Lock → Bool
  pc : τ → Pc ς
  superseded : List ConnId

inductive Action (ς : Type)
  | call (c : Call ς)
  | acquire
  | exec
  | panic
  | release
  | return

structure Label (τ ς : Type) where
  thread : τ
  action : Action ς

variable [DecidableEq τ]

def State.goto (s : State τ ς) (t : τ) (pc : Pc ς) : State τ ς :=
  { s with pc := Function.update s.pc t pc }

def State.init : State τ ς where
  manager := .new
  holder _ := none
  poisoned _ := false
  pc _ := .idle
  superseded := []

def step (s : State τ ς) : Label τ ς → Option (State τ ς)
  | ⟨t, .call c⟩  =>
    match s.pc t with
    | .idle => s.goto t c.start
    | _     => none
  | ⟨t, .acquire⟩ =>
    match (s.pc t).waits with
    | some (k, next, gaveUp) =>
      if s.holder k = none then
        some { s.goto t (if s.poisoned k then gaveUp else next) with
          holder := Function.update s.holder k (some t) }
      else none
    | none => none
  | ⟨t, .exec⟩    =>
    match (s.pc t).exec s.manager with
    | some (pc, manager) => some { s.goto t pc with
        manager
        superseded := s.superseded ++ (s.pc t).supersedes s.manager }
    | none => none
  | ⟨t, .panic⟩   =>
    if (s.pc t).panics s.manager then s.goto t (.unlock (s.pc t).holds .panicked) else none
  | ⟨t, .release⟩ =>
    match s.pc t with
    | .unlock (k :: guards) exit => some { s.goto t (.unlock guards exit) with
        holder := Function.update s.holder k none
        poisoned := Function.update s.poisoned k (exit.poisons || s.poisoned k) }
    | .unlock [] exit => s.goto t exit.pc
    | _ => none
  | ⟨t, .return⟩  =>
    match s.pc t with
    | .done _ => s.goto t .idle
    | _       => none

def system (τ ς : Type) [DecidableEq τ] : System (State τ ς) (Label τ ς) :=
  .ofFn (· = .init) step

end Parsip.Locking
