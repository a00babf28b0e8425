import Parsip.Connection.Locking
import Parsip.Library.Sections

-- The connection manager as an object that threads share: what its calls do in the sections in which they
-- hold a lock, and nothing about the locks.

namespace Parsip.Locking

open Sections (Program)

variable {τ ς : Type}

-- A panic in a section poisons the locks for good.
structure Shared (ς : Type) where
  manager : ConnectionManager ς
  poisoned : Bool

inductive Section (ς : Type)
  -- The counter needs no lock.
  | reserve
  | insert (connId : ConnId) (connection : Connection ς) (myId : PeerId)
  | remove (connId : ConnId)
  | lookUp (peerId : PeerId)
  | route (connId : ConnId)
  | isConnected (peerId : PeerId)

inductive Answer (ς : Type)
  | reserved (connId : ConnId)
  | inserted (r : Except Error ConnId)
  | removed
  | found (r : Except Error (Option ConnId))
  | routed (r : Except Error (Option ς))
  | connected (b : Bool)
  | panicked

-- What a section comes to behind poisoned locks.
def Section.refused : Section ς → Option (Answer ς)
  | reserve       => none
  | insert ..     => some <| .inserted <| .error ⟨.other, "entries lock poisoned"⟩
  | remove _      => some .removed
  | lookUp _      => some <| .found <| .error ⟨.other, "peer_index lock poisoned"⟩
  | route _       => some <| .routed <| .error ⟨.other, "entries lock poisoned"⟩
  | isConnected _ => some <| .connected false

inductive Apply : Shared ς → Section ς → Answer ς → Shared ς → Prop
  | reserve : Apply ⟨m, b⟩ .reserve (.reserved m.nextConnId) ⟨{ m with nextConnId := m.nextConnId + 1 }, b⟩
  | insert : m.tables.insertConnection connId connection myId = (result, tables) →
    Apply ⟨m, false⟩ (.insert connId connection myId) (.inserted result) ⟨{ m with tables }, false⟩
  -- `println!` about a duplicate fails.
  | panic : (m.tables.oldConnId connection.remotePeerId).isSome →
    Apply ⟨m, false⟩ (.insert connId connection myId) .panicked ⟨m, true⟩
  | remove : Apply ⟨m, false⟩ (.remove connId) .removed ⟨m.remove connId, false⟩
  | lookUp : Apply ⟨m, false⟩ (.lookUp peerId) (.found <| .ok <| m.tables.peerIndex.lookup peerId) ⟨m, false⟩
  | route : Apply ⟨m, false⟩ (.route connId)
    (.routed <| .ok <| (m.tables.entries.lookup connId).map (·.connection.sender)) ⟨m, false⟩
  | isConnected : Apply ⟨m, false⟩ (.isConnected peerId) (.connected <| m.tables.isConnected peerId) ⟨m, false⟩
  | refuse {a : Section ς} : a.refused = some r → Apply ⟨m, true⟩ a r ⟨m, true⟩

namespace Section

-- `insert_connection` after it has reserved an id.
def inserting (connId : ConnId) (connection : Connection ς) (myId : PeerId) :
    Program (Section ς) (Answer ς) (Reply ς) :=
  .act (.insert connId connection myId) fun
    | .inserted r => .done <| .inserted r
    | _           => .crashed

def removing (connId : ConnId) : Program (Section ς) (Answer ς) (Reply ς) :=
  .act (.remove connId) fun
    | .removed => .done .removed
    | _        => .crashed

def notConnected : Reply ς :=
  .sent <| .error ⟨.notConnected, "Peer not connected"⟩

-- `send` after it has found the connection.
def routing (connId : ConnId) : Program (Section ς) (Answer ς) (Reply ς) :=
  .act (.route connId) fun
    | .routed (.ok (some sender)) => .done <| .sent <| .ok sender
    | .routed (.ok none)          => .done notConnected
    | .routed (.error e)          => .done <| .sent <| .error e
    | _                           => .crashed

def sending (peerId : PeerId) : Program (Section ς) (Answer ς) (Reply ς) :=
  .act (.lookUp peerId) fun
    | .found (.ok (some connId)) => routing connId
    | .found (.ok none)          => .done notConnected
    | .found (.error e)          => .done <| .sent <| .error e
    | _                          => .crashed

def asking (peerId : PeerId) : Program (Section ς) (Answer ς) (Reply ς) :=
  .act (.isConnected peerId) fun
    | .connected b => .done <| .connected b
    | _            => .crashed

end Section

def Call.program : Call ς → Program (Section ς) (Answer ς) (Reply ς)
  | insertConnection connection myId =>
    .act .reserve fun
      | .reserved connId => Section.inserting connId connection myId
      | _                => .crashed
  | remove connId      => Section.removing connId
  | send peerId        => Section.sending peerId
  | isConnected peerId => Section.asking peerId

-- The manager without its locks.
def sections (τ ς : Type) [DecidableEq τ] :
    Transition.System (Sections.State (Shared ς) τ (Section ς) (Answer ς) (Reply ς)) (Sections.Label τ (Call ς)) :=
  Sections.system Call.program Apply ⟨.new, false⟩

-- What can be seen of the calls from outside.
def observe (s : State τ ς) : Label τ ς → Option (Sections.Event τ (Call ς) (Reply ς))
  | ⟨t, .call c⟩  => some <| .call t c
  | ⟨t, .return⟩  =>
    match s.pc t with
    | .done reply => some <| .return t reply
    | _           => none
  | _             => none

end Parsip.Locking
