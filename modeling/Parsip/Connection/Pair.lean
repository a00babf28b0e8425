import Mathlib.Logic.Function.Basic
import Parsip.Library.Pipe
import Parsip.Library.Transition
import Parsip.Connection.Theorems.Manager

-- Two peers with any number of connections between them. Each end of a connection is registered
-- by a thread of its own, so the two peers may insert the connections in different orders.

namespace Parsip.Pair

open Transition

-- `ι` are the connections.
structure Setup (ι : Type) where
  id : Side → PeerId
  initiator : ι → Side
  distinct : id .a ≠ id .b

-- Two peers of which the first has the larger id.
def Setup.descending {ι : Type} (initiator : ι → Side) : Setup ι where
  id
    | .a => ⟨.replicate 32 9⟩
    | .b => ⟨.replicate 32 1⟩
  initiator := initiator
  distinct := by decide

-- One end of a connection: before `insert_connection`, after it, or after the end of its reader.
inductive Status
  | pending
  | kept (connId : ConnId)
  | rejected
  | removed
deriving DecidableEq

structure State (ι : Type) where
  manager : Side → ConnectionManager ι
  status : Side → ι → Status

inductive Label (ι : Type)
  | insert (side : Side) (link : ι)
  | remove (side : Side) (link : ι)

variable {ι : Type}

namespace Setup

def connection (x : Setup ι) (side : Side) (link : ι) : Connection ι where
  remotePeerId := x.id side.other
  direction := if x.initiator link = side then .outgoing else .incoming
  sender := link

-- The connection that a peer has to the other one, by its id.
def index (x : Setup ι) (s : State ι) (side : Side) : Option ConnId :=
  (s.manager side).tables.peerIndex.lookup (x.id side.other)

-- The peers may have connections to others.
structure Initial (x : Setup ι) (s : State ι) : Prop where
  consistent : ∀ side, (s.manager side).Consistent
  apart : ∀ side, x.index s side = none
  pending : ∀ side link, s.status side link = .pending

end Setup

variable [DecidableEq ι]

def State.set (s : State ι) (side : Side) (link : ι) (manager : ConnectionManager ι)
    (status : Status) : State ι where
  manager := Function.update s.manager side manager
  status := Function.update s.status side <| Function.update (s.status side) link status

namespace Setup

def step (x : Setup ι) (s : State ι) : Label ι → Option (State ι)
  | .insert side link =>
    match s.status side link with
    | .pending =>
      match (s.manager side).insertConnection (x.connection side link) (x.id side) with
      | (.ok connId, manager) => some <| s.set side link manager (.kept connId)
      | (.error _, manager)   => some <| s.set side link manager .rejected
    | _ => none
  | .remove side link =>
    -- A connection is closed where it is rejected. The reader at its other end then comes to the
    -- end of the stream and calls `remove`.
    match s.status side link, s.status side.other link with
    | .kept connId, .rejected =>
      some <| s.set side link ((s.manager side).remove connId) .removed
    | _, _ => none

def system (x : Setup ι) : System (State ι) (Label ι) :=
  .ofFn x.Initial x.step

end Setup
end Parsip.Pair
