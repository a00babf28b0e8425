import Mathlib.Logic.Function.Basic
import Parsip.Library.Pipe
import Parsip.Library.Transition
import Parsip.Connection.Handshake
import Parsip.Connection.Reader

-- The two ends of one connection between honest peers, byte by byte: the handshake, and then the
-- write and the read loop.

namespace Parsip.HandOff

open Transition

structure Setup [Crypto] where
  identity : Side → Identity
  nonce : Side → Nonce
  -- What a side sends after its handshake.
  later : Side → List Message

-- `queue` is what waits for the writer thread, `delivered` what the reader thread has handed on. A
-- reader that has left its loop is `stopped`; the teardown after that is not part of this model.
structure Endpoint where
  handshake : Handshake
  queue : List Message
  delivered : List Message
  stopped : Bool

-- The pipe of a side carries what the side sends.
structure State where
  endpoint : Side → Endpoint
  pipe : Side → Pipe UInt8

inductive Label
  | write (side : Side) (n : Nat)
  | deliver (side : Side) (n : Nat)
  | read (side : Side) (n : Nat)
  | decode (side : Side)
  | send (side : Side)

def encode (m : Message) : Bytes :=
  LengthPrefixCodec.encode m.toFrame

def State.setPipe (s : State) (side : Side) (pipe : Pipe UInt8) : State :=
  { s with pipe := Function.update s.pipe side pipe }

def State.setEndpoint (s : State) (side : Side) (endpoint : Endpoint) : State :=
  { s with endpoint := Function.update s.endpoint side endpoint }

-- The bytes a side has read and not yet decoded.
def State.taken (s : State) (side : Side) : Bytes :=
  (s.pipe side.other).taken

-- During the handshake a side reads after its write, and `read_exact` asks for no byte beyond the
-- frame. The read loop comes with a buffer.
def State.mayRead (s : State) (side : Side) (n : Nat) : Bool :=
  match (s.endpoint side).handshake with
  | .returned (.ok _)    => !(s.endpoint side).stopped
  | .returned (.error _) => false
  | _                    =>
    (s.pipe side).unsent = [] ∧ n ≤ LengthPrefixCodec.needs (s.taken side)

namespace Setup

variable [Crypto] (x : Setup)

def hello (side : Side) : Message :=
  Handshake.hello (x.identity side) (x.nonce side)

def init : State where
  endpoint side := ⟨.awaitHello, x.later side, [], false⟩
  pipe side := { Pipe.empty with unsent := encode (x.hello side) }

-- A turn of the read loop.
def readLoop (s : State) (side : Side) (result : Except Error (Option Frame)) : State :=
  let endpoint := s.endpoint side
  match readTurn result with
  | .message m      => s.setEndpoint side { endpoint with delivered := endpoint.delivered ++ [m] }
  | .leave | .panic => s.setEndpoint side { endpoint with stopped := true }

-- The handshake goes on with the result of its read.
def handshake (s : State) (side : Side) (result : Except Error (Option Frame)) : State :=
  let endpoint := s.endpoint side
  let (handshake, reply) := endpoint.handshake.resume (x.identity side) (x.nonce side) result
  let s := s.setEndpoint side { endpoint with handshake }
  match reply with
  | some m => s.setPipe side { s.pipe side with unsent := encode m }
  | none   => s

def step (s : State) : Label → Option State
  | .write side n   => (s.pipe side).move (.write n) |>.map (s.setPipe side)
  | .deliver side n => (s.pipe side).move (.deliver n) |>.map (s.setPipe side)
  | .read side n    =>
    if s.mayRead side n then
      (s.pipe side.other).move (.read n) |>.map (s.setPipe side.other)
    else none
  | .decode side    =>
    if s.mayRead side 0 ∧ LengthPrefixCodec.needs (s.taken side) = 0 then
      let (result, rest) := LengthPrefixCodec.decode (s.taken side) none
      let s := s.setPipe side.other { s.pipe side.other with taken := rest }
      match (s.endpoint side).handshake with
      | .returned _ => some <| readLoop s side result
      | _           => some <| x.handshake s side result
    else none
  | .send side      =>
    let endpoint := s.endpoint side
    match endpoint.handshake, (s.pipe side).unsent, endpoint.queue with
    | .returned (.ok _), [], m :: queue =>
      let s := s.setEndpoint side { endpoint with queue }
      some <| s.setPipe side { s.pipe side with unsent := encode m }
    | _, _, _ => none

def system : System State Label :=
  .ofFn (· = x.init) x.step

end Setup
end Parsip.HandOff
