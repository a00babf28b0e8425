import Parsip.Library.Transition
import Parsip.Protocol.Stream

-- The loop in `encode` call by call, on a stream that takes as much of each call as it likes.

namespace Parsip.LengthPrefixCodec

open Transition

-- The loop between two calls of `write_vectored`, or after it has returned. `accepted` is a record of
-- what the stream has taken.
structure Encoding where
  totalLen : Nat
  totalWritten : Nat
  iov : List Bytes
  accepted : Bytes
  result : Option (Except Error Unit)

namespace Encoding

def start (f : Frame) : Encoding where
  totalLen := 4 + 1 + f.payload.length
  totalWritten := 0
  iov := [beBytes32 (.ofNat (1 + f.payload.length)), [f.messageType], f.payload]
  accepted := []
  result := none

-- `write_vectored` has taken `n` bytes of what the slices offer, or has failed. The slices are moved on
-- only when there is something left to write.
def step (s : Encoding) : Except Error Nat → Option Encoding
  | .error e =>
    if s.result.isSome then none else some { s with result := some (.error e) }
  | .ok n =>
    if s.result.isSome ∨ n > s.iov.flatten.length then none
    else if n = 0 then
      some { s with result := some <| .error ⟨.writeZero, "failed to write whole frame"⟩ }
    else
      let totalWritten := s.totalWritten + n
      let accepted := s.accepted ++ s.iov.flatten.take n
      if totalWritten < s.totalLen then some { s with totalWritten, accepted, iov := advance s.iov n }
      else some { s with totalWritten, accepted, result := some (.ok ()) }

-- The calls of `write_vectored` that take something.
def Productive : Except Error Nat → Bool
  | .ok n    => 0 < n
  | .error _ => false

def system (f : Frame) : System Encoding (Except Error Nat) :=
  .ofFn (· = start f) step

end Encoding
end Parsip.LengthPrefixCodec
