import Parsip.Library.Channel
import Parsip.Connection.HandOff

-- One direction of an established connection: the channel to the writer thread, the stream, and the
-- read loop at the other end.

namespace Parsip

open HandOff (encode)

structure Wire where
  queue : List Message
  pipe : Pipe UInt8

namespace Wire

inductive Turn
  -- The writer thread takes a frame from its channel.
  | take
  | move (m : Pipe.Move)
  -- A turn of the read loop.
  | decode

def empty : Wire where
  queue := []
  pipe := .empty

def send (w : Wire) (m : Message) : Wire :=
  { w with queue := w.queue ++ [m] }

-- Turns after which the connection is lost are left out: that of the read loop with anything else than
-- a message, and the one in which the writer thread takes a frame that the other side would refuse.
def turn (w : Wire) : Turn → Option (Wire × Option Message)
  | .take =>
    match w.pipe.unsent, w.queue with
    | [], m :: queue =>
      if m.toFrame.Fits then some ({ queue, pipe := { w.pipe with unsent := encode m } }, none)
      else none
    | _, _ => none
  | .move m => w.pipe.move m |>.map fun pipe => ({ w with pipe }, none)
  | .decode =>
    if LengthPrefixCodec.needs w.pipe.taken = 0 then
      let (result, rest) := LengthPrefixCodec.decode w.pipe.taken none
      match readTurn result with
      | .message m => some ({ w with pipe := { w.pipe with taken := rest } }, some m)
      | _          => none
    else none

def channel : Channel Message Turn where
  State := Wire
  empty := empty
  send := send
  move := turn

end Wire
end Parsip
