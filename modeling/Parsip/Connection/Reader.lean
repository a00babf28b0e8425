import Parsip.Protocol.Codec
import Parsip.Protocol.Deserialize

namespace Parsip

-- What the read loop of a connection makes of a result of `codec.decode`: an event for the daemon,
-- the end of the loop (and the events that come with it), or the death of the thread.
inductive Turn
  | message (m : Message)
  | leave
  | panic
deriving DecidableEq

def readTurn : Except Error (Option Frame) → Turn
  | .ok (some frame) =>
    match Message.tryFrom frame with
    | .ok m             => if m.Established then .message m else .leave
    | .error (.error _) => .leave
    | .error .panic     => .panic
  | .ok none | .error _ => .leave

end Parsip
