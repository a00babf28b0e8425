import Parsip.Connection.Reader
import Parsip.Daemon.Basic

namespace Parsip

-- What the read thread of a connection does to the rest of the daemon.
inductive ReaderAct
  | send (e : PeerEvent)
  | onDisconnect

-- The thread that `start_read_loop` spawns, up to `n` turns of its loop: what it has done when it has
-- returned by then. The stream holds `s` and then ends with an end of file (`none`) or with an error.
def startReadLoop (peerId : PeerId) (fin : Option Error) : Nat → Bytes → Option (List ReaderAct)
  | 0, _     => none
  | n + 1, s =>
    let (result, rest) := LengthPrefixCodec.decode s fin
    match readTurn result with
    | .message m => startReadLoop peerId fin n rest |>.map (.send (.message peerId m) :: ·)
    | .leave     => some [.send (.disconnected peerId), .onDisconnect]
    | .panic     => some []

end Parsip
