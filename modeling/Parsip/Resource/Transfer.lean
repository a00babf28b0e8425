import Parsip.Library.Table
import Parsip.Protocol.Basic

namespace Parsip

-- `Instant`s are milliseconds.
structure Transfer where
  requestId : UInt32
  peerId : PeerId
  resourceId : ResourceId
  bytesTransferred : UInt64
  bytesTotal : UInt64
  startTime : Nat
  lastReportTime : Nat
  lastReportBytes : UInt64
deriving DecidableEq

-- What `update_progress` reports. `mbps` is the floating-point quotient of the last two numbers, up to
-- the units.
structure Progress where
  bytes : UInt64
  total : UInt64
  bytesSinceLast : UInt64
  elapsedMs : Nat
deriving DecidableEq

structure TransferManager where
  transfers : Table UInt32 Transfer
  keyed : ∀ {r t}, transfers.lookup r = some t → t.requestId = r

namespace TransferManager

def new : TransferManager where
  transfers := ∅
  keyed h := by simp at h

def register (m : TransferManager) (transfer : Transfer) : TransferManager where
  transfers := m.transfers.insert transfer.requestId transfer
  keyed {r t} h := by
    rw [Table.lookup_insert] at h
    split at h
    case isTrue hr  => exact Option.some.inj h ▸ hr.symm
    case isFalse hr => exact m.keyed h

end TransferManager

namespace Transfer

-- The entry after `bytes_added` more bytes at the time `now`, and the report if one is due.
def progress (t : Transfer) (now : Nat) (bytesAdded : UInt64) : Transfer × Option Progress :=
  let t := { t with bytesTransferred := t.bytesTransferred + bytesAdded }
  let elapsedMs := now - t.lastReportTime
  if elapsedMs > 200 then
    ({ t with lastReportTime := now, lastReportBytes := t.bytesTransferred },
      some ⟨t.bytesTransferred, t.bytesTotal, t.bytesTransferred - t.lastReportBytes, elapsedMs⟩)
  else (t, none)

end Transfer

namespace TransferManager

def updateProgress (m : TransferManager) (now : Nat) (requestId : UInt32) (bytesAdded : UInt64) :
    TransferManager × Option Progress :=
  match m.transfers.lookup requestId with
  | some t =>
    let (t', report) := t.progress now bytesAdded
    (m.register t', report)
  | none => (m, none)

def complete (m : TransferManager) (requestId : UInt32) : TransferManager × Option Transfer where
  fst.transfers := m.transfers.erase requestId
  fst.keyed h   := by
    simp only [Table.lookup_erase, Option.ite_none_left_eq_some] at h
    exact m.keyed h.right
  snd := m.transfers.lookup requestId

-- The entries under `ids` leave one after another.
def completeAll (m : TransferManager) : List UInt32 → TransferManager × List Transfer
  | []        => (m, [])
  | id :: ids =>
    let (m, t) := m.complete id
    let (m, ts) := m.completeAll ids
    (m, t.toList ++ ts)

def cancelForPeer (m : TransferManager) (peerId : PeerId) : TransferManager × List Transfer :=
  m.completeAll <| m.transfers.values.filter (·.peerId = peerId) |>.map (·.requestId)

end TransferManager
end Parsip
