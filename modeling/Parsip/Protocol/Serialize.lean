import Parsip.Library.BigEndian
import Parsip.Protocol.Basic

namespace Parsip

-- `u32::to_be_bytes` and `u64::to_be_bytes`
def beBytes32 (n : UInt32) : Bytes :=
  BigEndian.toBytes 4 n.toNat

def beBytes64 (n : UInt64) : Bytes :=
  BigEndian.toBytes 8 n.toNat

def ResourceInfo.serialize (r : ResourceInfo) : Bytes :=
  r.id.bytes.toList ++ beBytes32 (.ofNat (nameBytes r.name).length) ++ nameBytes r.name ++
    beBytes64 r.size

namespace Message

-- The payload that `From<&Message> for Frame` builds.
def payload : Message → Bytes
  | hello publicKey nonce             => publicKey.toList ++ nonce.toList
  | helloProof signature              => signature.toList
  | listResources requestId           => beBytes32 requestId
  | resourceList requestId resources  =>
    beBytes32 requestId ++ beBytes32 (.ofNat resources.length) ++
      resources.flatMap ResourceInfo.serialize
  | downloadResource requestId id     => beBytes32 requestId ++ id.bytes.toList
  | resourceChunk requestId id offset data =>
    beBytes32 requestId ++ id.bytes.toList ++ beBytes64 offset ++ data
  | resourceEnd requestId id          => beBytes32 requestId ++ id.bytes.toList

def toFrame (m : Message) : Frame where
  messageType := m.messageType
  payload := m.payload

end Message
end Parsip
