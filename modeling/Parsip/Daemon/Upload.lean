import Parsip.Protocol.Basic

namespace Parsip

-- A thread that sends a file.
structure Upload where
  target : PeerId
  requestId : UInt32
  id : ResourceId
  offset : UInt64
  -- What `file.read` has returned so far.
  reads : List Bytes
deriving DecidableEq

namespace Upload

-- 128KB
def bufferSize : Nat :=
  128 * 1024

def start (target : PeerId) (requestId : UInt32) (id : ResourceId) : Upload where
  target := target
  requestId := requestId
  id := id
  offset := 0
  reads := []

def chunk (u : Upload) (data : Bytes) : Message :=
  .resourceChunk u.requestId u.id u.offset data

def advance (u : Upload) (data : Bytes) : Upload :=
  { u with offset := u.offset + .ofNat data.length, reads := u.reads ++ [data] }

-- The next read may return `data`: a file has less than 2^64 bytes.
def Readable (u : Upload) (data : Bytes) : Prop :=
  data.length ≤ bufferSize ∧ u.reads.flatten.length + data.length < 2 ^ 64

instance : DecidableRel Readable :=
  fun _ _ => inferInstanceAs (Decidable (_ ∧ _))

end Upload

end Parsip
