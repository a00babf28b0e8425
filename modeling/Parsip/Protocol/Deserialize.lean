import Parsip.Library.BigEndian
import Parsip.Protocol.Basic

namespace Parsip

-- `err`
def invalid (message : String) : Fault :=
  .error ⟨.invalidData, message⟩

-- `&p[lo..hi]`, which panics out of range.
def slice (p : Bytes) (lo hi : Nat) : Outcome Bytes :=
  if lo ≤ hi ∧ hi ≤ p.length then .ok ((p.take hi).drop lo) else .error .panic

-- `copy_from_slice` and `try_into().unwrap()`, which panic on a wrong length.
def toArray (n : Nat) (p : Bytes) : Outcome (U8Array n) :=
  if h : p.length = n then .ok ⟨p, h⟩ else .error .panic

def readArray (n : Nat) (p : Bytes) (off : Nat) : Outcome (U8Array n) := do
  toArray n (← slice p off (off + n))

-- `u32::from_be_bytes` and `u64::from_be_bytes`
def readU32 (p : Bytes) (off : Nat) : Outcome UInt32 := do
  return .ofNat <| BigEndian.ofBytes (← readArray 4 p off).toList

def readU64 (p : Bytes) (off : Nat) : Outcome UInt64 := do
  return .ofNat <| BigEndian.ofBytes (← readArray 8 p off).toList

namespace Message

def parseListResources (p : Bytes) : Outcome Message :=
  if p.length ≠ 4 then .error (invalid "Bad ListResources")
  else do
    return .listResources (← readU32 p 0)

-- One turn of the loop in `parse_resource_list`: the record at `off` and the offset after it.
def parseResource (p : Bytes) (off : Nat) : Outcome (ResourceInfo × Nat) :=
  if off + 32 > p.length then .error (invalid "Bad List") else do
  let id ← readArray 32 p off
  let off := off + 32
  if off + 4 > p.length then .error (invalid "Bad List") else do
  let nl := (← readU32 p off).toNat
  let off := off + 4
  if off + nl > p.length then .error (invalid "Bad List") else do
  let name ← match fromUtf8 (← slice p off (off + nl)) with
    | some name => pure name
    | none      => .error (invalid "Bad UTF8")
  let off := off + nl
  if off + 8 > p.length then .error (invalid "Bad List") else do
  let size ← readU64 p off
  return (⟨⟨id⟩, name, size⟩, off + 8)

def parseResources (p : Bytes) : Nat → Nat → Outcome (List ResourceInfo)
  | 0, _           => .ok []
  | count + 1, off => do
    let (resource, off) ← parseResource p off
    return resource :: (← parseResources p count off)

def parseResourceList (p : Bytes) : Outcome Message :=
  if 0 + 4 > p.length then .error (invalid "Bad List") else do
  let requestId ← readU32 p 0
  if 4 + 4 > p.length then .error (invalid "Bad List") else do
  let count := (← readU32 p 4).toNat
  if count > (p.length - 8) / 44 then .error (invalid "Bad List") else do
  return .resourceList requestId (← parseResources p count 8)

def parseDownloadResource (p : Bytes) : Outcome Message :=
  if p.length ≠ 36 then .error (invalid "Bad DownloadResource") else do
  let requestId ← readU32 p 0
  return .downloadResource requestId ⟨← readArray 32 p 4⟩

def parseResourceChunk (p : Bytes) : Outcome Message :=
  if p.length < 44 then .error (invalid "Bad ResourceChunk") else do
  let requestId ← readU32 p 0
  let id ← readArray 32 p 4
  let offset ← readU64 p 36
  let data ← slice p 44 p.length
  return .resourceChunk requestId ⟨id⟩ offset data

def parseResourceEnd (p : Bytes) : Outcome Message :=
  if p.length ≠ 36 then .error (invalid "Bad ResourceEnd") else do
  let requestId ← readU32 p 0
  return .resourceEnd requestId ⟨← readArray 32 p 4⟩

-- `TryFrom<Frame> for Message`
def tryFrom (frame : Frame) : Outcome Message :=
  let p := frame.payload
  match frame.messageType with
  | 1 =>
    if p.length ≠ 64 then .error (invalid "Invalid Hello") else do
    let publicKey ← readArray 32 p 0
    return .hello publicKey (← readArray 32 p 32)
  | 2 =>
    if p.length ≠ 64 then .error (invalid "Invalid HelloProof") else do
    return .helloProof (← toArray 64 p)
  | 3 => parseListResources p
  | 4 => parseResourceList p
  | 5 => parseDownloadResource p
  | 6 => parseResourceChunk p
  | 7 => parseResourceEnd p
  | _ => .error (invalid "Unknown msg type")

end Message
end Parsip
