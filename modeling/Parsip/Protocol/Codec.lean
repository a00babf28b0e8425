import Parsip.Protocol.Serialize

namespace Parsip

-- 16MB
def maxFrameSize : Nat :=
  16 * 1024 * 1024

-- A frame that the decoder's size check lets pass.
def Frame.Fits (f : Frame) : Prop :=
  1 + f.payload.length ≤ maxFrameSize

instance : DecidablePred Frame.Fits :=
  fun f => inferInstanceAs (Decidable (1 + f.payload.length ≤ maxFrameSize))

namespace LengthPrefixCodec

-- The bytes that the encoder hands to the stream. The length is narrowed to 32 bits.
def encode (f : Frame) : Bytes :=
  beBytes32 (.ofNat (1 + f.payload.length)) ++ [f.messageType] ++ f.payload

-- The length in the four header bytes and the checks made on it before the body is allocated.
def header (s : Bytes) : Except Error Nat :=
  let frameLength := BigEndian.ofBytes (s.take 4)
  if frameLength = 0 then
    .error ⟨.invalidData, "Frame length must be at least 1 byte (for the type)"⟩
  else if frameLength > maxFrameSize then
    .error ⟨.invalidData, s!"Frame too large: {frameLength} bytes"⟩
  else .ok frameLength

-- The result of `decode` on a stream and what is left of the stream after it. The stream holds `s`
-- and then ends with an end of file (`none`) or with an error.
def decode (s : Bytes) (fin : Option Error) : Except Error (Option Frame) × Bytes :=
  if s.length < 4 then
    match fin with
    | none   => (.ok none, [])
    | some e => if e.kind = .unexpectedEof then (.ok none, []) else (.error e, [])
  else match header s with
  | .error e        => (.error e, s.drop 4)
  | .ok frameLength =>
    if s.length < 4 + frameLength then
      (.error <| fin.getD ⟨.unexpectedEof, "failed to fill whole buffer"⟩, [])
    else
      -- The body is not empty, since `1 ≤ frameLength`.
      let body := (s.drop 4).take frameLength
      (.ok <| some ⟨body.headD 0, body.tail⟩, s.drop (4 + frameLength))

-- How many bytes the pending `read_exact` is short of, when `decode` has read `s` so far. At zero
-- `decode` returns without waiting for the stream.
def needs (s : Bytes) : Nat :=
  if s.length < 4 then 4 - s.length
  else match header s with
  | .error _        => 0
  | .ok frameLength => 4 + frameLength - s.length

end LengthPrefixCodec
end Parsip
