import Parsip.Library.Source
import Parsip.Protocol.Codec

-- The codec on streams that take and give their bytes in pieces.

namespace Parsip.LengthPrefixCodec

-- The slices after the first `n` of their bytes have been written.
def advance : List Bytes → Nat → List Bytes
  | [], _              => []
  | slice :: slices, n =>
    if n = 0 then slice :: slices
    else if slice.length > n then slice.drop n :: slices
    else [] :: advance slices (n - slice.length)

-- The loop in `encode`: its result, the bytes that the stream has taken, and what is left of `calls`.
-- These are the results of `write_vectored`; a call about which they say nothing takes everything.
def writeLoop (totalLen : Nat) : List (Except Error Nat) → Nat → List Bytes →
    Except Error Unit × Bytes × List (Except Error Nat)
  | calls, totalWritten, iov =>
    if totalWritten < totalLen then
      match calls with
      | []                => (.ok (), iov.flatten, [])
      | .error e :: calls => (.error e, [], calls)
      | .ok n :: calls    =>
        -- A stream takes no more than it is given.
        let n := min n iov.flatten.length
        if n = 0 then (.error ⟨.writeZero, "failed to write whole frame"⟩, [], calls)
        else
          let (result, written, calls) := writeLoop totalLen calls (totalWritten + n) (advance iov n)
          (result, iov.flatten.take n ++ written, calls)
    else (.ok (), [], calls)

def encodeTo (calls : List (Except Error Nat)) (f : Frame) : Except Error Unit × Bytes × List (Except Error Nat) :=
  let lenBytes := beBytes32 (.ofNat (1 + f.payload.length))
  writeLoop (4 + 1 + f.payload.length) calls 0 [lenBytes, [f.messageType], f.payload]

-- The stream gives the bytes that an `encode` has written before it returned `Ok`.
def Written (f : Frame) (s : Source UInt8) : Prop :=
  ∃ calls calls', encodeTo calls f = (.ok (), s.content, calls')

-- Frames one after another, up to the first one that fails.
def encodeAll (calls : List (Except Error Nat)) : List Frame → Except Error Unit × Bytes
  | []      => (.ok (), [])
  | f :: fs =>
    match encodeTo calls f with
    | (.ok (), bytes, calls) =>
      let (result, rest) := encodeAll calls fs
      (result, bytes ++ rest)
    | (.error e, bytes, _)   => (.error e, bytes)

def decodeFrom (s : Source UInt8) : Except Error (Option Frame) × Source UInt8 :=
  match s.readExact 4 with
  | (none, s)              => (.ok none, s)
  | (some lengthBuffer, s) =>
    match header lengthBuffer with
    | .error e        => (.error e, s)
    | .ok frameLength =>
      match s.readExact frameLength with
      | (none, s)      => (.error ⟨.unexpectedEof, "failed to fill whole buffer"⟩, s)
      | (some body, s) => (.ok <| some ⟨body.headD 0, body.tail⟩, s)

-- What `decode` does to the stream and to the memory.
inductive Access
  | readExact (n : Nat)
  | allocate (n : Nat)
deriving DecidableEq

-- `decode` with a record of that.
def decodeLogged (s : Source UInt8) : (Except Error (Option Frame) × Source UInt8) × List Access :=
  match s.readExact 4 with
  | (none, s)              => ((.ok none, s), [.readExact 4])
  | (some lengthBuffer, s) =>
    match header lengthBuffer with
    | .error e        => ((.error e, s), [.readExact 4])
    | .ok frameLength =>
      let log := [.readExact 4, .allocate frameLength, .readExact frameLength]
      match s.readExact frameLength with
      | (none, s)      => ((.error ⟨.unexpectedEof, "failed to fill whole buffer"⟩, s), log)
      | (some body, s) =>
        ((.ok <| some ⟨body.headD 0, body.tail⟩, s), log ++ [.allocate (frameLength - 1)])

-- The results of `n` calls of `decode`.
def decodes : Nat → Source UInt8 → List (Except Error (Option Frame))
  | 0, _     => []
  | n + 1, s =>
    let (result, s) := decodeFrom s
    result :: decodes n s

end Parsip.LengthPrefixCodec
