import Mathlib.Data.Vector.Basic

namespace Parsip

abbrev Bytes := List UInt8

-- `[u8; n]`
abbrev U8Array (n : Nat) := List.Vector UInt8 n

-- The `std::io::ErrorKind`s that the code makes or tests for.
inductive ErrorKind
  | alreadyExists
  | brokenPipe
  | connectionAborted
  | invalidData
  | notConnected
  | notFound
  | other
  | timedOut
  | unexpectedEof
  | wouldBlock
  | writeZero
deriving DecidableEq

structure Error where
  kind : ErrorKind
  message : String
deriving DecidableEq

-- How a call can end other than with a value.
inductive Fault
  | error (e : Error)
  | panic
deriving DecidableEq

abbrev Outcome := Except Fault

structure PeerId where
  bytes : U8Array 32
deriving DecidableEq

namespace PeerId

def toBytes (id : PeerId) : Bytes :=
  id.bytes.toList

def fromBytes (bytes : U8Array 32) : PeerId :=
  ⟨bytes⟩

end PeerId

structure ResourceId where
  bytes : U8Array 32
deriving DecidableEq

structure ResourceInfo where
  id : ResourceId
  name : String
  size : UInt64
deriving DecidableEq

structure Frame where
  messageType : UInt8
  payload : Bytes
deriving DecidableEq

abbrev PublicKey := U8Array 32
abbrev Nonce     := U8Array 32
abbrev Signature := U8Array 64

inductive Message
  | hello (publicKey : PublicKey) (nonce : Nonce)
  | helloProof (signature : Signature)
  | listResources (requestId : UInt32)
  | resourceList (requestId : UInt32) (resources : List ResourceInfo)
  | downloadResource (requestId : UInt32) (id : ResourceId)
  | resourceChunk (requestId : UInt32) (id : ResourceId) (offset : UInt64) (data : Bytes)
  | resourceEnd (requestId : UInt32) (id : ResourceId)
deriving DecidableEq

namespace Message

def messageType : Message → UInt8
  | hello ..            => 1
  | helloProof ..       => 2
  | listResources ..    => 3
  | resourceList ..     => 4
  | downloadResource .. => 5
  | resourceChunk ..    => 6
  | resourceEnd ..      => 7

-- The messages of the established phase: everything but the two handshake messages.
def Established : Message → Prop
  | hello .. | helloProof .. => False
  | _                        => True

instance : DecidablePred Established
  | hello .. | helloProof ..                                => .isFalse id
  | listResources .. | resourceList .. | downloadResource ..
  | resourceChunk .. | resourceEnd ..                       => .isTrue trivial

end Message

-- `String::as_bytes`
def nameBytes (s : String) : Bytes :=
  s.toUTF8.data.toList

-- `String::from_utf8`
def fromUtf8 (bs : Bytes) : Option String :=
  String.fromUTF8? ⟨bs.toArray⟩

@[simp]
theorem fromUtf8_nameBytes (s : String) : fromUtf8 (nameBytes s) = some s := by
  have h : (⟨(nameBytes s).toArray⟩ : ByteArray) = s.toByteArray := rfl
  rw [fromUtf8, h, String.fromUTF8?, dif_pos s.isValidUTF8]
  rfl

end Parsip
