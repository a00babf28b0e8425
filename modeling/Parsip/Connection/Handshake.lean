import Parsip.Identity
import Parsip.Protocol.Deserialize
import Parsip.Protocol.Serialize

namespace Parsip

variable [Crypto]

-- A call of `perform_handshake` between two reads, after the write before the read.
inductive Handshake
  | awaitHello
  | awaitProof (theirVerifyingKey : PublicKey)
  | returned (result : Outcome PeerId)
deriving DecidableEq

namespace Handshake

def fail (kind : ErrorKind) (message : String) : Handshake :=
  .returned <| .error <| .error ⟨kind, message⟩

-- What the call writes before its first read.
def hello (identity : Identity) (myNonce : Nonce) : Message :=
  .hello identity.publicKey myNonce

-- The part of the call after `codec.decode` has returned. It ends with the next write, if any.
def resume (identity : Identity) (myNonce : Nonce) :
    Handshake → Except Error (Option Frame) → Handshake × Option Message
  | awaitHello, .error e          => (returned <| .error <| .error e, none)
  | awaitHello, .ok none          =>
    (fail .connectionAborted "Peer disconnected during handshake", none)
  | awaitHello, .ok (some frame)  =>
    match Message.tryFrom frame with
    | .ok (.hello publicKey theirNonce) =>
      if Crypto.isKey publicKey then
        (awaitProof publicKey, some <| .helloProof <| identity.sign theirNonce.toList)
      else (fail .invalidData "Invalid public key in Hello", none)
    | .ok _        => (fail .invalidData "Expected Hello message", none)
    | .error fault => (returned <| .error fault, none)
  | awaitProof _, .error e        => (returned <| .error <| .error e, none)
  | awaitProof _, .ok none        =>
    (fail .connectionAborted "Peer disconnected during proof exchange", none)
  | awaitProof theirVerifyingKey, .ok (some frame) =>
    match Message.tryFrom frame with
    | .ok (.helloProof signature) =>
      if Crypto.verify theirVerifyingKey myNonce.toList signature then
        (returned <| .ok <| .fromPublicKey theirVerifyingKey, none)
      else (fail .invalidData "Handshake signature verification failed", none)
    | .ok _        => (fail .invalidData "Expected HelloProof message", none)
    | .error fault => (returned <| .error fault, none)
  | returned result, _            => (returned result, none)

end Handshake
end Parsip
