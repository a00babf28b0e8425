import Parsip.Protocol.Basic

namespace Parsip

abbrev SigningKey := U8Array 32

-- What is used of `ed25519_dalek` and `sha2`.
class Crypto where
  verifyingKey : SigningKey → PublicKey
  sign : SigningKey → Bytes → Signature
  -- `VerifyingKey::from_bytes` accepts the bytes.
  isKey : PublicKey → Bool
  verify : PublicKey → Bytes → Signature → Bool
  sha256 : Bytes → U8Array 32

-- What they promise for honest use: a signature by a key verifies under its public key.
class LawfulCrypto [Crypto] : Prop where
  isKey_verifyingKey : ∀ k, Crypto.isKey (Crypto.verifyingKey k) = true
  verify_sign : ∀ k m, Crypto.verify (Crypto.verifyingKey k) m (Crypto.sign k m) = true

-- Stand-ins that keep the laws, for runs on concrete inputs: a signature is the key and the message
-- themselves.
namespace Crypto

def pad (n : Nat) (bs : Bytes) : U8Array n :=
  ⟨(bs ++ List.replicate n 0).take n, by simp⟩

abbrev transparent : Crypto where
  verifyingKey k := k
  sign k m := pad 64 (k.toList ++ m)
  isKey _ := true
  verify k m s := s = pad 64 (k.toList ++ m)
  sha256 bs := pad 32 bs

theorem transparent_lawful : @LawfulCrypto transparent :=
  @LawfulCrypto.mk transparent (fun _ => rfl) fun _ _ => decide_eq_true rfl

theorem transparent_sha256_injective (k k' : PublicKey)
    (h : transparent.sha256 k.toList = transparent.sha256 k'.toList) : k = k' := by
  have hp : ∀ k : PublicKey, pad 32 k.toList = k := fun k =>
    Subtype.ext <| by
      simp only [pad]
      exact List.take_left' k.property
  exact (hp k).symm.trans <| h.trans (hp k')

end Crypto

variable [Crypto]

def PeerId.fromPublicKey (vk : PublicKey) : PeerId :=
  ⟨Crypto.sha256 vk.toList⟩

-- Both ways to make an identity derive the peer id from the key.
structure Identity where
  signingKey : SigningKey
  peerId : PeerId
  derived : peerId = .fromPublicKey (Crypto.verifyingKey signingKey)

namespace Identity

def ofSeed (seed : U8Array 32) : Identity where
  signingKey := seed
  peerId := .fromPublicKey (Crypto.verifyingKey seed)
  derived := rfl

def publicKey (i : Identity) : PublicKey :=
  Crypto.verifyingKey i.signingKey

def sign (i : Identity) (message : Bytes) : Signature :=
  Crypto.sign i.signingKey message

end Identity
end Parsip
