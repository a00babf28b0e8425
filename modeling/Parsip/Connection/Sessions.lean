import Parsip.Library.Transition
import Parsip.Connection.Handshake

-- Handshakes of honest peers on a network that an attacker controls. The attacker hands to every
-- session whatever it likes, as long as it forges no signature of an honest peer.

namespace Parsip.Sessions

open Transition

-- `α` are the honest peers.
structure Setup [Crypto] (α : Type) where
  identity : α → Identity
  distinct : ∀ a b, (identity a).peerId = (identity b).peerId → a = b

-- A call of `perform_handshake` with the Hello it has received.
structure Session (α : Type) where
  owner : α
  nonce : Nonce
  handshake : Handshake
  received : Option (PublicKey × Nonce)
deriving DecidableEq

-- `signed` are the messages that honest peers have signed so far.
structure State (α : Type) where
  sessions : List (Session α)
  signed : List (α × Bytes)
deriving DecidableEq

inductive Label (α : Type)
  | start (owner : α) (nonce : Nonce)
  | deliver (session : Nat) (result : Except Error (Option Frame))

variable [Crypto] {α : Type}

def State.init : State α where
  sessions := []
  signed := []

-- The Hello that a read returns to a session.
def helloOf : Except Error (Option Frame) → Option (PublicKey × Nonce)
  | .ok (some frame) =>
    match Message.tryFrom frame with
    | .ok (.hello publicKey nonce) => some (publicKey, nonce)
    | _                            => none
  | _ => none

def proofOf : Except Error (Option Frame) → Option Signature
  | .ok (some frame) =>
    match Message.tryFrom frame with
    | .ok (.helloProof signature) => some signature
    | _                           => none
  | _ => none

-- A Hello that a session answers with a signature of the nonce in it.
def answers (session : Session α) (result : Except Error (Option Frame)) :
    Option (PublicKey × Nonce) :=
  match session.handshake, helloOf result with
  | .awaitHello, some (publicKey, nonce) =>
    if Crypto.isKey publicKey then some (publicKey, nonce) else none
  | _, _ => none

namespace Setup

variable (x : Setup α)

def publicKey (a : α) : PublicKey :=
  (x.identity a).publicKey

-- A nonce that has not been on the network.
def Unused (s : State α) (nonce : Nonce) : Prop :=
  ∀ t ∈ s.sessions, t.nonce ≠ nonce ∧ ∀ k, t.received ≠ some (k, nonce)

-- A signature under an honest key is one that the owner of the key has made.
def Unforged (s : State α) (session : Session α) (result : Except Error (Option Frame)) : Prop :=
  ∀ a signature, session.handshake = .awaitProof (x.publicKey a) →
    proofOf result = some signature →
    Crypto.verify (x.publicKey a) session.nonce.toList signature = true →
    (a, session.nonce.toList) ∈ s.signed

-- A session after the result of a read.
def resumed (session : Session α) (result : Except Error (Option Frame)) : Session α :=
  { session with
    handshake := (session.handshake.resume (x.identity session.owner) session.nonce result).fst
    received := if session.handshake = .awaitHello then helloOf result else session.received }

def deliver (s : State α) (i : Nat) (session : Session α) (result : Except Error (Option Frame)) :
    State α where
  sessions := s.sessions.set i (x.resumed session result)
  signed := s.signed ++
    ((answers session result).map fun hello => (session.owner, hello.snd.toList)).toList

inductive Step (s : State α) : Label α → State α → Prop
  | start : Unused s nonce →
    Step s (.start owner nonce) { s with sessions := s.sessions ++ [⟨owner, nonce, .awaitHello, none⟩] }
  | deliver : s.sessions[i]? = some session → x.Unforged s session result →
    Step s (.deliver i result) (x.deliver s i session result)

def system : System (State α) (Label α) where
  init := (· = .init)
  step := x.Step

end Setup
end Parsip.Sessions
