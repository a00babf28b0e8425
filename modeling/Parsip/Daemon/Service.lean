import Parsip.Daemon.History

-- The daemon together with a record of what its clients have asked for and have been sent. The record
-- changes nothing about the daemon's steps.

namespace Parsip

open Transition

-- What a request that has been registered waits for.
inductive Request
  | scan
  -- The peer that has been discovered under the alias.
  | connect (peerAlias : String) (peerId : PeerId)
  | list (peerId : PeerId)
  | get (peerId : PeerId) (id : ResourceId)
deriving DecidableEq

namespace Daemon

-- The request that `cmd` registers, if it registers one.
def request (d : Daemon) : ControlMessage → Option Request
  | .scan                     => some .scan
  | .connect peerAlias        =>
    d.aliases.discoveredPeers.toList.find? (·.snd.alias = peerAlias) |>.map (.connect peerAlias ·.fst)
  | .listResources peerAlias  => d.aliases.getPeer peerAlias |>.map .list
  | .getResource peerAlias ra =>
    match d.aliases.getPeer peerAlias, d.aliases.getResource ra with
    | some peerId, some id => some <| .get peerId id
    | _, _                 => none
  | .listPeers | .addResource _ => none

end Daemon

def PeerEvent.channel : PeerEvent → Option ReplyTo
  | .controlRequest _ sender => some sender
  | _                        => none

def Effect.responseTo (sender : ReplyTo) : Effect → Option ControlResponse
  | .respond sender' response => if sender' = sender then some response else none
  | _                         => none

-- `channels` are those that requests have come with, `sent` is what has been sent on each of them, and
-- `request` is what the last request under an id is waiting for.
structure Service where
  monitor : Monitor
  channels : List ReplyTo
  sent : ReplyTo → List ControlResponse
  request : UInt32 → Option Request

namespace Service

abbrev daemon (s : Service) : Daemon :=
  s.monitor.daemon

def handled (s : Service) (e : PeerEvent) (d : Daemon) (fx : List Effect) : Service where
  monitor := ⟨d, s.monitor.log.record s.daemon e fx⟩
  channels := s.channels ++ e.channel.toList
  sent sender := s.sent sender ++ fx.filterMap (·.responseTo sender)
  request :=
    match e with
    | .controlRequest cmd sender =>
      let r := s.daemon.reqTracker.nextId
      if d.reqTracker.get r = some sender then Function.update s.request r (s.daemon.request cmd) else s.request
    | _ => s.request

variable [Crypto]

-- Every control request comes with a channel of its own.
def step (s : Service) : Action → Option Service
  | .handle env e =>
    match s.daemon.handleEvent env e with
    | .ok (d, fx) => if ∃ c ∈ e.channel, c ∈ s.channels then none else some <| s.handled e d fx
    | .error _    => none
  | a             => s.monitor.step a |>.map ({ s with monitor := · })

def Initial (s : Service) : Prop :=
  s.monitor.Initial ∧ s.channels = [] ∧ (∀ c, s.sent c = []) ∧ ∀ r, s.request r = none

def system : System Service Action :=
  .ofFn Initial step

end Service
end Parsip
