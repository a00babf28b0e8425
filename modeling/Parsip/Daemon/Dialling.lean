import Parsip.Daemon.Service

-- The daemon together with the threads that dial for its clients, up to what they tell the event loop.

namespace Parsip

open Transition

-- The threads of a `Connect` request. The client is only there for the record.
structure Dial where
  reqId : UInt32
  address : SocketAddr
  sender : ReplyTo
  result : Option (Except String PeerId)

def Effect.dial (sender : ReplyTo) : Effect → Option Dial
  | .connect address reqId => some { reqId, address, sender, result := none }
  | _                      => none

-- The dials that handling an event sets off.
def Service.dialled (s : Service) (env : Env) (e : PeerEvent) [Crypto] : List Dial :=
  match s.daemon.handleEvent env e, e.channel with
  | .ok (_, fx), some sender => fx.filterMap (·.dial sender)
  | _, _                     => []

structure Dialling where
  service : Service
  dials : List Dial

namespace Dialling

-- Who answers at the address of a dial, and what comes of it, is up to the network.
inductive Label
  | act (a : Action)
  | settle (i : Nat) (result : Except String PeerId)
  | report (env : Env) (i : Nat)

abbrev daemon (s : Dialling) : Daemon :=
  s.service.daemon

variable [Crypto]

-- Results of dials come from dials only.
def step (s : Dialling) : Label → Option Dialling
  | .act (.handle _ (.connectResult ..)) => none
  | .act (.handle env e) =>
    s.service.step (.handle env e) |>.map fun service => ⟨service, s.dials ++ s.service.dialled env e⟩
  | .act a => s.service.step a |>.map ({ s with service := · })
  | .settle i result =>
    match s.dials[i]? with
    | some dial => if dial.result.isNone then some { s with dials := s.dials.set i { dial with result } } else none
    | none      => none
  | .report env i =>
    match s.dials[i]? with
    | some ⟨reqId, _, _, some result⟩ =>
      s.service.step (.handle env (.connectResult reqId result)) |>.map fun service => ⟨service, s.dials.eraseIdx i⟩
    | _ => none

def Initial (s : Dialling) : Prop :=
  s.service.Initial ∧ s.dials = []

def system : System Dialling Label :=
  .ofFn Initial step

end Dialling
end Parsip
