import Parsip.Daemon.Dialling
import Parsip.Daemon.Theorems.Aliases
import Parsip.Daemon.Theorems.Replies

-- When a client that has asked for a peer by its alias gets connected to that peer.

namespace Parsip

open Transition

namespace AliasRegistry

variable {a a' : AliasRegistry} {e : PeerEvent} {p q : PeerId} {name : String} {id : ResourceId} {info : ResourceInfo}

-- The next alias is not taken, if `p` needs one.
def Unused (a : AliasRegistry) (p : PeerId) : Prop :=
  a.peerIdToAlias.lookup p = none → a.getPeer ("p" ++ toString a.nextPeerId.toNat) = none

-- Aliases are bound to the peers that have them.
structure Named (a : AliasRegistry) : Prop where
  registered : ∀ {p name}, a.peerIdToAlias.lookup p = some name → a.getPeer name = some p
  announced  : ∀ {p info}, a.discoveredPeers.lookup p = some info → a.getPeer info.alias = some p

def Extends (a' a : AliasRegistry) : Prop :=
  ∀ {name p}, a.getPeer name = some p → a'.getPeer name = some p

namespace Named

theorem new : AliasRegistry.new.Named where
  registered h := nomatch Table.lookup_empty.symm.trans h
  announced h  := nomatch Table.lookup_empty.symm.trans h

-- The tables for peers are as before, or fewer peers have been discovered.
theorem keep (n : a.Named) (hi : a'.peerIdToAlias = a.peerIdToAlias) (ha : a'.peerAliases = a.peerAliases)
    (hd : ∀ {p info}, a'.discoveredPeers.lookup p = some info → a.discoveredPeers.lookup p = some info) :
    a'.Named ∧ a'.Extends a := by
  have hg {name} : a'.getPeer name = a.getPeer name := by rw [getPeer, ha, getPeer]
  exact ⟨⟨fun h => hg ▸ n.registered (hi ▸ h), fun h => hg ▸ n.announced (hd h)⟩, fun h => hg ▸ h⟩

theorem addPeer (n : a.Named) (u : a.Unused p) : (a.addPeer p).snd.Named ∧ (a.addPeer p).snd.Extends a := by
  simp only [AliasRegistry.addPeer]
  split
  case h_1 => exact ⟨n, id⟩
  case h_2 hn =>
    have ext {name q} (h : a.getPeer name = some q) :
        (a.peerAliases.insert ("p" ++ toString a.nextPeerId.toNat) p).lookup name = some q := by
      have hne : name ≠ "p" ++ toString a.nextPeerId.toNat := fun he => absurd ((he ▸ h).symm.trans (u hn)) (by simp)
      exact Table.lookup_insert.trans <| (if_neg hne).trans h
    refine ⟨⟨fun {q name} h => ?_, fun h => ext <| n.announced h⟩, ext⟩
    rw [Table.lookup_insert] at h
    split at h
    case isTrue hq =>
      cases h
      rw [hq]
      exact Table.lookup_insert.trans (if_pos rfl)
    case isFalse => exact ext <| n.registered h

theorem change (n : a.Named) (h : Change e a a') : a'.Named ∧ a'.Extends a := by
  cases h
  case resource =>
    rw [addResource_eq]
    exact n.keep rfl rfl id
  case cache => exact n.keep rfl rfl id
  case clear => exact n.keep rfl rfl fun h => by simp at h
  case discover p info hn _ =>
    refine ⟨⟨n.registered, fun {q info'} h => ?_⟩, id⟩
    rw [Table.lookup_insert] at h
    split at h
    case isTrue hq  => cases h; exact n.registered <| hq ▸ hn
    case isFalse    => exact n.announced h

end Named
end AliasRegistry

namespace Daemon

variable {d d' : Daemon} {env : Env} {e : PeerEvent} {fx : List Effect} {p : PeerId} {r : UInt32} {c : ReplyTo}
variable {name : String} {response : ControlResponse}

-- Bindings of aliases stay as they are as long as new ones do not come into their way.
theorem handleEvent_named [Crypto] (n : d.aliases.Named) (u : ∀ p, e.names = some p → d.aliases.Unused p)
    (h : d.handleEvent env e = .ok (d', fx)) : d'.aliases.Named ∧ d'.aliases.Extends d.aliases :=
  handleEvent_aliases (P := fun a => a.Named ∧ a.Extends d.aliases) h (fun p he => n.addPeer <| u p he)
    (fun nx hc => (nx.left.change hc).imp_right fun x _ _ h => x (nx.right h)) ⟨n, id⟩

-- A `Connect` request finds the peer that has been discovered under the alias.
theorem connect_spec [Crypto] (h : d.handleControl env c (.connect name) = .ok (d', fx)) :
    (∃ p info, d.request (.connect name) = some (.connect name p) ∧ d.aliases.discoveredPeers.lookup p = some info ∧
      info.alias = name ∧ d'.reqTracker = d.reqTracker.advance.snd.register d.reqTracker.nextId c ∧
      fx = [.connect info.address d.reqTracker.nextId]) ∨
    d.request (.connect name) = none ∧ ∃ m, fx = [.respond c (.error m)] := by
  simp only [handleControl] at h
  rw [Table.values, List.find?_map] at h
  split at h <;> cases h
  case h_1 info hf =>
    obtain ⟨⟨p, info'⟩, he, hi⟩ := Option.map_eq_some_iff.mp hf
    subst hi
    have hn := List.find?_some he
    have hn : info'.alias = name := of_decide_eq_true hn
    exact .inl ⟨p, info', Option.map_eq_some_iff.mpr ⟨_, he, rfl⟩, Table.mem_toList.mp (List.mem_of_find?_eq_some he), hn, rfl, rfl⟩
  case h_2 hf => exact .inr ⟨Option.map_eq_none_iff.mpr (Option.map_eq_none_iff.mp hf), _, rfl⟩

theorem request_connect {cmd : ControlMessage} (h : d.request cmd = some (.connect name p)) :
    ∃ info, d.aliases.discoveredPeers.lookup p = some info ∧ info.alias = name := by
  cases cmd <;> simp only [request] at h <;> try contradiction
  case scan => cases h
  case listResources =>
    obtain ⟨_, _, h⟩ := Option.map_eq_some_iff.mp h
    contradiction
  case getResource => split at h <;> cases h
  case connect peerAlias =>
    obtain ⟨⟨q, info⟩, he, h⟩ := Option.map_eq_some_iff.mp h
    cases h
    have hn := List.find?_some he
    exact ⟨info, Table.mem_toList.mp (List.mem_of_find?_eq_some he), of_decide_eq_true hn⟩

end Daemon

namespace Service

variable {s : Service} {env : Env} {e : PeerEvent} {d : Daemon} {fx : List Effect} {r : UInt32} {dial : Dial}

-- A control request that is registered is what its id is known for, other ids are known for what they were.
theorem handled_request : (s.handled e d fx).request r = s.request r ∨ ∃ cmd sender, e = .controlRequest cmd sender ∧
    r = s.daemon.reqTracker.nextId ∧ d.reqTracker.get r = some sender ∧ (s.handled e d fx).request r = s.daemon.request cmd := by
  cases e <;> try exact .inl rfl
  case controlRequest cmd sender =>
    simp only [handled]
    split
    case isFalse => exact .inl rfl
    case isTrue hg =>
      by_cases hr : r = s.daemon.reqTracker.nextId
      case pos => exact .inr ⟨cmd, sender, rfl, hr, hr ▸ hg, by rw [hr, Function.update_self]⟩
      case neg => exact .inl <| Function.update_of_ne hr ..

theorem mem_dialled [Crypto] (h : s.daemon.handleEvent env e = .ok (d, fx)) (hd : dial ∈ s.dialled env e) :
    ∃ name, e = .controlRequest (.connect name) dial.sender ∧ .connect dial.address dial.reqId ∈ fx := by
  simp only [dialled, h] at hd
  split at hd
  case h_2 => contradiction
  case h_1 sender he hc =>
    cases he
    have ⟨f, hf, hd⟩ := List.mem_filterMap.mp hd
    cases f <;> cases hd
    cases Daemon.handleEvent_emits h hf
    case connect => cases hc; exact ⟨_, rfl, hf⟩

end Service

namespace Dialling

variable {s s' : Dialling} {l : Label} {env : Env} {e : PeerEvent} {a : Action} {d : Daemon} {fx : List Effect}

-- What a step does.
inductive Takes [Crypto] (s : Dialling) : Label → Dialling → Prop
  | handle {env e service} (other : ∀ r result, e ≠ .connectResult r result)
    (step : s.service.step (.handle env e) = some service) :
    Takes s (.act (.handle env e)) ⟨service, s.dials ++ s.service.dialled env e⟩
  | turn {a m} (step : s.service.step a = some { s.service with monitor := m })
    (reqTracker : m.daemon.reqTracker = s.daemon.reqTracker)
    (transferMgr : m.daemon.transferMgr = s.daemon.transferMgr) (aliases : m.daemon.aliases = s.daemon.aliases) :
    Takes s (.act a) ⟨{ s.service with monitor := m }, s.dials⟩
  | settle {i result dial} (dials : s.dials[i]? = some dial) :
    Takes s (.settle i result) { s with dials := s.dials.set i { dial with result := some result } }
  | report {env i dial result service} (dials : s.dials[i]? = some dial) (done : dial.result = some result)
    (step : s.service.step (.handle env (.connectResult dial.reqId result)) = some service) :
    Takes s (.report env i) ⟨service, s.dials.eraseIdx i⟩

theorem takes [Crypto] (h : s.step l = some s') : s.Takes l s' := by
  cases l
  case settle i result =>
    simp only [step] at h
    split at h
    case h_2 => contradiction
    case h_1 dial hd => split at h <;> cases h; exact .settle hd
  case report env i =>
    simp only [step] at h
    split at h
    case h_2 => contradiction
    case h_1 hd =>
      have ⟨service, hs, h⟩ := Option.map_eq_some_iff.mp h
      exact h ▸ .report hd rfl hs
  case act a =>
    cases a
    case writer | detached =>
      have ⟨service, hs, h⟩ := Option.map_eq_some_iff.mp h
      obtain ⟨_, _, _, _, ha, _⟩ | ⟨m, _, hq, ht, hl, rfl⟩ := Service.step_cases hs
      case inl => contradiction
      case inr => exact h ▸ .turn hs hq ht hl
    case handle env e =>
      cases e
      case connectResult => contradiction
      all_goals
        simp only [step] at h
        have ⟨service, hs, h⟩ := Option.map_eq_some_iff.mp h
        exact h ▸ .handle (fun _ _ he => PeerEvent.noConfusion he) hs

-- A client is told that it is connected only when the host that its request has dialled has turned out to be the
-- peer that the alias is bound to.
def Reaches (s : Dialling) (l : Label) (s' : Dialling) : Prop :=
  ∀ c, .ok ∈ (s'.service.sent c).drop (s.service.sent c).length →
    ∃ env i dial peerAlias p q, l = .report env i ∧ s.dials[i]? = some dial ∧ dial.sender = c ∧
      s.service.request dial.reqId = some (.connect peerAlias p) ∧ dial.result = some (.ok q) ∧
      s.daemon.aliases.getPeer peerAlias = some q

-- The host at the address is the one that the address has been announced for, if somebody still waits for it.
def Authentic (s : Dialling) : Label → Prop
  | .report _ i => ∀ dial q c peerAlias p, s.dials[i]? = some dial → dial.result = some (.ok q) →
    s.daemon.reqTracker.get dial.reqId = some c → s.service.request dial.reqId = some (.connect peerAlias p) → q = p
  | _ => True

-- Neither aliases nor the ids of dials that are under way come round.
def Unambiguous (s : Dialling) : Label → Prop
  | .act (.handle env (.controlRequest cmd _)) =>
    s.daemon.Registers env cmd → ∀ dial ∈ s.dials, dial.reqId ≠ s.daemon.reqTracker.nextId
  | .act (.handle _ e) => ∀ p, e.names = some p → s.daemon.aliases.Unused p
  | _ => True

-- What is known of aliases, of those that have been asked for, and of dials.
structure Bound (s : Dialling) : Prop where
  named     : s.daemon.aliases.Named
  requested : ∀ {r name p}, s.service.request r = some (.connect name p) → s.daemon.aliases.getPeer name = some p
  dialled   : ∀ {dial c}, dial ∈ s.dials → s.daemon.reqTracker.get dial.reqId = some c →
    c = dial.sender ∧ ∃ name p, s.service.request dial.reqId = some (.connect name p)

theorem Takes.service [Crypto] (t : s.Takes l s') :
    s'.service = s.service ∨ ∃ a, s.service.step a = some s'.service := by
  cases t
  case settle     => exact .inl rfl
  case handle h   => exact .inr ⟨_, h⟩
  case turn h _ _ _ => exact .inr ⟨_, h⟩
  case report h   => exact .inr ⟨_, h⟩

theorem service_reachable [Crypto] (r : Reachable system s) : Reachable Service.system s.service := by
  induction r
  case init h => exact .init h.left
  case step h hi =>
    obtain he | ⟨a, ha⟩ := (takes h).service
    case inl => exact he ▸ hi
    case inr => exact .step hi ha

namespace Bound

theorem init (h : Initial s) : Bound s := by
  obtain ⟨⟨⟨_, _, _, hm⟩, _, _, hr⟩, hd⟩ := h
  constructor
  case named     => rw [daemon, Service.daemon, hm]; exact .new
  case requested => intro r _ _ h; rw [hr] at h; contradiction
  case dialled   => intro _ _ h; rw [hd] at h; contradiction

variable [Crypto]

theorem handled (b : Bound s) (li : s.service.Linear) (h : s.daemon.handleEvent env e = .ok (d, fx))
    (hc : ∀ c ∈ e.channel, c ∉ s.service.channels) (u : ∀ p, e.names = some p → s.daemon.aliases.Unused p)
    (hi : ∀ cmd sender, e = .controlRequest cmd sender → s.daemon.Registers env cmd →
      ∀ dial ∈ s.dials, dial.reqId ≠ s.daemon.reqTracker.nextId)
    {dials : List Dial} (hd : ∀ dial ∈ dials, dial ∈ s.dials ∨ dial ∈ s.service.dialled env e) :
    Bound ⟨s.service.handled e d fx, dials⟩ := by
  have fresh {c} (he : c ∈ e.channel) (r : UInt32) := li.not_waiting hc he r
  have ⟨n, x⟩ := Daemon.handleEvent_named b.named u h
  constructor
  case named => exact n
  case requested =>
    intro r name p hr
    obtain he | ⟨cmd, sender, _, _, _, he⟩ := @Service.handled_request s.service e d fx r
    case inl => exact x <| b.requested <| he ▸ hr
    case inr =>
      have ⟨info, hl, hn⟩ := Daemon.request_connect <| he ▸ hr
      exact x <| hn ▸ b.named.announced hl
  case dialled =>
    intro dial c hm hp
    have hp : d.reqTracker.get dial.reqId = some c := hp
    obtain ho | hm := hd dial hm
    case inl =>
      obtain hp' | ⟨he, hr⟩ := (Daemon.handleEvent_tracks h).pending hp
      case inl =>
        have ⟨hs, name, p, hq⟩ := b.dialled ho hp'
        refine ⟨hs, name, p, ?_⟩
        obtain hq' | ⟨cmd, sender, rfl, _, hg, _⟩ := @Service.handled_request s.service e d fx dial.reqId
        case inl => exact hq'.trans hq
        case inr => exact absurd hp' <| fresh (Option.some.inj (hg.symm.trans hp) ▸ rfl) _
      case inr =>
        cases e <;> try contradiction
        case controlRequest cmd sender =>
          cases he
          obtain ⟨hg, _⟩ | ⟨_, hq⟩ := Daemon.handleControl_registers h
          case inl => exact absurd hr <| hi cmd c rfl hg dial ho
          case inr => exact absurd (hq ▸ hp) <| fresh rfl _
    case inr =>
      have ⟨name, he, hf⟩ := Service.mem_dialled h hm
      subst he
      have h : s.daemon.handleControl env dial.sender (.connect name) = .ok (d, fx) := h
      obtain ⟨p, info, hq, _, _, ht, rfl⟩ | ⟨_, m, rfl⟩ := Daemon.connect_spec h
      case inr => cases List.mem_singleton.mp hf
      case inl =>
        have hr := (Effect.connect.inj <| List.mem_singleton.mp hf).right
        have hg : d.reqTracker.get s.daemon.reqTracker.nextId = some dial.sender := by
          rw [ht, RequestTracker.register_get, if_pos rfl]
        have hs : dial.sender = c := Option.some.inj <| hg.symm.trans <| hr ▸ hp
        refine ⟨hs.symm, name, p, ?_⟩
        simp only [Service.handled, hr]
        rw [if_pos hg, Function.update_self, hq]

theorem step (b : Bound s) (li : s.service.Linear) (h : s.step l = some s') (u : s.Unambiguous l) : Bound s' := by
  cases takes h
  case settle i result dial hd =>
    refine ⟨b.named, b.requested, fun {dial' c} hm hp => ?_⟩
    obtain hm | rfl := List.mem_or_eq_of_mem_set hm
    case inl => exact b.dialled hm hp
    case inr =>
      have hm : dial ∈ s.dials := List.mem_of_getElem? hd
      exact @Bound.dialled _ b dial c hm hp
  case turn m _ hq _ ha =>
    constructor
    case named     => exact ha ▸ b.named
    case requested => exact fun h => ha ▸ b.requested h
    case dialled   => exact fun hm hp => b.dialled hm (hq ▸ hp)
  case handle env e service ho hs =>
    obtain ⟨d, fx, hd, hc, rfl⟩ := Service.step_handle hs
    refine b.handled li hd hc (fun p hp => ?_) (fun cmd sender he hr => ?_) fun dial hm => List.mem_append.mp hm
    case refine_1 => cases e <;> first | exact u p hp | contradiction
    case refine_2 => subst he; exact u hr
  case report env i dial result service hd hr hs =>
    obtain ⟨d, fx, hd, hc, rfl⟩ := Service.step_handle hs
    exact b.handled li hd hc nofun nofun fun dial hm => .inl <| List.mem_of_mem_eraseIdx hm

theorem reachable (r : Reachable (system.restrict Unambiguous) s) : Bound s := by
  refine Invariant.relative (P := Bound) (Q := fun s => s.service.Linear) ?_ init ?_ r
  case refine_1 => exact fun r => .reachable <| service_reachable r.of_restrict
  case refine_2 => exact fun li b h => b.step li h.left h.right

end Bound

section

variable [Crypto] {s₀ : Dialling} {ls : List Label}

-- Whom a client is connected to is up to who answers at the address.
theorem reaches_iff (b : Bound s) (h : s.step l = some s') : s.Reaches l s' ↔ s.Authentic l := by
  cases takes h
  case settle | turn =>
    refine iff_of_true (fun c hc => ?_) trivial
    rw [List.drop_length] at hc
    contradiction
  case handle env e service ho hs =>
    obtain ⟨d, fx, hd, _, rfl⟩ := Service.step_handle hs
    refine iff_of_true (fun c hc => ?_) trivial
    cases Daemon.handleEvent_emits hd <| Service.mem_answers.mp hc
    exact absurd rfl <| ho _ _
  case report env i dial result service hi hr hs =>
    obtain ⟨d, fx, hd, _, rfl⟩ := Service.step_handle hs
    constructor
    case mp =>
      intro x dial' q c peerAlias p hi' hr' hp hq
      cases hi.symm.trans hi'
      cases hr.symm.trans hr'
      have hf : .respond c .ok ∈ fx := by
        cases hd
        exact List.mem_map_of_mem <| Option.mem_toList.mpr hp
      obtain ⟨_, _, dial', peerAlias', p', q', he, hi', _, hq', hr', hg⟩ := x c <| Service.mem_answers.mpr hf
      cases he
      cases hi.symm.trans hi'
      cases hr.symm.trans hr'
      cases hq.symm.trans hq'
      exact Option.some.inj <| hg.symm.trans <| b.requested hq
    case mpr =>
      intro x c hc
      have hf := Service.mem_answers.mp hc
      have ⟨c', hp, he⟩ := Daemon.finish_fx (Except.ok.inj hd) _ hf
      cases Daemon.handleEvent_emits hd hf
      case connected =>
        cases he
        have ⟨hs, peerAlias, p, hq⟩ := b.dialled (List.mem_of_getElem? hi) hp
        have hx := x dial _ c peerAlias p hi hr hp hq
        exact ⟨env, i, dial, peerAlias, p, _, rfl, hi, hs.symm, hq, hr, hx ▸ b.requested hq⟩

theorem reaches_throughout_iff (i : Initial s₀) :
    (system.restrict Unambiguous).Throughout s₀ ls s Reaches ↔
      (system.restrict Unambiguous).Throughout s₀ ls s fun s l _ => s.Authentic l := by
  refine Run.throughout_iff fun r h => ?_
  exact reaches_iff (.reachable <| r.reachable <| .init i) h.left

end

def fresh : Dialling :=
  ⟨.fresh, []⟩

theorem fresh_initial : Initial fresh :=
  ⟨Service.fresh_initial, rfl⟩

-- Somebody announces the host at an address that is not the host's, and the intruder answers there.
def spoofing : List Label := [
  .act <| .handle (.fine 0) <| .discovered Monitor.host ⟨⟨[192, 168, 0, 66], rfl⟩, 9000⟩ "host",
  .act <| .handle (.fine 0) <| .controlRequest (.connect "p1") 0,
  .settle 0 <| .ok Monitor.intruder
]

def spoofed : Dialling :=
  (spoofing.foldlM (@step .transparent) fresh).getD fresh

def misconnected : Dialling :=
  (@step .transparent spoofed (.report (.fine 0) 0)).getD spoofed

theorem spoofed_run : Run (@system .transparent) fresh spoofing spoofed :=
  .ofFn (rfl : spoofing.foldlM (@step .transparent) fresh = _)

theorem reaches_throughout_iff_spoofed :
    (@system .transparent |>.restrict Unambiguous).Throughout fresh spoofing spoofed Reaches ↔
      (@system .transparent |>.restrict Unambiguous).Throughout fresh spoofing spoofed fun s l _ => s.Authentic l :=
  @reaches_throughout_iff _ .transparent _ _ fresh_initial

theorem misconnected_not_reaches : Reachable (@system .transparent) spoofed ∧
    @step .transparent spoofed (.report (.fine 0) 0) = some misconnected ∧
      ¬spoofed.Reaches (.report (.fine 0) 0) misconnected := by
  refine ⟨spoofed_run.reachable <| .init fresh_initial, rfl, fun x => ?_⟩
  have ho : .ok ∈ (misconnected.service.sent 0).drop (spoofed.service.sent 0).length := by decide +kernel
  have hd : spoofed.dials[0]? = some ⟨1, ⟨⟨[192, 168, 0, 66], rfl⟩, 9000⟩, 0, some (.ok Monitor.intruder)⟩ := rfl
  have hp : spoofed.service.request 1 = some (.connect "p1" Monitor.host) := by decide +kernel
  have hg : spoofed.daemon.aliases.getPeer "p1" = some Monitor.host := by decide +kernel
  obtain ⟨_, _, dial, peerAlias, p, q, he, hi, _, hq', hr', hg'⟩ := x 0 ho
  cases he
  cases hd.symm.trans hi
  cases hr'
  cases hp.symm.trans hq'
  exact absurd (hg.symm.trans hg') (by decide)

end Dialling
end Parsip
