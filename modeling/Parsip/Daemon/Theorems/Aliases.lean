import Mathlib.Logic.Relation
import Parsip.Library.Naming
import Parsip.Daemon.Theorems.History

-- What aliases are given to whom, over whole runs of a daemon.

namespace Parsip

open Transition Relation

-- The peer that an event gives an alias, if it has none.
def PeerEvent.names : PeerEvent → Option PeerId
  | .discovered p .. | .newConnection p | .message p (.resourceList ..) => some p
  | _                                                                  => none

namespace AliasRegistry

-- What can happen to the registry besides.
inductive Change : PeerEvent → AliasRegistry → AliasRegistry → Prop
  | resource {e a} (id : ResourceId) : Change e a (a.addResource id).snd
  | cache {e a} (info : ResourceInfo) : Change e a (a.cacheInfo info)
  | clear {c a} : Change (.controlRequest .scan c) a { a with discoveredPeers := ∅ }
  | discover {p addr nickname a} (info : DiscoveredPeerInfo) (named : a.peerIdToAlias.lookup p = some info.alias)
    (absent : a.discoveredPeers.lookup p = none) :
    Change (.discovered p addr nickname) a { a with discoveredPeers := a.discoveredPeers.insert p info }

variable {a a' : AliasRegistry} {e : PeerEvent} {p : PeerId} {id : ResourceId} {name : String}

def naming (a : AliasRegistry) (e : PeerEvent) : AliasRegistry :=
  match e.names with
  | some p => (a.addPeer p).snd
  | none   => a

def peers (a : AliasRegistry) : Naming PeerId :=
  ⟨a.peerAliases, a.peerIdToAlias, a.nextPeerId⟩

def resources (a : AliasRegistry) : Naming ResourceId :=
  ⟨a.resourceAliases, a.resourceIdToAlias, a.nextResourceId⟩

theorem addPeer_eq : a.addPeer p = ((a.peers.add "p" p).fst, { a with
    peerAliases   := (a.peers.add "p" p).snd.byName
    peerIdToAlias := (a.peers.add "p" p).snd.names
    nextPeerId    := (a.peers.add "p" p).snd.next }) := by
  cases h : a.peerIdToAlias.lookup p
  case some => simp only [addPeer, h, Naming.add_of_some (n := a.peers) h]; rfl
  case none => simp only [addPeer, h, Naming.add_of_none (n := a.peers) h]; rfl

theorem addPeer_self : (a.addPeer p).snd.peerIdToAlias.lookup p = some (a.addPeer p).fst := by
  rw [addPeer_eq]
  exact Naming.add_self (n := a.peers)

theorem addResource_eq : a.addResource id = ((a.resources.add "r" id).fst, { a with
    resourceAliases   := (a.resources.add "r" id).snd.byName
    resourceIdToAlias := (a.resources.add "r" id).snd.names
    nextResourceId    := (a.resources.add "r" id).snd.next }) := by
  cases h : a.resourceIdToAlias.lookup id
  case some => simp only [addResource, h, Naming.add_of_some (n := a.resources) h]; rfl
  case none => simp only [addResource, h, Naming.add_of_none (n := a.resources) h]; rfl

theorem addResource_self : (a.addResource id).snd.resourceIdToAlias.lookup id = some (a.addResource id).fst := by
  rw [addResource_eq]
  exact Naming.add_self (n := a.resources)

end AliasRegistry

namespace Daemon

open AliasRegistry

variable {d d' : Daemon} {env : Env} {e : PeerEvent} {fx : List Effect} {p : PeerId} {c : ReplyTo} {r : UInt32}
variable {response : ControlResponse}

theorem cacheResources_changes {a : AliasRegistry} {rs : List ResourceInfo} :
    ReflTransGen (Change e) a (cacheResources a rs).snd := by
  induction rs generalizing a
  case nil => exact .refl
  case cons res rs hi => exact .head (.resource res.id) <| .head (.cache res) hi

theorem finish_aliases (h : d.finish r response = (d', fx)) : d'.aliases = d.aliases := by
  rw [finish_eq h]

theorem resourceChunk_aliases {id : ResourceId} {off : UInt64} {data : Bytes}
    (h : d.handleMessage env p (.resourceChunk r id off data) = (d', fx)) : d'.aliases = d.aliases := by
  simp only [handleMessage] at h
  split at h
  case h_1 => split at h <;> cases h <;> rfl
  case h_2 => cases h; rfl

theorem changes_of_eq (h : d'.aliases = d.aliases) : ReflTransGen (Change e) d.aliases d'.aliases :=
  h ▸ .refl

theorem handleMessage_changes {msg : Message} (h : d.handleMessage env p msg = (d', fx)) :
    ReflTransGen (Change (.message p msg)) (d.aliases.naming (.message p msg)) d'.aliases := by
  cases msg
  case hello | helloProof | listResources => cases h; exact .refl
  case downloadResource => exact changes_of_eq <| (downloadResource_spec h).left ▸ rfl
  case resourceChunk    => exact changes_of_eq <| resourceChunk_aliases h
  case resourceEnd      => exact changes_of_eq (resourceEnd_spec h).left
  case resourceList     => exact finish_aliases h ▸ cacheResources_changes

theorem handleControl_changes [Crypto] {cmd : ControlMessage} (h : d.handleControl env c cmd = .ok (d', fx)) :
    ReflTransGen (Change (.controlRequest cmd c)) d.aliases d'.aliases := by
  cases cmd <;> simp only [handleControl] at h
  case scan =>
    split at h
    case h_1 => exact finish_aliases (Except.ok.inj h) ▸ .single .clear
    case h_2 => cases h; exact .single .clear
  case connect | listResources => split at h <;> cases h <;> exact .refl
  case listPeers   => cases h; exact .refl
  case getResource =>
    obtain ⟨rfl, _⟩ | ⟨_, _, _, _, _, _, _, ha, _⟩ := getResource_spec (Except.ok.inj h)
    case inl => exact .refl
    case inr => exact changes_of_eq ha
  case addResource =>
    simp only [addResource] at h
    split at h <;> cases h
    case h_1 => exact .single <| .resource _
    case h_2 => exact .refl

-- An event names a peer at most, and then does what it does to the rest.
theorem handleEvent_changes [Crypto] (h : d.handleEvent env e = .ok (d', fx)) :
    ReflTransGen (Change e) (d.aliases.naming e) d'.aliases := by
  cases e <;> simp only [handleEvent] at h
  case disconnected   => exact changes_of_eq (disconnected_spec (Except.ok.inj h)).left
  case message        => exact handleMessage_changes (Except.ok.inj h)
  case controlRequest => exact handleControl_changes h
  case scanTimeout | connectResult => exact changes_of_eq <| finish_aliases (Except.ok.inj h)
  case newConnection => cases h; exact .refl
  case discovered p addr nickname =>
    cases h
    simp only [discovered]
    split
    case isTrue => exact .refl
    case isFalse hn =>
      exact .single <| .discover ⟨_, _, _⟩ addPeer_self (Table.contains_eq_false.mp <| Bool.eq_false_iff.mpr hn)

-- What is preserved by naming a peer and by every change is preserved by an event.
theorem handleEvent_aliases [Crypto] {P : AliasRegistry → Prop} (h : d.handleEvent env e = .ok (d', fx))
    (hn : ∀ p, e.names = some p → P (d.aliases.addPeer p).snd) (hc : ∀ {a a'}, P a → Change e a a' → P a')
    (hp : P d.aliases) : P d'.aliases := by
  have hn : P (d.aliases.naming e) := by
    rw [naming]
    split
    case h_1 p he => exact hn p he
    case h_2      => exact hp
  have hs := handleEvent_changes h
  generalize d'.aliases = a at hs
  induction hs
  case refl          => exact hn
  case tail _ hs hi  => exact hc hi hs

end Daemon

namespace AliasRegistry

variable {a a' : AliasRegistry} {e : PeerEvent} {p q : PeerId} {id : ResourceId} {name : String}

-- As long as there are numbers left, aliases are told apart. What has been discovered has its alias anyway.
structure Orderly (a : AliasRegistry) : Prop where
  peers : a.peers.Spare → a.peers.Sound "p"
  resources : a.resources.Spare → a.resources.Sound "r"
  discovered : ∀ {p info}, a.discoveredPeers.lookup p = some info → a.peerIdToAlias.lookup p = some info.alias

namespace Orderly

theorem new : AliasRegistry.new.Orderly where
  peers _      := .empty
  resources _  := .empty
  discovered h := by simp [AliasRegistry.new] at h

theorem addPeer (o : a.Orderly) : (a.addPeer p).snd.Orderly := by
  rw [addPeer_eq]
  exact ⟨fun h => (o.peers h.of_add).add h, o.resources, fun h => Naming.add_names (n := a.peers) <| o.discovered h⟩

theorem change (o : a.Orderly) (h : Change e a a') : a'.Orderly := by
  cases h
  case resource id =>
    rw [addResource_eq]
    exact ⟨o.peers, fun h => (o.resources h.of_add).add h, o.discovered⟩
  case cache => exact ⟨o.peers, o.resources, o.discovered⟩
  case clear => exact ⟨o.peers, o.resources, fun h => by simp at h⟩
  case discover p info hn _ =>
    refine ⟨o.peers, o.resources, fun {q info'} h => ?_⟩
    rw [Table.lookup_insert] at h
    split at h
    case isTrue hq  => cases h; exact hq ▸ hn
    case isFalse    => exact o.discovered h

end Orderly

-- Who has an alias keeps it. Numbers do not come back.
structure Keeps (a a' : AliasRegistry) : Prop where
  peers : ∀ {p name}, a.peerIdToAlias.lookup p = some name → a'.peerIdToAlias.lookup p = some name
  resources : ∀ {id name}, a.resourceIdToAlias.lookup id = some name → a'.resourceIdToAlias.lookup id = some name
  sparePeers : a'.peers.Spare → a.peers.Spare
  spareResources : a'.resources.Spare → a.resources.Spare

namespace Keeps

theorem refl : a.Keeps a :=
  ⟨(·), (·), (·), (·)⟩

theorem addPeer (k : a.Keeps a') : a.Keeps (a'.addPeer p).snd := by
  rw [addPeer_eq]
  exact ⟨fun h => Naming.add_names (n := a'.peers) <| k.peers h, k.resources, fun h => k.sparePeers h.of_add,
    k.spareResources⟩

theorem change {a'' : AliasRegistry} (k : a.Keeps a') (h : Change e a' a'') : a.Keeps a'' := by
  cases h
  case resource =>
    rw [addResource_eq]
    exact ⟨k.peers, fun h => Naming.add_names (n := a'.resources) <| k.resources h, k.sparePeers,
      fun h => k.spareResources h.of_add⟩
  case cache | clear | discover => exact ⟨k.peers, k.resources, k.sparePeers, k.spareResources⟩

end Keeps

-- The tables are inverse to each other, and looking through a table in whatever order finds what the other
-- tables have.
structure Bijective (a : AliasRegistry) : Prop where
  peers : ∀ {p name}, a.peerIdToAlias.lookup p = some name ↔ a.getPeer name = some p
  resources : ∀ {id name}, a.resourceIdToAlias.lookup id = some name ↔ a.getResource name = some id
  peersApart : ∀ {p q name}, a.peerIdToAlias.lookup p = some name → a.peerIdToAlias.lookup q = some name → p = q
  resourcesApart : ∀ {id id' name}, a.resourceIdToAlias.lookup id = some name →
    a.resourceIdToAlias.lookup id' = some name → id = id'
  discovered : ∀ {p info}, a.discoveredPeers.lookup p = some info → a.peerIdToAlias.lookup p = some info.alias
  connect : ∀ {name} {infos : List DiscoveredPeerInfo}, infos.Perm a.discoveredPeers.values →
    infos.find? (·.alias = name) = (a.getPeer name).bind a.discoveredPeers.lookup
  disconnected : ∀ {p} {entries : List (String × PeerId)}, entries.Perm a.peerAliases.toList →
    (entries.find? (·.snd = p)).map Prod.fst = a.peerIdToAlias.lookup p

-- Who has an alias is told that one, and nothing changes. Others are told one that nobody has had, and have it then.
structure Answers (a : AliasRegistry) : Prop where
  peer : ∀ {p name}, a.peerIdToAlias.lookup p = some name → a.addPeer p = (name, a)
  newPeer : ∀ {p}, a.peerIdToAlias.lookup p = none → a.getPeer (a.addPeer p).fst = none ∧
    (a.addPeer p).snd.peerIdToAlias.lookup p = some (a.addPeer p).fst
  resource : ∀ {id name}, a.resourceIdToAlias.lookup id = some name → a.addResource id = (name, a)
  newResource : ∀ {id}, a.resourceIdToAlias.lookup id = none → a.getResource (a.addResource id).fst = none ∧
    (a.addResource id).snd.resourceIdToAlias.lookup id = some (a.addResource id).fst

-- What has been given as an alias is nobody else's later on.
structure Stable (a a' : AliasRegistry) : Prop where
  peerIdToAlias : ∀ {p name}, a.peerIdToAlias.lookup p = some name → a'.peerIdToAlias.lookup p = some name
  peerAliases : ∀ {p name}, a.getPeer name = some p → a'.getPeer name = some p
  resourceIdToAlias : ∀ {id name}, a.resourceIdToAlias.lookup id = some name → a'.resourceIdToAlias.lookup id = some name
  resourceAliases : ∀ {id name}, a.getResource name = some id → a'.getResource name = some id

theorem Orderly.bijective (o : a.Orderly) (hp : a.peers.Spare) (hr : a.resources.Spare) : a.Bijective where
  peers          := (o.peers hp).inverse
  resources      := (o.resources hr).inverse
  peersApart     := (o.peers hp).injective
  resourcesApart := (o.resources hr).injective
  discovered     := o.discovered
  disconnected   := (o.peers hp).find_name
  connect {name infos} h := by
    have hi {p name} : a.peerIdToAlias.lookup p = some name ↔ a.getPeer name = some p := (o.peers hp).inverse
    have hm {info} : info ∈ infos ↔ ∃ p, a.discoveredPeers.lookup p = some info := by rw [h.mem_iff, Table.mem_values]
    cases hf : infos.find? (·.alias = name)
    case some info =>
      have he := List.find?_some hf
      have he : info.alias = name := of_decide_eq_true he
      obtain ⟨p, hl⟩ := hm.mp <| List.mem_of_find?_eq_some hf
      rw [hi.mp <| he ▸ o.discovered hl, Option.bind_some, hl]
    case none =>
      cases hg : a.getPeer name
      case none => rfl
      case some p =>
        cases hl : a.discoveredPeers.lookup p
        case none => exact hl.symm
        case some info =>
          have he : info.alias = name := Option.some.inj <| (o.discovered hl).symm.trans (hi.mpr hg)
          exact absurd (decide_eq_true he) <| List.find?_eq_none.mp hf info (hm.mpr ⟨p, hl⟩)

theorem Orderly.answers (o : a.Orderly) (hp : a.peers.Spare) (hr : a.resources.Spare) : a.Answers where
  peer h        := by simp only [AliasRegistry.addPeer, h]
  newPeer h     := by
    refine ⟨?_, addPeer_self⟩
    rw [addPeer_eq, Naming.add_of_none (n := a.peers) h]
    exact (o.peers hp).nextName_free
  resource h    := by simp only [AliasRegistry.addResource, h]
  newResource h := by
    refine ⟨?_, addResource_self⟩
    rw [addResource_eq, Naming.add_of_none (n := a.resources) h]
    exact (o.resources hr).nextName_free

theorem Bijective.stable (b : a.Bijective) (b' : a'.Bijective) (k : a.Keeps a') : a.Stable a' where
  peerIdToAlias     := k.peers
  peerAliases h     := b'.peers.mp <| k.peers <| b.peers.mpr h
  resourceIdToAlias := k.resources
  resourceAliases h := b'.resources.mp <| k.resources <| b.resources.mpr h

end AliasRegistry

namespace Monitor

variable [Crypto] {s s' : Monitor} {l : Action} {ls : List Action}

theorem step_aliases {P : AliasRegistry → Prop} (h : s.step l = some s')
    (hn : ∀ {a p}, P a → P (a.addPeer p).snd) (hc : ∀ {e a a'}, P a → AliasRegistry.Change e a a' → P a')
    (hp : P s.daemon.aliases) : P s'.daemon.aliases := by
  cases l
  case handle =>
    have ⟨_, hd, _⟩ := step_handle h
    exact Daemon.handleEvent_aliases hd (fun _ _ => hn hp) hc hp
  case writer =>
    obtain ⟨_, _, _, _, _, rfl⟩ := step_writer h
    exact hp
  case detached =>
    obtain ⟨_, _, _, _, _, rfl⟩ := step_detached h
    exact hp

theorem orderly_reachable (r : Reachable system s) : s.daemon.aliases.Orderly := by
  refine Invariant.reachable (P := fun s => s.daemon.aliases.Orderly) ⟨?_, ?_⟩ r
  case refine_1 => rintro _ ⟨_, _, _, rfl⟩; exact .new
  case refine_2 => exact fun o h => step_aliases h .addPeer .change o

theorem keeps_run (r : Run system s ls s') : s.daemon.aliases.Keeps s'.daemon.aliases :=
  r.preserves (P := fun s' => s.daemon.aliases.Keeps s'.daemon.aliases) (fun _ k h => step_aliases h .addPeer .change k)
    .refl

-- While fewer than 2 ^ 32 - 1 peers and resources have been given an alias, which nobody ever loses, aliases
-- and their owners are one to one, and stay so, and everybody is told the alias that the tables have.
theorem aliases_stable (h : Reachable system s) (r : Run system s ls s') (hp : s'.daemon.aliases.peers.Spare)
    (hr : s'.daemon.aliases.resources.Spare) :
    s'.daemon.aliases.Bijective ∧ s'.daemon.aliases.Answers ∧ s.daemon.aliases.Stable s'.daemon.aliases := by
  have k := keeps_run r
  have o := orderly_reachable <| r.reachable h
  have b := (orderly_reachable h).bijective (k.sparePeers hp) (k.spareResources hr)
  have b' := o.bijective hp hr
  exact ⟨b', o.answers hp hr, b.stable b' k⟩

-- One more peer with one more resource, and one that is discovered, come to a daemon that has given aliases before.
def guest : PeerId :=
  ⟨.replicate 32 3⟩

def neighbour : PeerId :=
  ⟨.replicate 32 4⟩

def melody : ResourceInfo where
  id := ⟨.replicate 32 8⟩
  name := "melody"
  size := 2

def meeting : List Action := [
  .handle (.fine 0) <| .newConnection guest,
  .handle (.fine 0) <| .message guest <| .resourceList 2 [melody],
  .handle (.fine 0) <| .discovered neighbour ⟨⟨[10, 0, 0, 4], rfl⟩, 4000⟩ "neighbour"
]

def met : Monitor :=
  (meeting.foldlM (@step .transparent) requested).getD requested

omit [Crypto] in
theorem aliases_stable_met :
    (met.daemon.aliases.Bijective ∧ met.daemon.aliases.Answers ∧ requested.daemon.aliases.Stable met.daemon.aliases) ∧
      [host, intruder, guest, neighbour].map met.daemon.aliases.peerIdToAlias.lookup = ["p1", "p2", "p3", "p4"].map some ∧
      [photo.id, melody.id].map met.daemon.aliases.resourceIdToAlias.lookup = ["r1", "r2"].map some ∧
      met.daemon.aliases.discoveredPeers.contains neighbour := by
  have r : Run (@system .transparent) requested meeting met := .ofFn (rfl : meeting.foldlM (@step .transparent) requested = _)
  refine ⟨?_, by decide +kernel, by decide +kernel, by decide +kernel⟩
  exact @aliases_stable .transparent _ _ _ requested_reachable r (by decide +kernel) (by decide +kernel)

end Monitor
end Parsip
