import Parsip.Daemon.Theorems.Dialling
import Parsip.Daemon.Theorems.Scanning
import Parsip.Discovery.Lan
import Parsip.Discovery.Theorems.Datagram

-- Who finds whom in a local network.

namespace Parsip

open Transition Discovery

namespace Hosts

variable {ν : Type} {hosts : Hosts ν} {a b : ν}

-- What is said about a host that has been found.
def announcement (hosts : Hosts ν) (a : ν) : PeerEvent :=
  .discovered (hosts.id a) (hosts.address a) (hosts.discovery a).myNickname

-- The answer of `b` to a scan of `a`.
def reply (hosts : Hosts ν) (b a : ν) : Datagram :=
  ⟨(hosts.discovery b).response, ⟨hosts.ip b, discoveryPort⟩, ⟨hosts.ip a, discoveryPort⟩⟩

-- A datagram that `a` has sent.
structure Sends (hosts : Hosts ν) (a : ν) (d : Datagram) : Prop where
  ip      : d.src.ip = hosts.ip a
  payload : d.payload = (hosts.discovery a).request ∨ d.payload = (hosts.discovery a).response

-- What is sent and what is told when a listener has got a datagram.
def datagram (hosts : Hosts ν) (b : ν) : Output → Option Datagram
  | .sendTo payload addr => some ⟨payload, ⟨hosts.ip b, discoveryPort⟩, addr⟩
  | .event _             => none

def told : Output → Option PeerEvent
  | .sendTo .. => none
  | .event e   => some e

theorem request_ne_response {x y : Discovery} : x.request ≠ y.response := by
  intro h
  have h := congrArg (List.take 6) h
  simp [request, response, payload, magicRequest, magicResponse] at h

-- What a listener makes of a datagram: it is told about the others, and answers their requests.
theorem receive_sends [DecidableEq ν] {d : Datagram} {buf : Buffer} (h : hosts.Sends a d) :
    ((hosts.discovery b).receive buf d.payload d.src).snd = .ok (
      if a = b then []
      else (if d.payload = (hosts.discovery a).request then [.sendTo (hosts.discovery b).response ⟨hosts.ip a, discoveryPort⟩]
        else []) ++ [.event <| hosts.announcement a]) := by
  have hl {magic : Bytes} (hm : magic.length = 6) : ((hosts.discovery a).payload magic).length ≤ 1024 := by
    rw [length_payload hm]
    exact Nat.add_le_add_left (hosts.fits a) 40
  have hi : (hosts.discovery a).myId = (hosts.discovery b).myId ↔ a = b := ⟨hosts.distinct, fun h => h ▸ rfl⟩
  have hp : Announcement.parse (d.payload.take 1024) = some ⟨d.payload = (hosts.discovery a).request,
      (hosts.discovery a).tcpListenPort, hosts.id a, (hosts.discovery a).myNickname⟩ := by
    obtain hp | hp := h.payload <;> rw [hp]
    case inl =>
      rw [request, List.take_of_length_le (hl rfl), parse_payload (.inl rfl) (hosts.named a)]
      simp
    case inr =>
      rw [response, List.take_of_length_le (hl rfl), parse_payload (.inr rfl) (hosts.named a), ← response]
      simp [request_ne_response.symm, magicRequest, magicResponse]
  rw [receive_eq, hp, Option.elim_some, answer, h.ip]
  by_cases hab : a = b
  case pos => simp [hab]
  case neg => simp [hab, hi, announcement, address]

-- A datagram tells who has sent it.
theorem Sends.unique {d : Datagram} (h : hosts.Sends a d)
    (hb : d.payload = (hosts.discovery b).request ∨ d.payload = (hosts.discovery b).response) : a = b := by
  have hp {magic : Bytes} (hm : magic = magicRequest ∨ magic = magicResponse)
      (h : (hosts.discovery a).payload magic = (hosts.discovery b).payload magic) : a = b := by
    have h := congrArg Announcement.parse h
    rw [parse_payload hm (hosts.named a), parse_payload hm (hosts.named b)] at h
    exact hosts.distinct <| congrArg Announcement.peerId <| Option.some.inj h
  obtain h | h := h.payload <;> obtain hb | hb := hb <;> rw [h] at hb
  case inl.inl => exact hp (.inl rfl) hb
  case inr.inr => exact hp (.inr rfl) hb
  case inl.inr => exact absurd hb request_ne_response
  case inr.inl => exact absurd hb.symm request_ne_response

end Hosts

namespace Discovery

variable {x : Discovery} {addrs : List Ipv4Addr} {ip ip' : Ipv4Addr} {fibTrie : Option (List Char)} {localIp : Option Ipv4Addr}

theorem mem_push (h : ip ∈ addrs) : ip ∈ push addrs ip' := by
  rw [push]
  split
  case isTrue  => exact h
  case isFalse => exact List.mem_append_left _ h

theorem mem_foldl_turn {lines : List (List Char)} {l : TrieLoop} (h : ip ∈ l.addrs) : ip ∈ (lines.foldl TrieLoop.turn l).addrs := by
  induction lines generalizing l
  case nil => exact h
  case cons line lines hi =>
    refine hi ?_
    simp only [TrieLoop.turn]
    split
    case isFalse => exact h
    case isTrue  =>
      cases (TrieLoop.address (Text.trim line)).or l.currentLocal
      case none => exact h
      case some => exact mem_push h

-- A scan reaches everybody.
theorem broadcast_mem : (x.request, ⟨Ipv4Addr.broadcast, discoveryPort⟩) ∈ x.broadcastScan fibTrie localIp := by
  have h : Ipv4Addr.broadcast ∈ fibTrie.elim [Ipv4Addr.broadcast] fun entries =>
      ((Text.lines entries).foldl TrieLoop.turn ⟨none, [Ipv4Addr.broadcast]⟩).addrs := by
    cases fibTrie
    case none => exact List.mem_singleton.mpr rfl
    case some => exact mem_foldl_turn (List.mem_singleton.mpr rfl)
  refine List.mem_map.mpr ⟨_, ?_, rfl⟩
  simp only [collectBroadcastAddrs]
  split
  case isFalse => exact h
  case isTrue  =>
    split
    case h_2 => exact h
    case h_1 =>
      split
      case isTrue  => exact h
      case isFalse => exact mem_push h

end Discovery

namespace Lan

variable {ν : Type} {hosts : Hosts ν} {s s' : Lan ν} {l : Label ν} {a b c : ν} {n : Nat} {d : Datagram}

def events (s : Lan ν) (a : ν) : List PeerEvent :=
  (s.station a).events

def handled (s : Lan ν) (a : ν) : List PeerEvent :=
  (s.station a).monitor.log.handled

variable [DecidableEq ν]

@[simp]
theorem setStation_events {x : Station} : (s.setStation a x).events b = if b = a then x.events else s.events b := by
  show (Function.update s.station a x b).events = _
  rw [Function.update_apply]
  split <;> rfl

theorem setStation_monitor {x : Station} :
    ((s.setStation a x).station b).monitor = if b = a then x.monitor else (s.station b).monitor := by
  show (Function.update s.station a x b).monitor = _
  rw [Function.update_apply]
  split <;> rfl

@[simp]
theorem setStation_handled {x : Station} :
    (s.setStation a x).handled b = if b = a then x.monitor.log.handled else s.handled b := by
  rw [handled, setStation_monitor]
  split <;> rfl

-- Only the host that has got a datagram is told something.
theorem perform_spec {outputs : List Output} : (outputs.foldl (perform hosts b) s).received = s.received ∧
    (outputs.foldl (perform hosts b) s).scanned = s.scanned ∧
      (outputs.foldl (perform hosts b) s).sent = s.sent ++ outputs.filterMap (hosts.datagram b) ∧
        ∀ c, ((outputs.foldl (perform hosts b) s).station c).monitor = (s.station c).monitor ∧
          (outputs.foldl (perform hosts b) s).events c = s.events c ++ if c = b then outputs.filterMap Hosts.told else [] := by
  induction outputs generalizing s
  case nil => simp
  case cons output outputs hi =>
    obtain ⟨hr, hk, hs, hc⟩ := @hi (perform hosts b s output)
    rw [List.foldl_cons, hr, hk, hs]
    cases output
    case sendTo => exact ⟨rfl, rfl, List.append_assoc .., hc⟩
    case event e =>
      refine ⟨rfl, rfl, rfl, fun c => ⟨?_, ?_⟩⟩
      case refine_1 =>
        rw [(hc c).left, perform, setStation_monitor]
        split
        case isTrue h => rw [h]
        case isFalse  => rfl
      case refine_2 =>
        rw [(hc c).right, perform, setStation_events]
        split
        case isTrue h => rw [h]; exact List.append_assoc ..
        case isFalse  => rfl

-- What a datagram from `a` does at `b`.
theorem receive_spec (h : s.receive hosts n b = some s') (hn : s.sent[n]? = some d) (hd : hosts.Sends a d) :
    s'.received = s.received ++ [(n, b)] ∧ s'.scanned = s.scanned ∧
      s'.sent = s.sent ++ (if a ≠ b ∧ d.payload = (hosts.discovery a).request then [hosts.reply b a] else []) ∧
        ∀ c, (s'.station c).monitor = (s.station c).monitor ∧
          s'.events c = s.events c ++ if c = b ∧ a ≠ b then [hosts.announcement a] else [] := by
  simp only [receive, hn] at h
  split at h
  case isFalse => contradiction
  case isTrue =>
    split at h
    case h_2 => contradiction
    case h_1 buf outputs ho =>
      cases h
      have ho := Except.ok.inj <| (congrArg Prod.snd ho).symm.trans <| hosts.receive_sends hd
      have hq {c} : ((s.setStation b { s.station b with buf }).station c).monitor = (s.station c).monitor ∧
          (s.setStation b { s.station b with buf }).events c = s.events c := by
        rw [setStation_monitor, setStation_events]
        by_cases h : c = b
        case pos => rw [if_pos h, if_pos h, h]; exact ⟨rfl, rfl⟩
        case neg => rw [if_neg h, if_neg h]; exact ⟨rfl, rfl⟩
      have hp := @perform_spec ν hosts { s.setStation b { s.station b with buf } with received := s.received ++ [(n, b)] } b _ outputs
      obtain ⟨hr, hk, hs, hc⟩ := hp
      have hsent : outputs.filterMap (hosts.datagram b) =
          if a ≠ b ∧ d.payload = (hosts.discovery a).request then [hosts.reply b a] else [] := by
        rw [ho]
        by_cases hab : a = b
        case pos => rw [if_pos hab, if_neg fun h => h.left hab]; rfl
        case neg =>
          by_cases hp : d.payload = (hosts.discovery a).request
          case pos => rw [if_neg hab, if_pos hp, if_pos ⟨hab, hp⟩]; rfl
          case neg => rw [if_neg hab, if_neg hp, if_neg fun h => hp h.right]; rfl
      have htold : outputs.filterMap Hosts.told = if a ≠ b then [hosts.announcement a] else [] := by
        rw [ho]
        by_cases hab : a = b
        case pos => rw [if_pos hab, if_neg fun h => h hab]; rfl
        case neg => rw [if_neg hab, if_pos hab]; split <;> rfl
      refine ⟨hr, hk, hsent ▸ hs, fun c => ⟨(hc c).left.trans hq.left, (hc c).right.trans ?_⟩⟩
      rw [htold, ite_and]
      exact congrArg (· ++ _) hq.right

theorem receive_sent (h : s.receive hosts n b = some s') : ∃ d, s.sent[n]? = some d := by
  simp only [receive] at h
  split at h
  case h_1 d hn => exact ⟨d, hn⟩
  case h_2      => contradiction

-- What can happen in a network.
inductive Steps [Crypto] (hosts : Hosts ν) (s : Lan ν) : Lan ν → Prop
  | handle {a : ν} {env port fibTrie localIp e events monitor} (oldest : (s.station a).events = e :: events)
    (step : (s.station a).monitor.step (.handle env e) = some monitor) :
    Steps hosts s (scan hosts (s.setStation a { s.station a with monitor, events }) a env port fibTrie localIp e)
  | receive {n : Nat} {b : ν} {s' : Lan ν} (receives : s.receive hosts n b = some s') : Steps hosts s s'
  | post {a : ν} {e} (other : ¬IsDiscovery e) :
    Steps hosts s (s.setStation a { s.station a with events := (s.station a).events ++ [e] })
  | work {a : ν} {monitor : Monitor} (log : monitor.log = (s.station a).monitor.log)
    (step : ∃ l, (s.station a).monitor.step l = some monitor) :
    Steps hosts s (s.setStation a { s.station a with monitor })

theorem step_steps [Crypto] (h : s.step hosts l = some s') : s.Steps hosts s' := by
  cases l <;> simp only [step] at h
  case handle =>
    simp only [handle] at h
    split at h
    case h_1 => contradiction
    case h_2 he =>
      obtain ⟨monitor, hm, rfl⟩ := Option.map_eq_some_iff.mp h
      exact .handle he hm
  case receive => exact .receive h
  case post =>
    split at h <;> cases h
    case isFalse hd => exact .post hd
  case writer =>
    obtain ⟨monitor, hm, rfl⟩ := Option.map_eq_some_iff.mp h
    obtain ⟨_, _, _, _, _, rfl⟩ := Monitor.step_writer hm
    exact .work rfl ⟨_, hm⟩
  case detached =>
    obtain ⟨monitor, hm, rfl⟩ := Option.map_eq_some_iff.mp h
    obtain ⟨_, _, _, _, _, rfl⟩ := Monitor.step_detached hm
    exact .work rfl ⟨_, hm⟩

-- What becomes of the network when `a` handles an event: a scan is sent to everybody at least, if it is sent.
inductive Scans (hosts : Hosts ν) (s : Lan ν) (a : ν) (e : PeerEvent) : Lan ν → Prop
  | other (other : e.isScan = false) : Scans hosts s a e s
  | failed (scan : e.isScan = true) : Scans hosts s a e { s with scanned := Function.update s.scanned a none }
  | sent {ds : List Datagram} (scan : e.isScan = true)
    (sends : ∀ d ∈ ds, hosts.Sends a d ∧ d.payload = (hosts.discovery a).request)
    (everybody : ∃ src, ⟨(hosts.discovery a).request, src, ⟨Ipv4Addr.broadcast, discoveryPort⟩⟩ ∈ ds) :
    Scans hosts s a e { s with
      sent    := s.sent ++ ds
      scanned := Function.update s.scanned a (some s.sent.length) }

theorem scan_scans {env : Env} {port : UInt16} {fibTrie : Option (List Char)} {localIp : Option Ipv4Addr} {e : PeerEvent} :
    s.Scans hosts a e (scan hosts s a env port fibTrie localIp e) := by
  simp only [scan]
  split
  case h_2 h =>
    refine .other ?_
    cases e <;> try rfl
    case controlRequest cmd c => cases cmd <;> first | rfl | exact absurd rfl (h c)
  case h_1 =>
    split
    case h_2 => exact .failed rfl
    case h_1 =>
      refine .sent rfl (fun d hd => ?_) ⟨⟨hosts.ip a, port⟩, List.mem_map.mpr ⟨_, broadcast_mem, rfl⟩⟩
      obtain ⟨⟨payload, dst⟩, hm, rfl⟩ := List.mem_map.mp hd
      have hp := (mem_broadcastScan hm).left
      exact ⟨⟨rfl, .inl hp⟩, hp⟩

-- Nobody says anything about others, and nobody is told but what has been said.
structure Honest [Crypto] (hosts : Hosts ν) (s : Lan ν) : Prop where
  monitors : ∀ a, Reachable Monitor.system (s.station a).monitor
  sent     : ∀ d ∈ s.sent, ∃ a, hosts.Sends a d
  heard    : ∀ b, ∀ e ∈ s.handled b ++ s.events b, IsDiscovery e → ∃ a, a ≠ b ∧ e = hosts.announcement a

namespace Honest

variable [Crypto]

omit [DecidableEq ν] in
theorem init (h : Initial s) : Honest hosts s := by
  obtain ⟨hm, hs, _, _⟩ := h
  refine ⟨fun a => .init (hm a).left, hs ▸ nofun, fun b e he => ?_⟩
  obtain ⟨⟨_, _, _, hl⟩, hn⟩ := hm b
  have hh : s.handled b = [] := by rw [handled, hl]; rfl
  rw [hh, events, hn] at he
  contradiction

-- What a host has been told of and what it has still to hear of does not change when it handles an event.
omit [DecidableEq ν] in
theorem handled_of_step {m m' : Monitor} {env : Env} {e : PeerEvent} (h : m.step (.handle env e) = some m') :
    m'.log.handled = m.log.handled ++ [e] := by
  obtain ⟨_, _, hl⟩ := Monitor.step_handle h
  rw [hl]
  rfl

theorem monitors_set {x : Station} (k : Honest hosts s) (h : Reachable Monitor.system x.monitor) (b : ν) :
    Reachable Monitor.system ((s.setStation a x).station b).monitor := by
  rw [setStation_monitor]
  split
  case isTrue  => exact h
  case isFalse => exact k.monitors b

theorem step (k : Honest hosts s) (h : s.step hosts l = some s') : Honest hosts s' := by
  cases step_steps h
  case handle a env port fibTrie localIp e events monitor he hm =>
    have k' : Honest hosts (s.setStation a { s.station a with monitor, events }) := by
      refine ⟨k.monitors_set <| .step (k.monitors a) hm, k.sent, fun b e' hb => k.heard b e' ?_⟩
      rw [setStation_handled, setStation_events] at hb
      split at hb
      case isFalse => exact hb
      case isTrue hab =>
        rw [handled_of_step hm, List.append_assoc] at hb
        rw [hab, Lan.events, he]
        exact hb
    have hs := @scan_scans ν hosts (s.setStation a { s.station a with monitor, events }) a _ env port fibTrie localIp e
    generalize scan hosts _ a env port fibTrie localIp e = s' at hs
    cases hs
    case other  => exact k'
    case failed => exact ⟨k'.monitors, k'.sent, k'.heard⟩
    case sent ds _ hd _ =>
      refine ⟨k'.monitors, fun d hm => ?_, k'.heard⟩
      obtain hm | hm := List.mem_append.mp hm
      case inl => exact k'.sent d hm
      case inr => exact ⟨a, (hd d hm).left⟩
  case receive n b hr =>
    obtain ⟨d, hn⟩ := receive_sent hr
    obtain ⟨a, hd⟩ := k.sent d (List.mem_of_getElem? hn)
    obtain ⟨_, _, hs, hq⟩ := receive_spec hr hn hd
    constructor
    case monitors => exact fun c => (hq c).left ▸ k.monitors c
    case sent =>
      intro d' hm
      rw [hs] at hm
      obtain hm | hm := List.mem_append.mp hm
      case inl => exact k.sent d' hm
      case inr =>
        split at hm
        case isFalse => contradiction
        case isTrue  => exact ⟨b, List.mem_singleton.mp hm ▸ ⟨rfl, .inr rfl⟩⟩
    case heard =>
      intro c e he hd'
      rw [handled, (hq c).left, (hq c).right, ← List.append_assoc] at he
      obtain he | he := List.mem_append.mp he
      case inl => exact k.heard c e he hd'
      case inr =>
        split at he
        case isFalse   => contradiction
        case isTrue hc => exact ⟨a, fun h => hc.right (h.trans hc.left), List.mem_singleton.mp he⟩
  case post a e hd =>
    refine ⟨k.monitors_set (k.monitors a), k.sent, fun b e' hb hd' => ?_⟩
    rw [setStation_handled, setStation_events] at hb
    split at hb
    case isFalse => exact k.heard b e' hb hd'
    case isTrue hab =>
      rw [← List.append_assoc] at hb
      obtain hb | hb := List.mem_append.mp hb
      case inl => exact k.heard b e' (hab ▸ hb) hd'
      case inr => exact absurd (List.mem_singleton.mp hb ▸ hd') hd
  case work a monitor hl hm =>
    obtain ⟨_, hm⟩ := hm
    refine ⟨k.monitors_set <| .step (k.monitors a) hm, k.sent, fun b e' hb => k.heard b e' ?_⟩
    rw [setStation_handled, setStation_events] at hb
    split at hb
    case isFalse => exact hb
    case isTrue hab =>
      rw [hl] at hb
      exact hab ▸ hb

theorem reachable (r : Reachable (system hosts) s) : Honest hosts s :=
  Invariant.reachable ⟨init, step⟩ r

omit [DecidableEq ν] in
theorem genuine {p : PeerId} {info : DiscoveredPeerInfo} (k : Honest hosts s)
    (h : (s.station a).monitor.daemon.aliases.discoveredPeers.lookup p = some info) : ∃ b, b ≠ a ∧ p = hosts.id b ∧
      info.address = hosts.address b ∧ info.nickname = (hosts.discovery b).myNickname := by
  have hm := PeerEvent.mem_of_recent <| (Monitor.seen_reachable <| k.monitors a).lookup h
  obtain ⟨b, hab, he⟩ := k.heard a _ (List.mem_append_left _ hm) trivial
  have ⟨hp, ha, hn⟩ := PeerEvent.discovered.inj he
  exact ⟨b, hab, hp, ha, hn⟩

end Honest

-- What has become of the last scan of `a`, before which there have been `k` datagrams.
structure Pursued (hosts : Hosts ν) (s : Lan ν) (a : ν) (k : Nat) : Prop where
  asked    : ∃ n src, k ≤ n ∧
    s.sent[n]? = some ⟨(hosts.discovery a).request, src, ⟨Ipv4Addr.broadcast, discoveryPort⟩⟩
  answered : ∀ n d b, k ≤ n → s.sent[n]? = some d → d.payload = (hosts.discovery a).request → (n, b) ∈ s.received → a ≠ b →
    ∃ m, k ≤ m ∧ s.sent[m]? = some (hosts.reply b a)
  told     : ∀ m b, k ≤ m → s.sent[m]? = some (hosts.reply b a) → (m, a) ∈ s.received → b ≠ a →
    hosts.announcement b ∈ s.events a ∨ hosts.announcement b ∈ PeerEvent.recent (s.handled a)

structure Attended (hosts : Hosts ν) (s : Lan ν) : Prop where
  bound   : ∀ n b, (n, b) ∈ s.received → n < s.sent.length
  pursued : ∀ a k, s.scanned a = some k → s.Pursued hosts a k

namespace Attended

variable {k : Nat}

-- Steps that send some more and tell some more.
omit [DecidableEq ν] in
theorem grow (p : s.Pursued hosts a k) (hb : ∀ n b, (n, b) ∈ s.received → n < s.sent.length) {ds : List Datagram}
    (hs : s'.sent = s.sent ++ ds) (hr : s'.received = s.received)
    (ht : ∀ b, hosts.announcement b ∈ s.events a ∨ hosts.announcement b ∈ PeerEvent.recent (s.handled a) →
      hosts.announcement b ∈ s'.events a ∨ hosts.announcement b ∈ PeerEvent.recent (s'.handled a)) : s'.Pursued hosts a k := by
  have old {n b} (hm : (n, b) ∈ s'.received) : (n, b) ∈ s.received ∧ s'.sent[n]? = s.sent[n]? :=
    ⟨hr ▸ hm, by rw [hs, List.getElem?_append_left (hb n b (hr ▸ hm))]⟩
  have new {n : Nat} {d : Datagram} (hn : s.sent[n]? = some d) : s'.sent[n]? = some d := by
    rw [hs, List.getElem?_append_left (List.getElem?_eq_some_iff.mp hn).choose, hn]
  obtain ⟨⟨n, src, hk, hn⟩, ha, hm⟩ := p
  refine ⟨⟨n, src, hk, new hn⟩, fun n d b hk hn hp hm hab => ?_, fun m b hk hn hm' hba => ?_⟩
  case refine_1 =>
    obtain ⟨hm, he⟩ := old hm
    obtain ⟨m, hk, hm⟩ := ha n d b hk (he ▸ hn) hp hm hab
    exact ⟨m, hk, new hm⟩
  case refine_2 =>
    obtain ⟨hm', he⟩ := old hm'
    exact ht b <| hm m b hk (he ▸ hn) hm' hba

-- What the last scan has set off goes on when a datagram comes to somebody.
theorem receive {d : Datagram} {c : ν} (p : s.Pursued hosts a k) (hb : ∀ n b, (n, b) ∈ s.received → n < s.sent.length)
    (h : s.receive hosts n b = some s') (hn : s.sent[n]? = some d) (hd : hosts.Sends c d) : s'.Pursued hosts a k := by
  obtain ⟨hr, _, hs, hq⟩ := receive_spec h hn hd
  have hl : n < s.sent.length := (List.getElem?_eq_some_iff.mp hn).choose
  have lt {m b'} (hm : (m, b') ∈ s'.received) : m < s.sent.length := by
    rw [hr] at hm
    obtain hm | hm := List.mem_append.mp hm
    case inl => exact hb m b' hm
    case inr => cases List.mem_singleton.mp hm; exact hl
  have old {m : Nat} {x : Datagram} (hm : s.sent[m]? = some x) : s'.sent[m]? = some x := by
    rw [hs, List.getElem?_append_left (List.getElem?_eq_some_iff.mp hm).choose, hm]
  obtain ⟨⟨m, src, hk, hm⟩, ha, ht⟩ := p
  refine ⟨⟨m, src, hk, old hm⟩, fun m x b' hk hm hp hr' hab => ?_, fun m b' hk hm hr' hba => ?_⟩
  case refine_1 =>
    have hm : s.sent[m]? = some x := by rwa [hs, List.getElem?_append_left (lt hr')] at hm
    rw [hr] at hr'
    obtain hr' | hr' := List.mem_append.mp hr'
    case inl =>
      obtain ⟨m', hk, hm'⟩ := ha m x b' hk hm hp hr' hab
      exact ⟨m', hk, old hm'⟩
    case inr =>
      cases List.mem_singleton.mp hr'
      cases hn.symm.trans hm
      obtain rfl := hd.unique (.inl hp)
      refine ⟨s.sent.length, Nat.le_of_lt <| Nat.lt_of_le_of_lt hk hl, ?_⟩
      rw [hs, if_pos ⟨hab, hp⟩]
      exact List.getElem?_concat_length
  case refine_2 =>
    have hm : s.sent[m]? = some (hosts.reply b' a) := by rwa [hs, List.getElem?_append_left (lt hr')] at hm
    rw [hr] at hr'
    rw [handled, (hq a).left, (hq a).right]
    obtain hr' | hr' := List.mem_append.mp hr'
    case inl => exact (ht m b' hk hm hr' hba).imp_left <| List.mem_append_left _
    case inr =>
      cases List.mem_singleton.mp hr'
      cases hn.symm.trans hm
      obtain rfl := hd.unique (.inr rfl)
      exact .inl <| List.mem_append_right _ <| by rw [if_pos ⟨rfl, hba⟩]; exact List.mem_singleton.mpr rfl

omit [DecidableEq ν] in
theorem init (h : Initial s) : Attended hosts s := by
  obtain ⟨_, _, hr, hs⟩ := h
  exact ⟨hr ▸ nofun, fun a k h => by rw [hs] at h; contradiction⟩

-- A station that has still heard of everybody whom it has heard of.
theorem setStation {x : Station} (p : s.Pursued hosts b k) (hb : ∀ n b, (n, b) ∈ s.received → n < s.sent.length)
    (ht : b = a → ∀ c, hosts.announcement c ∈ s.events a ∨ hosts.announcement c ∈ PeerEvent.recent (s.handled a) →
      hosts.announcement c ∈ x.events ∨ hosts.announcement c ∈ PeerEvent.recent x.monitor.log.handled) :
    (s.setStation a x).Pursued hosts b k := by
  refine grow p hb (List.append_nil _).symm rfl fun c hc => ?_
  rw [setStation_events, setStation_handled]
  split
  case isFalse    => exact hc
  case isTrue hab => exact ht hab c (hab ▸ hc)

-- A scan that has just been sent.
omit [DecidableEq ν] in
theorem scanning {ds : List Datagram} {src : SocketAddr} (hs : s'.sent = s.sent ++ ds) (hr : s'.received = s.received)
    (hb : ∀ n b, (n, b) ∈ s.received → n < s.sent.length)
    (hd : ⟨(hosts.discovery a).request, src, ⟨Ipv4Addr.broadcast, discoveryPort⟩⟩ ∈ ds) : s'.Pursued hosts a s.sent.length := by
  have unheard {n b} (hk : s.sent.length ≤ n) : (n, b) ∉ s'.received := fun hm =>
    absurd (hb n b (hr ▸ hm)) (Nat.not_lt_of_le hk)
  obtain ⟨n, hn⟩ := List.mem_iff_getElem?.mp hd
  refine ⟨⟨s.sent.length + n, src, Nat.le_add_right .., ?_⟩, fun n d b hk _ _ hm => absurd hm (unheard hk),
    fun m b hk _ hm => absurd hm (unheard hk)⟩
  rw [hs, List.getElem?_append_right (Nat.le_add_right ..), Nat.add_sub_cancel_left, hn]

variable [Crypto]

-- An event that is handled, unless it is a scan.
theorem handled {env : Env} {e : PeerEvent} {events : List PeerEvent} {monitor : Monitor} (k : Attended hosts s)
    (he : (s.station a).events = e :: events) (hm : (s.station a).monitor.step (.handle env e) = some monitor) {b : ν} {k' : Nat}
    (hb : s.scanned b = some k') (hs : b = a → e.isScan = false) :
    (s.setStation a { s.station a with monitor, events }).Pursued hosts b k' := by
  refine setStation (k.pursued b k' hb) k.bound fun hab c hc => ?_
  rw [Honest.handled_of_step hm, PeerEvent.recent_concat, hs hab, if_neg Bool.false_ne_true]
  rw [Lan.events, he] at hc
  obtain hc | hc := hc
  case inr => exact .inr <| List.mem_append_left _ hc
  case inl =>
    obtain hc | hc := List.mem_cons.mp hc
    case inl => exact .inr <| List.mem_append_right _ <| List.mem_singleton.mpr hc
    case inr => exact .inl hc

theorem step (k : Attended hosts s) (o : Honest hosts s) (h : s.step hosts l = some s') : Attended hosts s' := by
  cases step_steps h
  case handle a env port fibTrie localIp e events monitor he hm =>
    have hs := @scan_scans ν hosts (s.setStation a { s.station a with monitor, events }) a _ env port fibTrie localIp e
    generalize scan hosts _ a env port fibTrie localIp e = s' at hs
    cases hs
    case other hs => exact ⟨k.bound, fun b k' hb => k.handled he hm hb fun _ => hs⟩
    case failed =>
      refine ⟨k.bound, fun b k' (hb : Function.update s.scanned a none b = some k') => ?_⟩
      rw [Function.update_apply, Option.ite_none_left_eq_some] at hb
      have p := k.handled he hm hb.right fun h => absurd h hb.left
      exact ⟨p.asked, p.answered, p.told⟩
    case sent ds _ _ hd =>
      refine ⟨fun n b hr => Nat.lt_of_lt_of_le (k.bound n b hr) (List.prefix_append ..).length_le,
        fun b k' (hb : Function.update s.scanned a (some s.sent.length) b = some k') => ?_⟩
      rw [Function.update_apply] at hb
      split at hb
      case isFalse hab => exact grow (k.handled he hm hb fun h => absurd h hab) k.bound rfl rfl fun _ => id
      case isTrue hab =>
        obtain ⟨src, hd⟩ := hd
        subst hab
        cases hb
        exact scanning rfl rfl k.bound hd
  case receive n b hr =>
    obtain ⟨d, hn⟩ := receive_sent hr
    obtain ⟨c, hd⟩ := o.sent d (List.mem_of_getElem? hn)
    obtain ⟨hr', hk, hs, _⟩ := receive_spec hr hn hd
    refine ⟨fun m b' hm => ?_, fun a k' ha => receive (k.pursued a k' (hk ▸ ha)) k.bound hr hn hd⟩
    rw [hr'] at hm
    rw [hs, List.length_append]
    obtain hm | hm := List.mem_append.mp hm
    case inl => exact Nat.lt_add_right _ <| k.bound m b' hm
    case inr => cases List.mem_singleton.mp hm; exact Nat.lt_add_right _ (List.getElem?_eq_some_iff.mp hn).choose
  case post a e hd =>
    exact ⟨k.bound, fun b k' hb => setStation (k.pursued b k' hb) k.bound fun _ c hc => hc.imp_left (List.mem_append_left _)⟩
  case work a monitor hl _ =>
    refine ⟨k.bound, fun b k' hb => setStation (k.pursued b k' hb) k.bound fun _ c hc => ?_⟩
    rw [hl]
    exact hc

theorem reachable (r : Reachable (system hosts) s) : Attended hosts s :=
  Invariant.relative Honest.reachable init (fun o k h => k.step o h) r

end Attended

variable [Crypto]

-- Everything that has been sent has come to everybody whom it is for, and nobody has an event to handle.
def Settled (hosts : Hosts ν) (s : Lan ν) : Prop :=
  (∀ n d b, s.sent[n]? = some d → hosts.Reaches d.dst b → (n, b) ∈ s.received) ∧ ∀ a, s.events a = []

-- Whoever has been discovered is a host of the network and is where it says, and a `Connect` request dials the host
-- that it waits for.
theorem discovered_genuine (r : Reachable (system hosts) s) (a : ν) :
    (∀ p info, (s.station a).monitor.daemon.aliases.discoveredPeers.lookup p = some info → ∃ b, b ≠ a ∧ p = hosts.id b ∧
      info.address = hosts.address b ∧ info.nickname = (hosts.discovery b).myNickname) ∧
    ∀ env c name d fx addr r, (s.station a).monitor.daemon.handleControl env c (.connect name) = .ok (d, fx) →
      .connect addr r ∈ fx → ∃ b, b ≠ a ∧ addr = hosts.address b ∧
        (s.station a).monitor.daemon.request (.connect name) = some (.connect name (hosts.id b)) := by
  have k := Honest.reachable r
  refine ⟨fun p info => k.genuine, fun env c name d fx addr r h hf => ?_⟩
  obtain ⟨p, info, hr, hl, _, _, rfl⟩ | ⟨_, m, rfl⟩ := Daemon.connect_spec h
  case inr => cases List.mem_singleton.mp hf
  case inl =>
    cases List.mem_singleton.mp hf
    obtain ⟨b, hab, rfl, ha, _⟩ := k.genuine hl
    exact ⟨b, hab, ha, hr⟩

-- When everything that has been sent has come to everybody and has been handled, whoever has scanned has found
-- everybody.
theorem scan_finds_all {k : Nat} (r : Reachable (system hosts) s) (hq : s.Settled hosts) (hs : s.scanned a = some k)
    (hab : a ≠ b) : ∃ info, (s.station a).monitor.daemon.aliases.discoveredPeers.lookup (hosts.id b) = some info ∧
      info.address = hosts.address b ∧ info.nickname = (hosts.discovery b).myNickname := by
  obtain ⟨⟨n, src, hk, hn⟩, ha, ht⟩ := (Attended.reachable r).pursued a k hs
  obtain ⟨hq, he⟩ := hq
  obtain ⟨m, hk, hm⟩ := ha n _ b hk hn rfl (hq n _ b hn ⟨rfl, .inr rfl⟩) hab
  have hh := (ht m b hk hm (hq m _ a hm ⟨rfl, .inl rfl⟩) hab.symm).resolve_left (he a ▸ List.not_mem_nil)
  have hm := (Monitor.seen_reachable <| (Honest.reachable r).monitors a).sighted (p := hosts.id b) ⟨_, _, hh⟩
  obtain ⟨info, hi⟩ := hm
  obtain ⟨c, _, hc, hi'⟩ := (Honest.reachable r).genuine hi
  exact ⟨info, hi, hosts.distinct hc ▸ hi'⟩

-- A laptop and a phone.
def home : Hosts Bool where
  discovery a := if a then phone else laptop
  ip a := if a then ⟨[192, 168, 0, 13], rfl⟩ else ⟨[192, 168, 0, 12], rfl⟩
  distinct {a b} := by cases a <;> cases b <;> decide
  named a := by cases a <;> decide
  fits a := by cases a <;> decide +kernel

def quiet : Lan Bool where
  station _ := ⟨.fresh, [], .replicate 1024 0⟩
  sent := []
  received := []
  scanned _ := none

def finding : List (Label Bool) := [
  .post false (.controlRequest .scan 0), .handle false (.fine 0) 49152 none none, .receive 0 false, .receive 0 true,
  .receive 1 false, .handle true (.fine 0) 0 none none, .handle false (.fine 0) 0 none none
]

def found : Lan Bool :=
  (finding.foldlM (@step _ _ .transparent home) quiet).getD quiet

section

omit [Crypto]

theorem found_reachable : Reachable (@system _ _ .transparent home) found := by
  have hs : (finding.foldlM (@step _ _ .transparent home) quiet).isSome := by decide +kernel
  have r : Run (@system _ _ .transparent home) quiet finding found :=
    .ofFn <| (Option.some_get hs).symm.trans <| congrArg some (Option.get_eq_getD ..)
  exact r.reachable <| .init ⟨fun _ => ⟨Monitor.fresh_initial, rfl⟩, rfl, rfl, fun _ => rfl⟩

theorem found_settled : found.Settled home := by
  have hs : found.sent.length = 2 := by decide +kernel
  have hr : ∀ n < 2, ∀ b, ∀ d ∈ found.sent[n]?, home.Reaches d.dst b → (n, b) ∈ found.received := by decide +kernel
  have he : ∀ a, (found.events a).isEmpty := by decide +kernel
  refine ⟨fun n d b hn => hr n ?_ b d hn, fun a => List.isEmpty_iff.mp (he a)⟩
  exact hs ▸ (List.getElem?_eq_some_iff.mp hn).choose

theorem discovered_genuine_found : ∃ p info,
    (found.station false).monitor.daemon.aliases.discoveredPeers.lookup p = some info ∧ ∃ b, b ≠ false ∧ p = home.id b ∧
      info.address = home.address b ∧ info.nickname = (home.discovery b).myNickname := by
  have hs : ((found.station false).monitor.daemon.aliases.discoveredPeers.lookup (home.id true)).isSome := by decide +kernel
  obtain ⟨info, hi⟩ := Option.isSome_iff_exists.mp hs
  exact ⟨_, info, hi, (@discovered_genuine _ _ _ _ .transparent found_reachable false).left _ info hi⟩

theorem scan_finds_all_found : ∃ info,
    (found.station false).monitor.daemon.aliases.discoveredPeers.lookup (home.id true) = some info ∧
      info.address = home.address true ∧ info.nickname = "phone" :=
  @scan_finds_all _ _ _ _ _ _ .transparent 0 found_reachable found_settled (by decide +kernel) Bool.false_ne_true

end

end Lan
end Parsip
