import Mathlib.Data.List.DropRight
import Parsip.Daemon.Theorems.Aliases
import Parsip.Daemon.Theorems.Service

-- What comes of scans when there are several of them at a time.

namespace Parsip

open Transition Relation

namespace PeerEvent

def isScan : PeerEvent → Bool
  | .controlRequest .scan _ => true
  | _                       => false

-- Where `p` has been discovered, and under which nickname.
def sighting (p : PeerId) : PeerEvent → Option (SocketAddr × String)
  | .discovered q addr nickname => if q = p then some (addr, nickname) else none
  | _                           => none

-- What has happened since the last scan.
def recent (es : List PeerEvent) : List PeerEvent :=
  es.rtakeWhile (!·.isScan)

def Sights (es : List PeerEvent) (p : PeerId) : Prop :=
  ∃ addr nickname, .discovered p addr nickname ∈ es

variable {e : PeerEvent} {es es' : List PeerEvent} {p : PeerId} {c : ReplyTo}

theorem recent_concat : recent (es ++ [e]) = if e.isScan then [] else recent es ++ [e] := by
  rw [recent, List.rtakeWhile_concat]
  cases e.isScan <;> rfl

-- What has been before a scan does not matter after it.
theorem recent_scan : recent (es ++ .controlRequest .scan c :: es') = recent es' := by
  induction es' using List.reverseRecOn
  case nil => exact recent_concat
  case append_singleton es' e hi =>
    rw [← List.cons_append, ← List.append_assoc, recent_concat, recent_concat, hi]

theorem mem_of_recent (h : e ∈ recent es) : e ∈ es :=
  List.rtakeWhile_suffix _ _ |>.mem h

theorem sighting_eq_some {addr : SocketAddr} {nickname : String} :
    e.sighting p = some (addr, nickname) ↔ e = .discovered p addr nickname := by
  cases e <;> simp [sighting]

theorem Sights.sighting (h : Sights es p) : es.findSome? (·.sighting p) ≠ none := by
  obtain ⟨addr, nickname, h⟩ := h
  intro hn
  cases (sighting_eq_some.mpr rfl).symm.trans <| List.findSome?_eq_none_iff.mp hn _ h

end PeerEvent

open PeerEvent

namespace AliasRegistry

variable {a a' : AliasRegistry} {e : PeerEvent} {es : List PeerEvent} {p q : PeerId} {id : ResourceId}
variable {info : DiscoveredPeerInfo}

-- The table has those who have been discovered since the last scan, each as it has been first.
def Seen (a : AliasRegistry) (es : List PeerEvent) : Prop :=
  ∀ p, (a.discoveredPeers.lookup p).map (fun info => (info.address, info.nickname)) = (recent es).findSome? (·.sighting p)

@[simp]
theorem addPeer_discoveredPeers : (a.addPeer p).snd.discoveredPeers = a.discoveredPeers := by
  rw [addPeer_eq]

theorem naming_discoveredPeers : (a.naming e).discoveredPeers = a.discoveredPeers := by
  rw [naming]
  split
  case h_1 => exact addPeer_discoveredPeers
  case h_2 => rfl

theorem Change.discoveredPeers (h : Change e a a') (hs : e.isScan = false) (hd : ∀ p, e.sighting p = none) :
    a'.discoveredPeers = a.discoveredPeers := by
  cases h
  case resource => rw [addResource_eq]
  case cache    => rfl
  case clear    => contradiction
  case discover => cases (sighting_eq_some.mpr rfl).symm.trans (hd _)

namespace Seen

theorem lookup (k : a.Seen es) (h : a.discoveredPeers.lookup p = some info) :
    .discovered p info.address info.nickname ∈ recent es := by
  have hp := k p
  rw [h] at hp
  obtain ⟨e, he, hs⟩ := List.exists_of_findSome?_eq_some hp.symm
  exact sighting_eq_some.mp hs ▸ he

theorem sighted (k : a.Seen es) (h : Sights (recent es) p) : ∃ info, a.discoveredPeers.lookup p = some info := by
  refine Option.ne_none_iff_exists'.mp fun hn => h.sighting ?_
  rw [← k p, hn]
  rfl

end Seen
end AliasRegistry

namespace Daemon

open AliasRegistry

variable {d d' : Daemon} {env : Env} {e : PeerEvent} {es : List PeerEvent} {fx : List Effect} {c : ReplyTo}

theorem scan_discoveredPeers [Crypto] (h : d.handleControl env c .scan = .ok (d', fx)) :
    d'.aliases.discoveredPeers = ∅ := by
  simp only [handleControl] at h
  split at h
  case h_1 => rw [finish_aliases (Except.ok.inj h)]
  case h_2 => cases h; rfl

-- Who has been discovered before stays as they have been.
theorem discovered_discoveredPeers {p q : PeerId} {addr : SocketAddr} {nickname : String} :
    ((d.discovered p addr nickname).aliases.discoveredPeers.lookup q).map (fun info => (info.address, info.nickname)) =
      ((d.aliases.discoveredPeers.lookup q).map fun info => (info.address, info.nickname)).or
        ((PeerEvent.discovered p addr nickname).sighting q) := by
  simp only [discovered, sighting]
  split
  case isTrue h =>
    rw [addPeer_discoveredPeers] at h ⊢
    obtain ⟨info, hl⟩ := Table.contains_eq_true.mp h
    by_cases hq : p = q
    case pos => rw [← hq, hl]; rfl
    case neg => rw [if_neg hq, Option.or_none]
  case isFalse h =>
    rw [addPeer_discoveredPeers] at h ⊢
    have hl := Table.contains_eq_false.mp <| Bool.eq_false_iff.mpr h
    rw [Table.lookup_insert]
    by_cases hq : p = q
    case pos => rw [← hq, hl, if_pos rfl, if_pos rfl]; rfl
    case neg => rw [if_neg <| Ne.symm hq, if_neg hq, Option.or_none]

-- Other events leave the table as it is.
theorem handleEvent_discoveredPeers [Crypto] (h : d.handleEvent env e = .ok (d', fx)) (hs : e.isScan = false)
    (hd : ∀ p, e.sighting p = none) : d'.aliases.discoveredPeers = d.aliases.discoveredPeers := by
  have r := handleEvent_changes h
  generalize d'.aliases = a at r ⊢
  induction r
  case refl        => exact naming_discoveredPeers
  case tail _ h hi => exact (h.discoveredPeers hs hd).trans hi

theorem handleEvent_seen [Crypto] (h : d.handleEvent env e = .ok (d', fx)) (k : d.aliases.Seen es) :
    d'.aliases.Seen (es ++ [e]) := by
  intro p
  rw [recent_concat]
  cases hs : e.isScan
  case true =>
    cases e <;> try contradiction
    case controlRequest cmd c =>
      cases cmd <;> try contradiction
      rw [scan_discoveredPeers h]
      rfl
  case false =>
    rw [if_neg Bool.false_ne_true, List.findSome?_append, ← k p, List.findSome?_singleton]
    by_cases hd : ∀ p, e.sighting p = none
    case pos => rw [handleEvent_discoveredPeers h hs hd, hd, Option.or_none]
    case neg =>
      cases e <;> try exact absurd (fun _ => rfl) hd
      case discovered =>
        cases h
        exact discovered_discoveredPeers

end Daemon

namespace Monitor

variable [Crypto] {s s' : Monitor} {a : Action}

theorem seen_step (k : s.daemon.aliases.Seen s.log.handled) (h : s.step a = some s') :
    s'.daemon.aliases.Seen s'.log.handled := by
  cases a
  case handle env e =>
    obtain ⟨fx, hd, hl⟩ := step_handle h
    rw [hl]
    exact Daemon.handleEvent_seen hd k
  case writer =>
    obtain ⟨_, _, _, _, _, rfl⟩ := step_writer h
    exact k
  case detached =>
    obtain ⟨_, _, _, _, _, rfl⟩ := step_detached h
    exact k

theorem seen_reachable (r : Reachable system s) : s.daemon.aliases.Seen s.log.handled := by
  refine Invariant.reachable (P := fun s => s.daemon.aliases.Seen s.log.handled) ⟨?_, seen_step⟩ r
  rintro _ ⟨_, _, _, rfl⟩ p
  rfl

end Monitor

namespace Service

variable {s s' s₀ : Service} {a : Action} {as : List Action} {env : Env} {r : UInt32} {c : ReplyTo} {es : List PeerEvent}

-- What has been handled since `c` has asked for a scan.
def Since (s : Service) (c : ReplyTo) (es : List PeerEvent) : Prop :=
  ∃ es₀, s.monitor.log.handled = es₀ ++ .controlRequest .scan c :: es

-- Everybody who has been discovered since a client has asked for a scan is among the results that it is sent.
def Complete (s s' : Service) : Prop :=
  ∀ c infos es, .scanResults infos ∈ (s'.sent c).drop (s.sent c).length → s.Since c es → ∀ p, Sights es p →
    ∃ info ∈ infos, s.daemon.aliases.discoveredPeers.lookup p = some info ∧
      s.daemon.aliases.peerIdToAlias.lookup p = some info.alias ∧ .discovered p info.address info.nickname ∈ es

-- Everybody who has been discovered since the client has asked for a scan has been since anybody has.
def Undisturbed (s : Service) (r : UInt32) : Prop :=
  ∀ c es, s.daemon.reqTracker.get r = some c → s.Since c es → ∀ p, Sights es p → Sights (recent es) p

theorem Since.recent (h : s.Since c es) : PeerEvent.recent s.monitor.log.handled = PeerEvent.recent es := by
  obtain ⟨es₀, he⟩ := h
  rw [he, recent_scan]

section

variable [Crypto]

theorem Complete.undisturbed (k : s.Complete s') (hr : Reachable system s)
    (h : s.step (.handle env (.scanTimeout r)) = some s') : s.Undisturbed r := by
  obtain ⟨d, fx, hd, _, rfl⟩ := step_handle h
  intro c es hg hc p hp
  have hf : .respond c (.scanResults s.daemon.aliases.discoveredPeers.values) ∈ fx := by
    cases hd
    exact List.mem_map.mpr ⟨c, Option.mem_toList.mpr hg, rfl⟩
  obtain ⟨info, _, hl, _⟩ := k c _ es (mem_answers.mpr hf) hc p hp
  exact ⟨_, _, hc.recent ▸ (Monitor.seen_reachable <| monitor_reachable hr).lookup hl⟩

-- Nothing but the end of a scan is answered with results.
theorem Undisturbed.complete (hr : Reachable system s) (h : s.step a = some s')
    (u : ∀ env r, a = .handle env (.scanTimeout r) → s.Undisturbed r) : s.Complete s' := by
  have hr := monitor_reachable hr
  have k := Monitor.seen_reachable hr
  intro c infos es hc hs p hp
  obtain ⟨env, e, d, fx, rfl, hd, _, rfl⟩ | ⟨_, _, _, _, _, rfl⟩ := step_cases h
  case inr => rw [List.drop_length] at hc; contradiction
  case inl =>
    have hf := mem_answers.mp hc
    cases Daemon.handleEvent_emits hd hf
    case scanned =>
      obtain ⟨c', hg, he⟩ := Daemon.finish_fx (Except.ok.inj hd) _ hf
      cases he
      have hp := u _ _ rfl c es hg hs p hp
      obtain ⟨info, hl⟩ := k.sighted (hs.recent ▸ hp)
      refine ⟨info, Table.mem_values.mpr ⟨p, hl⟩, hl, (Monitor.orderly_reachable hr).discovered hl, ?_⟩
      exact mem_of_recent <| hs.recent ▸ k.lookup hl

theorem complete_iff (hr : Reachable system s) (h : s.step a = some s') :
    s.Complete s' ↔ ∀ env r, a = .handle env (.scanTimeout r) → s.Undisturbed r where
  mp k _ _ ha := k.undisturbed hr (ha ▸ h)
  mpr         := Undisturbed.complete hr h

-- In a run, nobody is missing from the results of a scan exactly when everybody who is discovered while it
-- goes on, and before another one starts, is discovered again.
theorem complete_throughout_iff (i : Initial s₀) :
    system.Throughout s₀ as s (fun s _ s' => s.Complete s') ↔
      system.Throughout s₀ as s (fun s a _ => ∀ env r, a = .handle env (.scanTimeout r) → s.Undisturbed r) := by
  refine Run.throughout_iff fun r h => ?_
  exact complete_iff (r.reachable <| .init i) h

end

-- The host answers the first scan, and not the second one.
def overlapping : List Action := [
  .handle (.fine 0) <| .controlRequest .scan 0,
  .handle (.fine 0) <| .discovered Monitor.host ⟨⟨[192, 168, 0, 2], rfl⟩, 9000⟩ "host",
  .handle (.fine 0) <| .controlRequest .scan 1
]

def overlapped : Service :=
  (overlapping.foldlM (@step .transparent) fresh).getD fresh

def unseen : Service :=
  (@step .transparent overlapped (.handle (.fine 0) (.scanTimeout 1))).getD overlapped

theorem complete_throughout_iff_unseen :
    (@system .transparent).Throughout fresh (overlapping ++ [.handle (.fine 0) (.scanTimeout 1)]) unseen
        (fun s _ s' => s.Complete s') ↔
      (@system .transparent).Throughout fresh (overlapping ++ [.handle (.fine 0) (.scanTimeout 1)]) unseen
        (fun s a _ => ∀ env r, a = .handle env (.scanTimeout r) → s.Undisturbed r) :=
  @complete_throughout_iff _ _ _ .transparent fresh_initial

theorem overlapped_not_complete : Reachable (@system .transparent) overlapped ∧
    @step .transparent overlapped (.handle (.fine 0) (.scanTimeout 1)) = some unseen ∧ ¬overlapped.Complete unseen := by
  have r : Run (@system .transparent) fresh overlapping overlapped :=
    .ofFn (rfl : overlapping.foldlM (@step .transparent) fresh = _)
  refine ⟨r.reachable <| .init fresh_initial, rfl, fun k => ?_⟩
  have hc : .scanResults [] ∈ (unseen.sent 0).drop (overlapped.sent 0).length := by decide +kernel
  have hs : overlapped.Since 0
      [.discovered Monitor.host ⟨⟨[192, 168, 0, 2], rfl⟩, 9000⟩ "host", .controlRequest .scan 1] := ⟨[], rfl⟩
  obtain ⟨_, hi, _⟩ := k 0 [] _ hc hs Monitor.host ⟨_, _, List.mem_cons_self ..⟩
  contradiction

end Service
end Parsip
