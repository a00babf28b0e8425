import Parsip.Daemon.Theorems.Agreement
import Parsip.Daemon.Theorems.Service

-- When what comes for a request is what the request waits for.

namespace Parsip

open Transition

-- The events that the request under the id `r` waits for.
def Request.Expects (r : UInt32) : Request → PeerEvent → Prop
  | .scan, .scanTimeout r'                         => r' = r
  | .connect .., .connectResult r' _               => r' = r
  | .list p, .message q (.resourceList r' _)       => q = p ∧ r' = r
  | .get p x, .message q (.resourceChunk r' id ..) => q = p ∧ r' = r ∧ id = x
  | .get p x, .message q (.resourceEnd r' id)      => q = p ∧ r' = r ∧ id = x
  | .get p _, .disconnected q                      => q = p
  | _, _                                           => False

namespace Daemon

-- A control request gets an id of its own.
def Registers (env : Env) (d : Daemon) : ControlMessage → Prop
  | .getResource peerAlias resourceAlias => d.Starts env peerAlias resourceAlias
  | cmd                                  => ∃ q, d.request cmd = some q

-- An event finds its way to the request under the id `r`, if there is one.
def Touches (env : Env) (d : Daemon) (r : UInt32) : PeerEvent → Prop
  | .message _ (.resourceChunk r' id ..) => r' = r ∧ d.Reports env r id
  | .message _ (.resourceEnd r' id)      =>
    r' = r ∧ d.downloadMgr.Completes d.storage env.io id ∧ ∃ t, d.transferMgr.transfers.lookup r = some t
  | .disconnected p       => ∃ t, d.transferMgr.transfers.lookup r = some t ∧ t.peerId = p
  | .controlRequest cmd _ => d.reqTracker.nextId = r ∧ d.Registers env cmd
  | e                     => e.finishes = some r

variable {d d' : Daemon} {env : Env} {e : PeerEvent} {fx : List Effect} {r : UInt32} {c : ReplyTo}
variable {cmd : ControlMessage}

theorem touches_iff_of_finishes {r' : UInt32} (h : e.finishes = some r') : d.Touches env r e ↔ r' = r := by
  have hs : d.Touches env r e ↔ e.finishes = some r := by
    cases e <;> try contradiction
    case message msg => cases msg <;> first | contradiction | exact .rfl
    case scanTimeout | connectResult => exact .rfl
  rw [hs, h, Option.some.injEq]

theorem request_of_starts {peerAlias resourceAlias : String} (h : d.Starts env peerAlias resourceAlias) :
    ∃ q, d.request (.getResource peerAlias resourceAlias) = some q := by
  have ⟨_, _, _, hp, hr, _⟩ := h
  exact ⟨_, by rw [request, hp, hr]⟩

theorem request_of_registers (h : d.Registers env cmd) : ∃ q, d.request cmd = some q := by
  cases cmd <;> first | exact h | exact request_of_starts h

-- A control request gets an id and stays pending under it, or comes to its end at once, or leaves the
-- requests alone.
theorem handleControl_registers [Crypto] (h : d.handleControl env c cmd = .ok (d', fx)) :
    d.Registers env cmd ∧ (∃ o, (o = none ∨ o = some c) ∧
        ∀ r, d'.reqTracker.get r = if r = d.reqTracker.nextId then o else d.reqTracker.get r) ∨
      ¬d.Registers env cmd ∧ d'.reqTracker = d.reqTracker := by
  have registered {q : RequestTracker} (hq : q = d.reqTracker.advance.snd.register d.reqTracker.nextId c) :
      ∃ o, (o = none ∨ o = some c) ∧ ∀ r, q.get r = if r = d.reqTracker.nextId then o else d.reqTracker.get r :=
    ⟨_, .inr rfl, fun _ => by rw [hq, RequestTracker.register_get, RequestTracker.advance_get]⟩
  cases cmd <;> simp only [handleControl] at h
  case scan =>
    refine .inl ⟨⟨_, rfl⟩, ?_⟩
    split at h
    case h_2 => cases h; exact registered rfl
    case h_1 =>
      obtain rfl := finish_eq (Except.ok.inj h)
      refine ⟨_, .inl rfl, fun r => ?_⟩
      rw [RequestTracker.complete_get, RequestTracker.register_get, RequestTracker.advance_get]
      split
      case isTrue hr  => exact (if_pos hr).symm
      case isFalse hr => exact (if_neg hr).symm
  case connect peerAlias =>
    rw [Table.values, List.find?_map] at h
    split at h <;> cases h
    case h_1 hf =>
      obtain ⟨entry, he, _⟩ := Option.map_eq_some_iff.mp hf
      exact .inl ⟨⟨_, Option.map_eq_some_iff.mpr ⟨entry, he, rfl⟩⟩, registered rfl⟩
    case h_2 hf =>
      refine .inr ⟨?_, rfl⟩
      rintro ⟨_, hq⟩
      obtain ⟨entry, he, _⟩ := Option.map_eq_some_iff.mp hq
      rw [Option.map_eq_none_iff] at hf
      exact absurd (he.symm.trans hf) (by simp)
  case listPeers => cases h; exact .inr ⟨by simp [Registers, request], rfl⟩
  case listResources =>
    split at h <;> cases h
    case h_1 hg => exact .inl ⟨⟨_, by rw [request, hg]; rfl⟩, registered rfl⟩
    case h_2 hg => exact .inr ⟨by simp [Registers, request, hg], rfl⟩
  case getResource =>
    have h := Except.ok.inj h
    obtain ⟨rfl, m, rfl⟩ | ⟨p, id, info, hp, hr, hi, hs, _, _, _, hq, _⟩ := getResource_spec h
    case inl => exact .inr ⟨not_starts h, rfl⟩
    case inr => exact .inl ⟨starts_of_started hp hr hi hs, registered hq⟩
  case addResource =>
    simp only [addResource] at h
    split at h <;> cases h <;> exact .inr ⟨by simp [Registers, request], rfl⟩

-- An event that finds its way to a request answers it, tells of progress or takes its id.
theorem Tracks.touched [Crypto] (t : d.Tracks env d' fx e) (h : d.handleEvent env e = .ok (d', fx))
    (hp : d.reqTracker.get r = some c) (hc : c ∉ e.channel) (ht : d.Touches env r e) :
    fx.filterMap (·.responseTo c) ≠ [] ∨ d'.reqTracker.get r ≠ some c := by
  have finished {rs : List UInt32} (hf : d.reqTracker.Finishes rs fx d'.reqTracker) (hr : r ∈ rs) :
      d'.reqTracker.get r ≠ some c := by
    rw [hf.get, if_pos hr]
    exact nofun
  have control {cmd c'} (h : d.handleEvent env (.controlRequest cmd c') = .ok (d', fx)) (hc : c' ≠ c)
      (ht : d.Touches env r (.controlRequest cmd c')) : d'.reqTracker.get r ≠ some c := by
    obtain ⟨_, o, ho, hg⟩ | ⟨hn, _⟩ := handleControl_registers h
    case inr => exact absurd ht.right hn
    case inl =>
      rw [hg, if_pos ht.left.symm]
      obtain rfl | rfl := ho
      case inl => exact nofun
      case inr => exact fun he => hc <| Option.some.inj he
  cases t
  case idle hi =>
    cases e <;> try first | contradiction | cases ht
    case message msg => cases msg <;> contradiction
  case finished hf he =>
    exact .inr <| finished hf <| (touches_iff_of_finishes he).mp ht ▸ List.mem_singleton.mpr rfl
  case reported c' _ _ hg _ he =>
    obtain ⟨rfl, _⟩ := ht
    have hc : c' = c := Option.some.inj <| hg.symm.trans hp
    rw [he, Effect.responses_singleton, if_pos hc]
    exact .inl nofun
  case unreported hn _ _ =>
    obtain ⟨rfl, ht⟩ := ht
    rw [hn ht] at hp
    contradiction
  case ended hf => exact .inr <| finished hf <| ht.left ▸ List.mem_singleton.mpr rfl
  case unended hn _ _ =>
    obtain ⟨rfl, hk, t, ht⟩ := ht
    rw [hn hk] at ht
    contradiction
  case cancelled hf =>
    have ⟨t, ht, he⟩ := ht
    exact .inr <| finished hf <| mem_cancelled.mpr <| by simp [ht, he]
  case registered | refused | answered => exact .inr <| control h (fun he => hc (he ▸ rfl)) ht

-- No other event answers a request or tells of progress, and it stays pending.
theorem Tracks.untouched [Crypto] (t : d.Tracks env d' fx e) (h : d.handleEvent env e = .ok (d', fx))
    (hs : ∀ {r'}, d.reqTracker.get r' = some c → r = r')
    (hp : d.reqTracker.get r = some c) (hc : c ∉ e.channel) (hn : ¬d.Touches env r e) :
    fx.filterMap (·.responseTo c) = [] ∧ d'.reqTracker.get r = some c := by
  have finished {rs : List UInt32} (hf : d.reqTracker.Finishes rs fx d'.reqTracker) (hr : r ∉ rs) :
      fx.filterMap (·.responseTo c) = [] ∧ d'.reqTracker.get r = some c := by
    refine ⟨hf.unanswered fun r' hr' hg => hr (hs hg ▸ hr'), ?_⟩
    rw [hf.get, if_neg hr, hp]
  have control {cmd c'} (h : d.handleEvent env (.controlRequest cmd c') = .ok (d', fx))
      (hn : ¬d.Touches env r (.controlRequest cmd c')) : d'.reqTracker.get r = some c := by
    obtain ⟨hr, o, _, hg⟩ | ⟨_, hq⟩ := handleControl_registers h
    case inl => rw [hg, if_neg fun he => hn ⟨he.symm, hr⟩, hp]
    case inr => rw [hq, hp]
  cases t
  case idle hq hf _ => exact ⟨Effect.responses_of_silent hf, hq ▸ hp⟩
  case finished hf he =>
    exact finished hf fun hr => hn <| (touches_iff_of_finishes he).mpr (List.mem_singleton.mp hr).symm
  case reported c' _ hr hg hq he =>
    refine ⟨?_, hq ▸ hp⟩
    rw [he, Effect.responses_singleton, if_neg fun hc => ?_]
    exact hn ⟨(hs (hc ▸ hg)).symm, hs (hc ▸ hg) ▸ hr⟩
  case unreported hq he => exact ⟨he ▸ rfl, hq ▸ hp⟩
  case ended t hk ht hf =>
    refine finished hf fun hr => hn ?_
    exact (List.mem_singleton.mp hr).symm ▸ ⟨rfl, hk, t, ht⟩
  case unended hq he => exact ⟨he ▸ rfl, hq ▸ hp⟩
  case cancelled hf =>
    refine finished hf fun hr => hn ?_
    have ⟨t, ht, he⟩ := Option.any_eq_true _ _ |>.mp <| mem_cancelled.mp hr
    exact ⟨t, ht, of_decide_eq_true he⟩
  case registered hf => exact ⟨Effect.responses_of_silent hf, control h hn⟩
  case refused c' _ _ hf =>
    have hc : c' ≠ c := fun he => hc (he ▸ rfl)
    refine ⟨hf.unanswered fun r' hr hg => hc ?_, control h hn⟩
    rw [RequestTracker.register_get, if_pos (List.mem_singleton.mp hr)] at hg
    exact Option.some.inj hg
  case answered c' response _ _ _ he =>
    have hc : c' ≠ c := fun he => hc (he ▸ rfl)
    rw [he, Effect.responses_singleton, if_neg hc]
    exact ⟨rfl, control h hn⟩

end Daemon

namespace Service

variable {s s' s₀ : Service} {a : Action} {as : List Action} {env : Env} {e : PeerEvent} {d : Daemon} {fx : List Effect}

-- Every pending request either waits for the event, or it stays pending and its client hears nothing.
def Matched (s : Service) (e : PeerEvent) (s' : Service) : Prop :=
  ∀ r c, s.daemon.reqTracker.get r = some c → ∃ q, s.request r = some q ∧
    (q.Expects r e ∨ s'.sent c = s.sent c ∧ s'.daemon.reqTracker.get r = some c)

-- A pending request waits for the event if the event finds its way to it.
def Expected (s : Service) (env : Env) (e : PeerEvent) : Prop :=
  ∀ r c, s.daemon.reqTracker.get r = some c → s.daemon.Touches env r e → ∃ q, s.request r = some q ∧ q.Expects r e

-- It is known what is pending.
def Known (s : Service) : Prop :=
  ∀ r c, s.daemon.reqTracker.get r = some c → ∃ q, s.request r = some q

section

variable [Crypto]

theorem Known.handled (k : Known s) (l : Linear s) (h : s.daemon.handleEvent env e = .ok (d, fx))
    (hc : ∀ c ∈ e.channel, c ∉ s.channels) : Known (s.handled e d fx) := by
  have fresh {c} (he : c ∈ e.channel) (r : UInt32) := l.not_waiting hc he r
  intro r c
  show d.reqTracker.get r = some c → _
  intro hp
  obtain hp' | ⟨he, hr⟩ := (Daemon.handleEvent_tracks h).pending hp
  case inl =>
    have ⟨q, hq⟩ := k r c hp'
    refine ⟨q, ?_⟩
    cases e <;> try exact hq
    case controlRequest cmd c' =>
      simp only [Service.handled]
      split
      case isFalse => exact hq
      case isTrue hg =>
        rw [Function.update_of_ne, hq]
        intro hr
        exact fresh rfl r <| hp'.trans <| hp.symm.trans <| hr ▸ hg
  case inr =>
    cases e <;> try contradiction
    case controlRequest cmd c' =>
      cases he
      subst hr
      obtain ⟨hr, _⟩ | ⟨_, hq⟩ := Daemon.handleControl_registers h
      case inr => exact absurd (hq ▸ hp) <| fresh rfl _
      have ⟨q, hq⟩ := Daemon.request_of_registers hr
      refine ⟨q, ?_⟩
      simp only [Service.handled]
      rw [if_pos hp, Function.update_self, hq]

theorem Known.reachable (r : Reachable system s) : Known s := by
  refine Invariant.relative (Q := Linear) (P := Known) Linear.reachable ?_ ?_ r
  case refine_1 =>
    intro s ⟨⟨_, _, _, hm⟩, _⟩ r c hp
    rw [daemon, hm] at hp
    exact absurd (Table.lookup_empty.symm.trans hp) (by simp)
  case refine_2 =>
    intro s a s' l k h
    obtain ⟨env, e, d, fx, _, hd, hc, rfl⟩ | ⟨m, _, hq, _, _, rfl⟩ := step_cases h
    case inl => exact k.handled l hd hc
    case inr => exact fun r c hp => k r c (hq ▸ hp)

theorem matched_iff (r : Reachable system s) (h : s.step (.handle env e) = some s') :
    s.Matched e s' ↔ s.Expected env e := by
  have l := Linear.reachable r
  have k := Known.reachable r
  obtain ⟨d, fx, hd, hc, rfl⟩ := step_handle h
  have t := Daemon.handleEvent_tracks hd
  have other {r c} (hp : s.daemon.reqTracker.get r = some c) : c ∉ e.channel := fun he => l.not_waiting hc he r hp
  constructor
  case mp =>
    intro m r c hp ht
    obtain ⟨q, hq, he | ⟨hs, hp'⟩⟩ := m r c hp
    case inl => exact ⟨q, hq, he⟩
    case inr =>
      obtain hf | hn := t.touched hd hp (other hp) ht
      case inl => exact absurd (List.append_right_eq_self.mp hs) hf
      case inr => exact absurd hp' hn
  case mpr =>
    intro x r c hp
    have ⟨q, hq⟩ := k r c hp
    refine ⟨q, hq, ?_⟩
    by_cases ht : s.daemon.Touches env r e
    case pos =>
      have ⟨q', hq', he⟩ := x r c hp ht
      exact .inl <| Option.some.inj (hq.symm.trans hq') ▸ he
    case neg =>
      have ⟨hf, hp'⟩ := t.untouched hd (l.single hp) hp (other hp) ht
      exact .inr ⟨List.append_right_eq_self.mpr hf, hp'⟩

-- In a run, requests get nothing but what they wait for exactly when nothing else finds its way to them.
theorem matched_throughout_iff (i : Initial s₀) :
    system.Throughout s₀ as s (fun s a s' => ∀ env e, a = .handle env e → s.Matched e s') ↔
      system.Throughout s₀ as s (fun s a _ => ∀ env e, a = .handle env e → s.Expected env e) := by
  refine Run.throughout_iff fun r h => forall₃_congr fun env e he => ?_
  exact matched_iff (r.reachable <| .init i) (he ▸ h)

end

theorem matched_throughout_iff_scanned :
    (@system .transparent).Throughout fresh scanning scanned (fun s a s' => ∀ env e, a = .handle env e → s.Matched e s') ↔
      (@system .transparent).Throughout fresh scanning scanned
        (fun s a _ => ∀ env e, a = .handle env e → s.Expected env e) :=
  @matched_throughout_iff _ _ _ .transparent fresh_initial

-- The host is asked for a list, and the intruder sends one.
def asking : List Action := [
  .handle (.fine 0) <| .newConnection Monitor.host,
  .handle (.fine 0) <| .newConnection Monitor.intruder,
  .handle (.fine 0) <| .controlRequest (.listResources "p1") 0
]

def asked : Service :=
  (asking.foldlM (@step .transparent) fresh).getD fresh

def forged : PeerEvent :=
  .message Monitor.intruder <| .resourceList 1 []

def misled : Service :=
  (@step .transparent asked (.handle (.fine 0) forged)).getD asked

theorem misled_not_matched : Reachable (@system .transparent) asked ∧
    @step .transparent asked (.handle (.fine 0) forged) = some misled ∧ ¬asked.Matched forged misled := by
  have r : Run (@system .transparent) fresh asking asked := .ofFn (rfl : asking.foldlM (@step .transparent) fresh = _)
  refine ⟨r.reachable <| .init fresh_initial, rfl, fun m => ?_⟩
  have hp : asked.daemon.reqTracker.get 1 = some 0 := by decide +kernel
  have hq : asked.request 1 = some (.list Monitor.host) := by decide +kernel
  have hn : misled.daemon.reqTracker.get 1 = none := by decide +kernel
  obtain ⟨q, hq', he | ⟨_, hp'⟩⟩ := m 1 0 hp
  case inl =>
    cases hq.symm.trans hq'
    exact absurd he.left (by decide)
  case inr => exact nomatch hn.symm.trans hp'

end Service
end Parsip
