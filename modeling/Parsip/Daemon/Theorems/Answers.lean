import Parsip.Daemon.Theorems.Replies

-- What is to come of a request that has been registered, and what becomes of its transfer.

namespace Parsip.Daemon

variable {d d' : Daemon} {env : Env} {e : PeerEvent} {fx : List Effect} {r : UInt32} {c : ReplyTo} {t : Transfer}
variable {cmd : ControlMessage}

-- A client has been answered.
def Answered (fx : List Effect) (c : ReplyTo) : Prop :=
  ∃ response, response.Terminal ∧ .respond c response ∈ fx

-- The event takes the id of a request for another one.
def Reuses (env : Env) (d : Daemon) (r : UInt32) (e : PeerEvent) : Prop :=
  ∃ cmd c, e = .controlRequest cmd c ∧ d.Registers env cmd ∧ r = d.reqTracker.nextId

theorem Tracks.come (t : d.Tracks env d' fx e) (hc : c ∈ e.channel) :
    d'.reqTracker.get d.reqTracker.nextId = some c ∨ Answered fx c := by
  cases t <;> try contradiction
  case idle hi _ _  => cases e <;> contradiction
  case finished h _ => cases e <;> contradiction
  case registered hq _ =>
    cases hc
    exact .inl <| by rw [hq, RequestTracker.register_get, if_pos rfl]
  case refused hf =>
    cases hc
    exact .inr <| hf.mem_of_get (List.mem_singleton.mpr rfl) (RequestTracker.register_get.trans <| if_pos rfl)
  case answered ht _ he =>
    cases hc
    exact .inr ⟨_, ht, he ▸ List.mem_singleton.mpr rfl⟩

-- A request that is pending stays so, or is answered, or loses its id.
theorem Tracks.kept [Crypto] (t : d.Tracks env d' fx e) (h : d.handleEvent env e = .ok (d', fx))
    (hp : d.reqTracker.get r = some c) : d'.reqTracker.get r = some c ∨ Answered fx c ∨ d.Reuses env r e := by
  have finished {rs : List UInt32} (hf : d.reqTracker.Finishes rs fx d'.reqTracker) :
      d'.reqTracker.get r = some c ∨ Answered fx c ∨ d.Reuses env r e := by
    by_cases hr : r ∈ rs
    case pos => exact .inr <| .inl <| hf.mem_of_get hr hp
    case neg => exact .inl <| by rw [hf.get, if_neg hr, hp]
  have control {cmd c'} (h : d.handleEvent env (.controlRequest cmd c') = .ok (d', fx)) :
      d'.reqTracker.get r = some c ∨ d.Reuses env r (.controlRequest cmd c') := by
    obtain ⟨hr, _, _, hg⟩ | ⟨_, hq⟩ := handleControl_registers h
    case inr => exact .inl <| hq ▸ hp
    case inl =>
      by_cases he : r = d.reqTracker.nextId
      case pos => exact .inr ⟨cmd, c', rfl, hr, he⟩
      case neg => exact .inl <| by rw [hg, if_neg he, hp]
  cases t
  case idle hq _ _ | reported hq _ | unreported hq _ | unended hq _ => exact .inl <| hq ▸ hp
  case finished hf _ | ended hf | cancelled hf => exact finished hf
  case registered | refused | answered => exact (control h).imp_right .inr

-- What is underway for a request that has been registered.
inductive Pursues (d : Daemon) : Effect → Prop
  | scan : Pursues d (.scanTimer d.reqTracker.nextId)
  | connect {addr} : Pursues d (.connect addr d.reqTracker.nextId)
  | list {p} : Pursues d (.send p (.listResources d.reqTracker.nextId))
  | get {p id} : Pursues d (.send p (.downloadResource d.reqTracker.nextId id))

theorem handleControl_pursues [Crypto] (h : d.handleControl env c cmd = .ok (d', fx)) (hr : d.Registers env cmd) :
    d'.reqTracker.get d.reqTracker.nextId = none ∨ ∃ f ∈ fx, d.Pursues f := by
  cases cmd <;> simp only [handleControl] at h
  case scan =>
    split at h
    case h_1 =>
      obtain rfl := finish_eq (Except.ok.inj h)
      exact .inl <| RequestTracker.complete_get.trans <| if_pos rfl
    case h_2 => cases h; exact .inr ⟨_, List.mem_singleton.mpr rfl, .scan⟩
  case connect =>
    obtain ⟨q, hq⟩ := hr
    split at h <;> cases h
    case h_1 => exact .inr ⟨_, List.mem_singleton.mpr rfl, .connect⟩
    case h_2 hf =>
      rw [Table.values, List.find?_map, Option.map_eq_none_iff] at hf
      obtain ⟨_, he, _⟩ := Option.map_eq_some_iff.mp hq
      exact absurd (he.symm.trans hf) (by simp)
  case listPeers => exact absurd hr (by simp [Registers, request])
  case listResources =>
    split at h <;> cases h
    case h_1 => exact .inr ⟨_, List.mem_singleton.mpr rfl, .list⟩
    case h_2 hg => exact absurd hr (by simp [Registers, request, hg])
  case getResource =>
    obtain ⟨rfl, m, rfl⟩ | ⟨p, id, info, _, _, _, _, _, _, _, _, rfl⟩ := getResource_spec (Except.ok.inj h)
    case inl => exact absurd hr <| not_starts (Except.ok.inj h)
    case inr => exact .inr ⟨_, List.mem_singleton.mpr rfl, .get⟩
  case addResource => exact absurd hr (by simp [Registers, request])

def IsChunk : PeerEvent → Prop
  | .message _ (.resourceChunk ..) => True
  | _                              => False

-- The transfer of a request stays as it is as long as the request is pending and no chunk comes.
theorem handleEvent_idle [Crypto] (h : d.handleEvent env e = .ok (d', fx)) (hk : ¬IsChunk e)
    (ht : d.transferMgr.transfers.lookup r = some t) (hp : d'.reqTracker.get r ≠ none) (hn : ¬d.Reuses env r e) :
    d'.transferMgr.transfers.lookup r = some t := by
  by_cases hc : e.Concerns
  case neg => rw [(handleEvent_same h hc).transferMgr, ht]
  case pos =>
    cases e <;> try contradiction
    case disconnected p =>
      rw [(disconnected_spec (Except.ok.inj h)).right, TransferManager.cancelForPeer_lookup, ht, Option.filter_some, if_pos]
      refine decide_eq_true fun he => hp ?_
      cases handleEvent_tracks h
      case idle hi     => contradiction
      case finished hi => contradiction
      case cancelled hf => rw [hf.get, if_pos (mem_cancelled.mpr <| by simp [ht, he])]
    case message p msg =>
      cases msg <;> try contradiction
      case resourceList => rw [(resourceList_spec (Except.ok.inj h)).right.right.left, ht]
      case resourceEnd r' id =>
        obtain ⟨_, result, hd, ⟨_, hm, _⟩ | ⟨rfl, hm, _⟩⟩ := resourceEnd_spec (Except.ok.inj h)
        case inl => rw [hm, ht]
        case inr =>
          rw [hm, TransferManager.complete_lookup, if_neg, ht]
          rintro rfl
          have hk := (DownloadManager.completes_iff hd).mpr rfl
          cases handleEvent_tracks h <;> try contradiction
          case ended hf _  => exact hp <| hf.get.trans <| if_pos <| List.mem_singleton.mpr rfl
          case unended hn  => exact absurd (ht.symm.trans (hn hk)) (by simp)
    case controlRequest cmd c =>
      cases cmd <;> try contradiction
      case getResource =>
        obtain ⟨rfl, _⟩ | ⟨p, id, info, hp, hr, hi, hs, _, _, hm, _⟩ := getResource_spec (Except.ok.inj h)
        case inl => exact ht
        case inr =>
          rw [hm, TransferManager.register_lookup, if_neg, ht]
          exact fun he => hn ⟨_, _, rfl, starts_of_started hp hr hi hs, he⟩

-- The transfer of a request stays registered as long as the request is pending.
theorem handleEvent_transfer [Crypto] (h : d.handleEvent env e = .ok (d', fx))
    (ht : d.transferMgr.transfers.lookup r = some t) (hp : d'.reqTracker.get r ≠ none) (hn : ¬d.Reuses env r e) :
    ∃ t', d'.transferMgr.transfers.lookup r = some t' ∧ t'.peerId = t.peerId := by
  by_cases hk : IsChunk e
  case neg => exact ⟨t, handleEvent_idle h hk ht hp hn, rfl⟩
  case pos =>
    cases e <;> try contradiction
    case message p msg =>
      cases msg <;> try contradiction
      case resourceChunk r' id off data =>
        obtain ⟨_, _, ⟨_, _, hm⟩ | ⟨_, _, _, _, hm⟩⟩ := resourceChunk_spec (Except.ok.inj h)
        case inl => exact ⟨t, hm ▸ ht, rfl⟩
        case inr =>
          rw [hm, TransferManager.updateProgress_lookup, ht]
          split
          case isTrue  => exact ⟨_, rfl, Transfer.progress_peerId⟩
          case isFalse => exact ⟨t, rfl, rfl⟩

end Parsip.Daemon
