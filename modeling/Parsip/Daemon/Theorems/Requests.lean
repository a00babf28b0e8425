import Parsip.Daemon.Theorems.EventHandler

-- What each event does to the requests of clients.

namespace Parsip

-- The answer after which a client stops to listen.
def ControlResponse.Terminal : ControlResponse → Prop
  | .downloadProgress _ => False
  | _                   => True

def Effect.Replies : Effect → Prop
  | .respond .. => True
  | _           => False

namespace PeerEvent

-- The events that say nothing to a client.
def Idle : PeerEvent → Prop
  | .discovered .. | .newConnection _ | .message _ (.listResources _) | .message _ (.downloadResource ..)
  | .message _ (.hello ..) | .message _ (.helloProof _) => True
  | _ => False

-- The request that comes to its end with an event, whatever it is.
def finishes : PeerEvent → Option UInt32
  | .message _ (.resourceList r _) | .scanTimeout r | .connectResult r _ => some r
  | _                                                                    => none

end PeerEvent

namespace RequestTracker

-- Some requests come to their ends one after another, and those that are pending are answered.
inductive Finishes : RequestTracker → List UInt32 → List Effect → RequestTracker → Prop
  | nil : Finishes q [] [] q
  | cons {q q' : RequestTracker} {r : UInt32} {rs : List UInt32} {fx : List Effect} (response : ControlResponse) (terminal : response.Terminal)
    (rest : Finishes (q.complete r).snd rs fx q') :
    Finishes q (r :: rs) ((q.get r).toList.map (.respond · response) ++ fx) q'

variable {q q' : RequestTracker} {r r' : UInt32} {rs : List UInt32} {c : ReplyTo} {fx : List Effect}

@[simp]
theorem register_get : (q.register r' c).get r = if r = r' then some c else q.get r :=
  Table.lookup_insert

@[simp]
theorem complete_get : (q.complete r').snd.get r = if r = r' then none else q.get r :=
  Table.lookup_erase

@[simp] theorem advance_get : q.advance.snd.get r = q.get r := rfl
@[simp] theorem complete_nextId : (q.complete r).snd.nextId = q.nextId := rfl
@[simp] theorem register_nextId : (q.register r c).nextId = q.nextId := rfl

namespace Finishes

theorem get (h : Finishes q rs fx q') : q'.get r = if r ∈ rs then none else q.get r := by
  induction h
  case nil => simp
  case cons q _ r' rs _ _ _ _ hi =>
    rw [hi, complete_get]
    simp only [List.mem_cons]
    split <;> split <;> simp_all

theorem nextId (h : Finishes q rs fx q') : q'.nextId = q.nextId := by
  induction h
  case nil     => rfl
  case cons hi => exact hi

-- Everybody who is answered has been waiting for one of the requests.
theorem mem (h : Finishes q rs fx q') {f : Effect} (hf : f ∈ fx) :
    ∃ r ∈ rs, ∃ c response, q.get r = some c ∧ response.Terminal ∧ f = .respond c response := by
  induction h
  case nil => contradiction
  case cons q _ r rs _ response ht _ hi =>
    rw [List.mem_append, List.mem_map] at hf
    obtain ⟨c, hc, rfl⟩ | hf := hf
    case inl => exact ⟨r, List.mem_cons_self .., c, response, Option.mem_toList.mp hc, ht, rfl⟩
    case inr =>
      have ⟨r', hr, c, response', hq, ht, he⟩ := hi hf
      rw [complete_get, Option.ite_none_left_eq_some] at hq
      exact ⟨r', List.mem_cons_of_mem _ hr, c, response', hq.right, ht, he⟩

theorem mem_of_get (h : Finishes q rs fx q') (hr : r ∈ rs) (hq : q.get r = some c) :
    ∃ response, response.Terminal ∧ .respond c response ∈ fx := by
  induction h
  case nil => contradiction
  case cons q _ r' rs _ response ht _ hi =>
    by_cases he : r = r'
    case pos =>
      subst he
      exact ⟨response, ht, List.mem_append_left _ <| List.mem_map_of_mem <| Option.mem_toList.mpr hq⟩
    case neg =>
      have ⟨response', ht', hm⟩ := hi ((List.mem_cons.mp hr).resolve_left he) (by rw [complete_get, if_neg he, hq])
      exact ⟨response', ht', List.mem_append_right _ hm⟩

end Finishes
end RequestTracker

namespace Daemon

open RequestTracker

-- A chunk of `id` makes progress on the request `r`, and it is time to tell so.
def Reports (env : Env) (d : Daemon) (r : UInt32) (id : ResourceId) : Prop :=
  d.downloadMgr.Accepts id ∧ ∃ t, d.transferMgr.transfers.lookup r = some t ∧ env.now - t.lastReportTime > 200

-- What an event does to the requests of clients, and what it has to say to them.
inductive Tracks (env : Env) (d d' : Daemon) (fx : List Effect) : PeerEvent → Prop
  | idle {e} (idle : PeerEvent.Idle e) (same : d'.reqTracker = d.reqTracker) (silent : ∀ f ∈ fx, ¬f.Replies) :
    Tracks env d d' fx e
  | finished {e r} (finishes : PeerEvent.finishes e = some r)
    (finished : Finishes d.reqTracker [r] fx d'.reqTracker) : Tracks env d d' fx e
  | reported {p r id off data c progress} (reports : d.Reports env r id)
    (pending : d.reqTracker.get r = some c) (same : d'.reqTracker = d.reqTracker)
    (effects : fx = [.respond c (.downloadProgress progress)]) :
    Tracks env d d' fx (.message p (.resourceChunk r id off data))
  | unreported {p r id off data} (reports : d.Reports env r id → d.reqTracker.get r = none)
    (same : d'.reqTracker = d.reqTracker) (effects : fx = []) :
    Tracks env d d' fx (.message p (.resourceChunk r id off data))
  | ended {p r id t} (completes : d.downloadMgr.Completes d.storage env.io id)
    (transfer : d.transferMgr.transfers.lookup r = some t)
    (finished : Finishes d.reqTracker [r] fx d'.reqTracker) : Tracks env d d' fx (.message p (.resourceEnd r id))
  | unended {p r id} (completes : d.downloadMgr.Completes d.storage env.io id →
      d.transferMgr.transfers.lookup r = none)
    (same : d'.reqTracker = d.reqTracker) (effects : fx = []) :
    Tracks env d d' fx (.message p (.resourceEnd r id))
  | cancelled {p} (finished :
      Finishes d.reqTracker ((d.transferMgr.cancelForPeer p).snd.map (·.requestId)) fx d'.reqTracker) :
    Tracks env d d' fx (.disconnected p)
  | registered {cmd c} (broadcast : cmd = .scan → env.broadcastScan = .ok ())
    (registered : d'.reqTracker = d.reqTracker.advance.snd.register d.reqTracker.nextId c)
    (silent : ∀ f ∈ fx, ¬f.Replies) : Tracks env d d' fx (.controlRequest cmd c)
  | refused {c e} (broadcast : env.broadcastScan = .error e)
    (finished : Finishes (d.reqTracker.advance.snd.register d.reqTracker.nextId c) [d.reqTracker.nextId] fx
      d'.reqTracker) : Tracks env d d' fx (.controlRequest .scan c)
  | answered {cmd c response} (other : cmd ≠ .scan) (terminal : ControlResponse.Terminal response)
    (same : d'.reqTracker = d.reqTracker) (effects : fx = [.respond c response]) :
    Tracks env d d' fx (.controlRequest cmd c)

variable {d d' : Daemon} {env : Env} {fx : List Effect} {e : PeerEvent} {r : UInt32} {name : String}
variable {response : ControlResponse} {ts : List Transfer} {p : PeerId} {msg : Message} {c : ReplyTo}
variable {cmd : ControlMessage}

theorem finish_finishes (h : d.finish r response = (d', fx)) (ht : response.Terminal) :
    Finishes d.reqTracker [r] fx d'.reqTracker := by
  cases h
  have hf := Finishes.cons (q := d.reqTracker) (r := r) response ht .nil
  rwa [List.append_nil] at hf

theorem cancelTransfers_finishes (h : d.cancelTransfers env name ts = (d', fx)) :
    Finishes d.reqTracker (ts.map (·.requestId)) fx d'.reqTracker := by
  induction ts generalizing d fx
  case nil => cases h; exact .nil
  case cons t ts hi =>
    cases h
    exact .cons _ trivial <| hi rfl

theorem resourceChunk_tracks {id : ResourceId} {off : UInt64} {data : Bytes}
    (h : d.handleMessage env p (.resourceChunk r id off data) = (d', fx)) :
    d.Tracks env d' fx (.message p (.resourceChunk r id off data)) := by
  have hu := @TransferManager.updateProgress_snd d.transferMgr r env.now (.ofNat data.length)
  simp only [handleMessage] at h
  obtain ⟨e, hp, hn⟩ | ⟨b, hp, ha⟩ := @DownloadManager.processChunk_fst d.downloadMgr id data <;>
    cases hc : d.downloadMgr.processChunk id data <;> rw [hc] at hp <;> cases hp <;> simp only [hc] at h
  case inl => cases h; exact .unreported (fun hr => absurd hr.left hn) rfl rfl
  case inr =>
    split at h <;> cases h
    case h_1 progress c hp hg => exact .reported ⟨ha, hu.mp ⟨progress, hp⟩⟩ hg rfl rfl
    case h_2 hn =>
      refine .unreported (fun hr => ?_) rfl rfl
      obtain ⟨progress, hp⟩ := hu.mpr hr.right
      exact Option.eq_none_iff_forall_ne_some.mpr fun c hg => hn progress c hp hg

theorem resourceEnd_tracks {id : ResourceId} (h : d.handleMessage env p (.resourceEnd r id) = (d', fx)) :
    d.Tracks env d' fx (.message p (.resourceEnd r id)) := by
  simp only [handleMessage] at h
  split at h
  case h_2 hc =>
    cases h
    exact .unended (fun h => absurd ((DownloadManager.completes_iff hc).mp h) (by simp)) rfl rfl
  case h_1 downloadMgr storage hc =>
    have hk := (DownloadManager.completes_iff hc).mpr rfl
    split at h
    case h_1 transferMgr t ht =>
      have ht := congrArg Prod.snd ht
      have hf := @finish_finishes { d with downloadMgr, storage, transferMgr } _ _ _ _ h trivial
      exact .ended hk ht hf
    case h_2 ht =>
      cases h
      exact .unended (fun _ => congrArg Prod.snd ht) rfl rfl

theorem handleMessage_tracks (h : d.handleMessage env p msg = (d', fx)) : d.Tracks env d' fx (.message p msg) := by
  cases msg
  case hello | helloProof => cases h; exact .idle trivial rfl nofun
  case listResources => cases h; exact .idle trivial rfl fun _ hf => List.mem_singleton.mp hf ▸ id
  case downloadResource =>
    obtain ⟨rfl, rfl | ⟨path, rfl⟩⟩ := downloadResource_spec h
    case inl => exact .idle trivial rfl nofun
    case inr => exact .idle trivial rfl fun _ hf => List.mem_singleton.mp hf ▸ id
  case resourceList r rs =>
    have hf := @finish_finishes { d with aliases := (cacheResources (d.aliases.addPeer p).snd rs).snd } _ _ _ _ h trivial
    exact .finished rfl hf
  case resourceChunk => exact resourceChunk_tracks h
  case resourceEnd   => exact resourceEnd_tracks h

theorem getResource_tracks {peerAlias resourceAlias : String}
    (h : d.getResource env c peerAlias resourceAlias = (d', fx)) :
    d.Tracks env d' fx (.controlRequest (.getResource peerAlias resourceAlias) c) := by
  obtain ⟨rfl, m, rfl⟩ | ⟨_, _, _, _, _, _, _, _, _, _, hq, rfl⟩ := getResource_spec h
  case inl => exact .answered nofun (by trivial) rfl rfl
  case inr => exact .registered nofun hq fun _ hf => List.mem_singleton.mp hf ▸ id

theorem handleControl_tracks [Crypto] (h : d.handleControl env c cmd = .ok (d', fx)) :
    d.Tracks env d' fx (.controlRequest cmd c) := by
  cases cmd <;> simp only [handleControl] at h
  case scan =>
    split at h
    case h_1 hb => exact .refused hb <| finish_finishes (Except.ok.inj h) trivial
    case h_2 hb => cases h; exact .registered (fun _ => hb) rfl fun _ hf => List.mem_singleton.mp hf ▸ id
  case connect =>
    split at h <;> cases h
    case h_1 => exact .registered (fun h => ControlMessage.noConfusion h) rfl fun _ hf => List.mem_singleton.mp hf ▸ id
    case h_2 => exact .answered (fun h => ControlMessage.noConfusion h) (by trivial) rfl rfl
  case listPeers => cases h; exact .answered (fun h => ControlMessage.noConfusion h) (by trivial) rfl rfl
  case listResources =>
    split at h <;> cases h
    case h_1 => exact .registered (fun h => ControlMessage.noConfusion h) rfl fun _ hf => List.mem_singleton.mp hf ▸ id
    case h_2 => exact .answered (fun h => ControlMessage.noConfusion h) (by trivial) rfl rfl
  case getResource => exact getResource_tracks (Except.ok.inj h)
  case addResource =>
    simp only [addResource] at h
    split at h <;> cases h <;> exact .answered (fun h => ControlMessage.noConfusion h) (by trivial) rfl rfl

theorem handleEvent_tracks [Crypto] (h : d.handleEvent env e = .ok (d', fx)) : d.Tracks env d' fx e := by
  cases e <;> simp only [handleEvent] at h
  case newConnection  => cases h; exact .idle trivial rfl fun _ hf => absurd hf List.not_mem_nil
  case discovered =>
    cases h
    refine .idle trivial ?_ fun _ hf => absurd hf List.not_mem_nil
    simp only [discovered]
    split <;> rfl
  case disconnected p =>
    have hf := @cancelTransfers_finishes { d with transferMgr := (d.transferMgr.cancelForPeer p).fst } _ _ _ _ _ (Except.ok.inj h)
    exact .cancelled hf
  case message        => exact handleMessage_tracks (Except.ok.inj h)
  case controlRequest => exact handleControl_tracks h
  case scanTimeout    => exact .finished rfl <| finish_finishes (Except.ok.inj h) trivial
  case connectResult r result =>
    refine .finished rfl <| finish_finishes (Except.ok.inj h) ?_
    cases result <;> trivial

end Daemon
end Parsip
