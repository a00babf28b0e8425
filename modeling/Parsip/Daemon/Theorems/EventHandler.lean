import Parsip.Daemon.EventHandler
import Parsip.Resource.Theorems.Download
import Parsip.Resource.Theorems.Transfer

-- What each event can do to downloads, transfers and cached information.

namespace Parsip

-- Everything a download depends on is as before.
structure Daemon.Same (d d' : Daemon) : Prop where
  downloadMgr  : d'.downloadMgr = d.downloadMgr
  storage      : d'.storage = d.storage
  transferMgr  : d'.transferMgr = d.transferMgr
  resourceInfo : d'.aliases.resourceInfo = d.aliases.resourceInfo

-- The events that have to do with downloads.
def PeerEvent.Concerns : PeerEvent → Prop
  | .disconnected _ | .message _ (.resourceList ..) | .message _ (.resourceChunk ..)
  | .message _ (.resourceEnd ..) | .controlRequest (.getResource ..) _ => True
  | _ => False

-- The messages that move a resource.
def Message.Moves : Message → Prop
  | .downloadResource .. | .resourceChunk .. | .resourceEnd .. => True
  | _                                                          => False

-- The events on which such a message or a thread that sends some is set off.
def PeerEvent.Starts : PeerEvent → Prop
  | .message _ (.downloadResource ..) | .controlRequest (.getResource ..) _ => True
  | _                                                                      => False

def Effect.Moves : Effect → Prop
  | .send _ m   => m.Moves
  | .upload ..  => True
  | _           => False

-- The answer that a download is complete.
def Effect.Completes : Effect → Prop
  | .respond _ (.downloadComplete ..) => True
  | _                                 => False

namespace PeerEvent

-- What handling an event can set off.
inductive Emits : PeerEvent → Effect → Prop
  | list {p r} (rs : List ResourceInfo) : Emits (.message p (.listResources r)) (.send p (.resourceList r rs))
  | listed {p r rs} (c : ReplyTo) (infos : List CtrlResourceInfo) :
    Emits (.message p (.resourceList r rs)) (.respond c (.resourceList infos))
  | upload {p r id} (path : PosixPath.Path) : Emits (.message p (.downloadResource r id)) (.upload p r id path)
  | progress {p r id off data} (c : ReplyTo) (progress : Progress) :
    Emits (.message p (.resourceChunk r id off data)) (.respond c (.downloadProgress progress))
  | completed {p r id} (c : ReplyTo) (bytes : UInt64) (elapsed : Nat) :
    Emits (.message p (.resourceEnd r id)) (.respond c (.downloadComplete bytes elapsed))
  | cancelled {p} (c : ReplyTo) (m : String) : Emits (.disconnected p) (.respond c (.error m))
  | scanned {r} (c : ReplyTo) (peers : List DiscoveredPeerInfo) : Emits (.scanTimeout r) (.respond c (.scanResults peers))
  | connected {r p} (c : ReplyTo) : Emits (.connectResult r (.ok p)) (.respond c .ok)
  | notConnected {r e} (c : ReplyTo) : Emits (.connectResult r (.error e)) (.respond c (.error e))
  | scan {c} (r : UInt32) : Emits (.controlRequest .scan c) (.scanTimer r)
  | connect {c name} (addr : SocketAddr) (r : UInt32) : Emits (.controlRequest (.connect name) c) (.connect addr r)
  | listPeers {c} (peers : List ConnectedPeerInfo) : Emits (.controlRequest .listPeers c) (.respond c (.peersList peers))
  | listResources {c name} (p : PeerId) (r : UInt32) :
    Emits (.controlRequest (.listResources name) c) (.send p (.listResources r))
  | getResource {c pa ra} (p : PeerId) (r : UInt32) (id : ResourceId) :
    Emits (.controlRequest (.getResource pa ra) c) (.send p (.downloadResource r id))
  | added {c path} (name : String) (id : ResourceId) :
    Emits (.controlRequest (.addResource path) c) (.respond c (.resourceAdded name id))
  | refused {c cmd} (c' : ReplyTo) (m : String) : Emits (.controlRequest cmd c) (.respond c' (.error m))

variable {e : PeerEvent} {f : Effect}

-- Other events set off nothing that moves a resource.
theorem Emits.not_moves (h : e.Emits f) (hs : ¬e.Starts) : ¬f.Moves := by
  cases h <;> first | exact id | exact absurd trivial hs

-- Only the end of a resource is answered so.
theorem Emits.ends (h : e.Emits f) (hc : f.Completes) : ∃ p r id, e = .message p (.resourceEnd r id) := by
  cases h <;> first | contradiction | exact ⟨_, _, _, rfl⟩

end PeerEvent

namespace AliasRegistry

variable {a : AliasRegistry} {p : PeerId} {id : ResourceId} {info : ResourceInfo}

@[simp]
theorem addPeer_resourceInfo : (a.addPeer p).snd.resourceInfo = a.resourceInfo := by
  simp only [addPeer]
  split <;> rfl

@[simp]
theorem addResource_resourceInfo : (a.addResource id).snd.resourceInfo = a.resourceInfo := by
  simp only [addResource]
  split <;> rfl

@[simp]
theorem cacheInfo_lookup : (a.cacheInfo info).resourceInfo.lookup id =
    if id = info.id then some info else a.resourceInfo.lookup id :=
  Table.lookup_insert

end AliasRegistry

namespace Daemon

variable {d d' : Daemon} {env : Env} {fx : List Effect} {p q : PeerId} {r : UInt32} {id : ResourceId}
variable {e : PeerEvent} {msg : Message} {off : UInt64} {data : Bytes} {rs : List ResourceInfo}
variable {response : ControlResponse} {sender : ReplyTo} {name : String}

namespace Same

theorem refl : Same d d :=
  ⟨rfl, rfl, rfl, rfl⟩

end Same

theorem finish_eq (h : d.finish r response = (d', fx)) :
    d' = { d with reqTracker := (d.reqTracker.complete r).snd } := by
  cases h
  rfl

theorem finish_same (h : d.finish r response = (d', fx)) : Same d d' := by
  cases h
  exact ⟨rfl, rfl, rfl, rfl⟩

theorem finish_fx (h : d.finish r response = (d', fx)) : ∀ e ∈ fx, ∃ sender, d.reqTracker.get r = some sender ∧
    e = .respond sender response := by
  cases h
  intro e he
  simp only [List.mem_map, Option.mem_toList] at he
  have ⟨sender, hs, he⟩ := he
  exact ⟨sender, hs, he.symm⟩

theorem discovered_same {addr : SocketAddr} : Same d (d.discovered p addr name) := by
  simp only [discovered]
  split <;> exact ⟨rfl, rfl, rfl, by simp⟩

theorem addResource_same [Crypto] (h : d.addResource env sender name = .ok (d', fx)) : Same d d' := by
  simp only [addResource] at h
  split at h <;> cases h
  case h_1 => exact ⟨rfl, rfl, rfl, by simp⟩
  case h_2 => exact .refl

theorem handleControl_same [Crypto] {cmd : ControlMessage}
    (h : d.handleControl env sender cmd = .ok (d', fx)) (hc : ¬(PeerEvent.controlRequest cmd sender).Concerns) :
    Same d d' := by
  cases cmd <;> simp only [handleControl] at h
  case scan                => split at h <;> cases h <;> exact ⟨rfl, rfl, rfl, rfl⟩
  case connect             => split at h <;> cases h <;> exact ⟨rfl, rfl, rfl, rfl⟩
  case listPeers           => cases h; exact .refl
  case listResources       => split at h <;> cases h <;> exact ⟨rfl, rfl, rfl, rfl⟩
  case getResource         => exact absurd trivial hc
  case addResource         => exact addResource_same h

theorem handleMessage_same (h : d.handleMessage env p msg = (d', fx))
    (hc : ¬(PeerEvent.message p msg).Concerns) : Same d d' := by
  cases msg <;> simp only [handleMessage] at h
  case listResources | hello | helloProof => cases h; exact .refl
  case downloadResource => split at h <;> cases h <;> exact .refl
  case resourceList | resourceChunk | resourceEnd => exact absurd trivial hc

-- The other events leave downloads, transfers and cached information alone.
theorem handleEvent_same [Crypto] (h : d.handleEvent env e = .ok (d', fx)) (hc : ¬e.Concerns) :
    Same d d' := by
  cases e <;> simp only [handleEvent] at h
  case discovered     => cases h; exact discovered_same
  case newConnection  => cases h; exact ⟨rfl, rfl, rfl, by simp⟩
  case disconnected   => exact absurd trivial hc
  case message        => exact handleMessage_same (Except.ok.inj h) hc
  case controlRequest => exact handleControl_same h hc
  case scanTimeout    => exact finish_same (Except.ok.inj h)
  case connectResult  => exact finish_same (Except.ok.inj h)

-- The last entry for a resource counts.
theorem cacheResources_lookup {a : AliasRegistry} : (cacheResources a rs).snd.resourceInfo.lookup id =
    (rs.reverse.find? (·.id = id)).or (a.resourceInfo.lookup id) := by
  induction rs generalizing a
  case nil => rfl
  case cons res rs hi =>
    have hr : (cacheResource a res).snd.resourceInfo.lookup id =
        if id = res.id then some res else a.resourceInfo.lookup id := by
      simp [cacheResource]
    rw [cacheResources, hi, hr, List.reverse_cons, List.find?_append, Option.or_assoc]
    by_cases h : id = res.id
    case pos => simp [h]
    case neg => simp [h, Ne.symm h]

theorem resourceList_spec (h : d.handleMessage env p (.resourceList r rs) = (d', fx)) :
    d'.downloadMgr = d.downloadMgr ∧ d'.storage = d.storage ∧ d'.transferMgr = d.transferMgr ∧
      ∀ id, d'.aliases.resourceInfo.lookup id =
        (rs.reverse.find? (·.id = id)).or (d.aliases.resourceInfo.lookup id) := by
  simp only [handleMessage] at h
  have hs := finish_same h
  refine ⟨hs.downloadMgr, hs.storage, hs.transferMgr, fun id => ?_⟩
  rw [hs.resourceInfo, cacheResources_lookup, AliasRegistry.addPeer_resourceInfo]

-- A chunk is looked up by resource and its progress by request.
theorem resourceChunk_spec (h : d.handleMessage env p (.resourceChunk r id off data) = (d', fx)) :
    d'.storage = d.storage ∧ d'.aliases.resourceInfo = d.aliases.resourceInfo ∧
    (¬d.downloadMgr.Accepts id ∧ d'.downloadMgr = d.downloadMgr ∧ d'.transferMgr = d.transferMgr ∨
      ∃ download, d.downloadMgr.downloads.lookup id = some download ∧ download.writer.exit = none ∧
        d'.downloadMgr = d.downloadMgr.put (download.receive data) ∧
        d'.transferMgr = (d.transferMgr.updateProgress env.now r (.ofNat data.length)).fst) := by
  simp only [handleMessage] at h
  cases hp : d.downloadMgr.processChunk id data
  case mk result m =>
    simp only [hp] at h
    obtain ⟨e, rfl, rfl, hn⟩ | ⟨download, b, rfl, hd, hx, rfl⟩ := DownloadManager.processChunk_cases hp
    case inl => cases h; exact ⟨rfl, rfl, .inl ⟨hn, rfl, rfl⟩⟩
    case inr =>
      simp only at h
      split at h <;> cases h <;> exact ⟨rfl, rfl, .inr ⟨download, hd, hx, rfl, rfl⟩⟩

-- An end is looked up by resource, and then the transfer by request.
theorem resourceEnd_spec (h : d.handleMessage env p (.resourceEnd r id) = (d', fx)) :
    d'.aliases = d.aliases ∧ ∃ result,
      d.downloadMgr.completeDownload d.storage env.io id = (result, d'.downloadMgr, d'.storage) ∧
      ((∃ e, result = .error e) ∧ d'.transferMgr = d.transferMgr ∧ fx = [] ∨
        result = .ok () ∧ d'.transferMgr = (d.transferMgr.complete r).fst ∧
          ∀ e ∈ fx, ∃ t sender, d.transferMgr.transfers.lookup r = some t ∧
            d.reqTracker.get r = some sender ∧
            e = .respond sender (.downloadComplete t.bytesTransferred (env.now - t.startTime))) := by
  simp only [handleMessage] at h
  cases hc : d.downloadMgr.completeDownload d.storage env.io id
  case mk result ms =>
    obtain ⟨m, s⟩ := ms
    cases result <;> simp only [hc] at h
    case error e => cases h; exact ⟨rfl, _, rfl, .inl ⟨⟨e, rfl⟩, rfl, rfl⟩⟩
    case ok =>
      split at h
      case h_1 transferMgr t ht =>
        obtain ⟨rfl, ht⟩ := Prod.ext_iff.mp ht
        refine ⟨by cases h; rfl, .ok (), by cases h; rfl, .inr ⟨rfl, by cases h; rfl, fun e he => ?_⟩⟩
        have ⟨sender, hs, he⟩ := finish_fx h e he
        exact ⟨t, sender, ht, hs, he⟩
      case h_2 transferMgr ht =>
        obtain ⟨rfl, _⟩ := Prod.ext_iff.mp ht
        cases h
        exact ⟨rfl, .ok (), rfl, .inr ⟨rfl, rfl, nofun⟩⟩

-- The transfer that `d` registers for a download of `id`.
def transfer (env : Env) (d : Daemon) (p : PeerId) (id : ResourceId) (size : UInt64) : Transfer where
  requestId := d.reqTracker.nextId
  peerId := p
  resourceId := id
  bytesTransferred := 0
  bytesTotal := size
  startTime := env.now
  lastReportTime := env.now
  lastReportBytes := 0

theorem getResource_spec {peerAlias resourceAlias : String}
    (h : d.getResource env sender peerAlias resourceAlias = (d', fx)) :
    (d' = d ∧ ∃ m, fx = [.respond sender (.error m)]) ∨
    ∃ p id info, d.aliases.getPeer peerAlias = some p ∧ d.aliases.getResource resourceAlias = some id ∧
      d.aliases.resourceInfo.lookup id = some info ∧
      d.downloadMgr.startDownload d.storage env.io info = (.ok (), d'.downloadMgr, d'.storage) ∧
      d'.aliases = d.aliases ∧ d'.store = d.store ∧
      d'.transferMgr = d.transferMgr.register (d.transfer env p id info.size) ∧
      d'.reqTracker = d.reqTracker.advance.snd.register d.reqTracker.nextId sender ∧
      fx = [.send p (.downloadResource d.reqTracker.nextId id)] := by
  simp only [getResource] at h
  split at h
  case h_1 => cases h; exact .inl ⟨rfl, _, rfl⟩
  case h_2 p hp =>
    split at h
    case h_1 => cases h; exact .inl ⟨rfl, _, rfl⟩
    case h_2 id hr =>
      split at h
      case h_1 => cases h; exact .inl ⟨rfl, _, rfl⟩
      case h_2 info hi =>
        split at h <;> cases h
        case h_1 hs => exact .inr ⟨p, id, info, hp, hr, hi, hs, rfl, rfl, rfl, rfl, rfl⟩
        case h_2 hs =>
          obtain ⟨_, _, rfl, rfl, _⟩ | ⟨h, _⟩ := DownloadManager.startDownload_cases hs
          case inl => exact .inl ⟨rfl, _, rfl⟩
          case inr => contradiction

theorem cancelTransfer_spec {t : Transfer} (h : d.cancelTransfer env name t = (d', fx)) :
    d'.aliases = d.aliases ∧ d'.transferMgr = d.transferMgr ∧
      (∃ r, d.downloadMgr.cancelDownload d.storage env.io t.resourceId = (r, d'.downloadMgr, d'.storage)) ∧
      ∀ e ∈ fx, ∃ sender m, e = .respond sender (.error m) := by
  simp only [cancelTransfer] at h
  have hf := finish_fx h
  obtain rfl := finish_eq h
  refine ⟨rfl, rfl, ⟨_, rfl⟩, fun e he => ?_⟩
  have ⟨sender, _, he⟩ := hf e he
  exact ⟨sender, _, he⟩

-- What every cancellation preserves, all of them do.
theorem cancelTransfers_preserves {P : Daemon → Prop} {ts : List Transfer}
    (hs : ∀ {d t d' fx}, t ∈ ts → P d → d.cancelTransfer env name t = (d', fx) → P d') (h : P d) :
    P (d.cancelTransfers env name ts).fst := by
  induction ts generalizing d
  case nil => exact h
  case cons t ts hi =>
    exact hi (fun hm => hs <| List.mem_cons_of_mem _ hm) <| hs (List.mem_cons_self ..) h rfl

-- A transfer that is cancelled takes the download of its resource with it.
theorem cancelTransfers_lookup {ts : List Transfer} :
    (d.cancelTransfers env name ts).fst.downloadMgr.downloads.lookup id =
      if ∃ t ∈ ts, t.resourceId = id then none else d.downloadMgr.downloads.lookup id := by
  induction ts generalizing d
  case nil => simp [cancelTransfers]
  case cons t ts hi =>
    cases hc : d.cancelTransfer env name t
    case mk d₁ fx₁ =>
      have ⟨_, _, ⟨_, hd⟩, _⟩ := cancelTransfer_spec hc
      simp only [cancelTransfers, hc, hi, DownloadManager.cancelDownload_lookup hd]
      by_cases ht : id = t.resourceId <;> simp [ht, eq_comm]

theorem disconnected_spec (h : d.disconnected env p = (d', fx)) :
    d'.aliases = d.aliases ∧ d'.transferMgr = (d.transferMgr.cancelForPeer p).fst := by
  simp only [disconnected] at h
  obtain rfl : _ = d' := congrArg Prod.fst h
  exact cancelTransfers_preserves (P := fun d' => d'.aliases = d.aliases ∧
    d'.transferMgr = (d.transferMgr.cancelForPeer p).fst) (fun _ h hs =>
      have ⟨ha, ht, _⟩ := cancelTransfer_spec hs
      ⟨ha.trans h.left, ht.trans h.right⟩) ⟨rfl, rfl⟩

theorem disconnected_of_none (h : ∀ {r t}, d.transferMgr.transfers.lookup r = some t → t.peerId ≠ p) :
    d.disconnected env p = (d, []) := by
  simp only [disconnected, TransferManager.cancelForPeer_of_none h, cancelTransfers]

theorem cancelTransfers_fx {ts : List Transfer} :
    ∀ e ∈ (d.cancelTransfers env name ts).snd, ∃ sender m, e = .respond sender (.error m) := by
  induction ts generalizing d
  case nil => exact nofun
  case cons t ts hi =>
    intro e he
    cases hc : d.cancelTransfer env name t
    case mk d₁ fx₁ =>
      simp only [cancelTransfers, hc, List.mem_append] at he
      cases he
      case inl he => exact (cancelTransfer_spec hc).right.right.right e he
      case inr he => exact hi e he

theorem disconnected_fx (h : d.disconnected env p = (d', fx)) : ∀ e ∈ fx, ∃ sender m, e = .respond sender (.error m) := by
  simp only [disconnected] at h
  obtain rfl : _ = fx := congrArg Prod.snd h
  exact cancelTransfers_fx

theorem disconnected_holds {accepted : ResourceId → Bytes} (o : d.downloadMgr.Holds d.storage accepted)
    (h : d.disconnected env p = (d', fx)) : d'.downloadMgr.Holds d'.storage accepted := by
  simp only [disconnected] at h
  obtain rfl : _ = d' := congrArg Prod.fst h
  exact cancelTransfers_preserves (P := fun d => d.downloadMgr.Holds d.storage accepted) (fun _ o hs =>
    have ⟨_, _, ⟨_, hc⟩, _⟩ := cancelTransfer_spec hs
    o.cancel hc) o

-- Downloads go only with a transfer of the peer.
theorem disconnected_lookup (h : d.disconnected env p = (d', fx)) :
    d'.downloadMgr.downloads.lookup id =
      if ∃ t ∈ (d.transferMgr.cancelForPeer p).snd, t.resourceId = id then none
      else d.downloadMgr.downloads.lookup id := by
  simp only [disconnected] at h
  obtain rfl : _ = d' := congrArg Prod.fst h
  exact cancelTransfers_lookup

theorem finish_emits (h : d.finish r response = (d', fx)) {f : Effect} (hf : f ∈ fx) :
    ∃ sender, f = .respond sender response := by
  have ⟨sender, _, he⟩ := finish_fx h f hf
  exact ⟨sender, he⟩

-- A file is sent by a thread of its own.
theorem downloadResource_spec (h : d.handleMessage env p (.downloadResource r id) = (d', fx)) :
    d' = d ∧ (fx = [] ∨ ∃ path, fx = [.upload p r id path]) := by
  simp only [handleMessage] at h
  split at h <;> cases h
  case h_1 path _ => exact ⟨rfl, .inr ⟨path, rfl⟩⟩
  case h_2        => exact ⟨rfl, .inl rfl⟩

theorem handleMessage_emits (h : d.handleMessage env p msg = (d', fx)) {f : Effect} (hf : f ∈ fx) :
    (PeerEvent.message p msg).Emits f := by
  cases msg <;> simp only [handleMessage] at h
  case hello | helloProof => cases h; contradiction
  case listResources      => cases h; cases List.mem_singleton.mp hf; exact .list _
  case resourceList       => obtain ⟨c, rfl⟩ := finish_emits h hf; exact .listed c _
  case downloadResource =>
    split at h <;> cases h
    case h_1 => cases List.mem_singleton.mp hf; exact .upload _
    case h_2 => contradiction
  case resourceChunk =>
    split at h
    case h_2 => cases h; contradiction
    case h_1 =>
      split at h <;> cases h
      case h_1 => cases List.mem_singleton.mp hf; exact .progress _ _
      case h_2 => contradiction
  case resourceEnd =>
    split at h
    case h_2 => cases h; contradiction
    case h_1 =>
      split at h
      case h_1 => obtain ⟨c, rfl⟩ := finish_emits h hf; exact .completed c _ _
      case h_2 => cases h; contradiction

theorem handleControl_emits [Crypto] {cmd : ControlMessage} (h : d.handleControl env sender cmd = .ok (d', fx))
    {f : Effect} (hf : f ∈ fx) : (PeerEvent.controlRequest cmd sender).Emits f := by
  cases cmd <;> simp only [handleControl] at h
  case scan =>
    split at h
    case h_1 => obtain ⟨c, rfl⟩ := finish_emits (Except.ok.inj h) hf; exact .refused c _
    case h_2 => cases h; cases List.mem_singleton.mp hf; exact .scan _
  case connect =>
    split at h <;> cases h <;> cases List.mem_singleton.mp hf
    case h_1 => exact .connect _ _
    case h_2 => exact .refused _ _
  case listPeers => cases h; cases List.mem_singleton.mp hf; exact .listPeers _
  case listResources =>
    split at h <;> cases h <;> cases List.mem_singleton.mp hf
    case h_1 => exact .listResources _ _
    case h_2 => exact .refused _ _
  case getResource =>
    obtain ⟨_, _, rfl⟩ | ⟨_, _, _, _, _, _, _, _, _, _, _, rfl⟩ := getResource_spec (Except.ok.inj h) <;>
      cases List.mem_singleton.mp hf
    case inl => exact .refused _ _
    case inr => exact .getResource _ _ _
  case addResource =>
    simp only [addResource] at h
    split at h <;> cases h <;> cases List.mem_singleton.mp hf
    case h_1 => exact .added _ _
    case h_2 => exact .refused _ _

-- Each event sets off nothing but what belongs to it.
theorem handleEvent_emits [Crypto] (h : d.handleEvent env e = .ok (d', fx)) {f : Effect} (hf : f ∈ fx) :
    e.Emits f := by
  cases e <;> simp only [handleEvent] at h
  case discovered | newConnection => cases h; contradiction
  case disconnected   => obtain ⟨c, m, rfl⟩ := disconnected_fx (Except.ok.inj h) f hf; exact .cancelled c m
  case message        => exact handleMessage_emits (Except.ok.inj h) hf
  case controlRequest => exact handleControl_emits h hf
  case scanTimeout    => obtain ⟨c, rfl⟩ := finish_emits (Except.ok.inj h) hf; exact .scanned c _
  case connectResult result =>
    obtain ⟨c, rfl⟩ := finish_emits (Except.ok.inj h) hf
    cases result
    case ok    => exact .connected c
    case error => exact .notConnected c

end Daemon
end Parsip
