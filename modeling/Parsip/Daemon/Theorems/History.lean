import Parsip.Daemon.History
import Parsip.Daemon.Theorems.EventHandler

namespace Parsip.Monitor

open Transition

-- What handling an event can do to downloads, transfers, cached information and the record of them.
inductive Handles (env : Env) (s : Monitor) (fx : List Effect) (s' : Monitor) : PeerEvent → Prop
  | quiet {e} (concerns : ¬PeerEvent.Concerns e) (same : s.daemon.Same s'.daemon)
    (log : s'.log = { s.log with handled := s.log.handled ++ [e] }) : Handles env s fx s' e
  | list {p r rs} (downloadMgr : s'.daemon.downloadMgr = s.daemon.downloadMgr)
    (storage : s'.daemon.storage = s.daemon.storage)
    (transferMgr : s'.daemon.transferMgr = s.daemon.transferMgr)
    (resourceInfo : ∀ id, s'.daemon.aliases.resourceInfo.lookup id =
      (rs.reverse.find? (·.id = id)).or (s.daemon.aliases.resourceInfo.lookup id))
    (log : s'.log =
      { s.log.list p rs with handled := s.log.handled ++ [.message p (.resourceList r rs)] }) :
    Handles env s fx s' (.message p (.resourceList r rs))
  | refused {p r id off data} (accepts : ¬s.daemon.downloadMgr.Accepts id)
    (same : s.daemon.Same s'.daemon)
    (log : s'.log =
      { s.log with handled := s.log.handled ++ [.message p (.resourceChunk r id off data)] }) :
    Handles env s fx s' (.message p (.resourceChunk r id off data))
  | accepted {p r id off data download}
    (lookup : s.daemon.downloadMgr.downloads.lookup id = some download)
    (running : download.writer.exit = none)
    (downloadMgr : s'.daemon.downloadMgr = s.daemon.downloadMgr.put (download.receive data))
    (storage : s'.daemon.storage = s.daemon.storage)
    (transferMgr : s'.daemon.transferMgr =
      (s.daemon.transferMgr.updateProgress env.now r (.ofNat data.length)).fst)
    (resourceInfo : s'.daemon.aliases.resourceInfo = s.daemon.aliases.resourceInfo)
    (log : s'.log = { s.log.accept id ⟨p, r, off, data⟩ with
      handled := s.log.handled ++ [.message p (.resourceChunk r id off data)] }) :
    Handles env s fx s' (.message p (.resourceChunk r id off data))
  | failed {p r id e} (complete : s.daemon.downloadMgr.completeDownload s.daemon.storage env.io id =
      (.error e, s'.daemon.downloadMgr, s'.daemon.storage))
    (transferMgr : s'.daemon.transferMgr = s.daemon.transferMgr)
    (aliases : s'.daemon.aliases = s.daemon.aliases)
    (log : s'.log = { s.log with handled := s.log.handled ++ [.message p (.resourceEnd r id)] })
    (effects : fx = []) : Handles env s fx s' (.message p (.resourceEnd r id))
  | completed {p r id} (complete : s.daemon.downloadMgr.completeDownload s.daemon.storage env.io id =
      (.ok (), s'.daemon.downloadMgr, s'.daemon.storage))
    (transferMgr : s'.daemon.transferMgr = (s.daemon.transferMgr.complete r).fst)
    (aliases : s'.daemon.aliases = s.daemon.aliases)
    (log : s'.log = { s.log with handled := s.log.handled ++ [.message p (.resourceEnd r id)] })
    (effects : ∀ e ∈ fx, ∃ t sender, s.daemon.transferMgr.transfers.lookup r = some t ∧
      s.daemon.reqTracker.get r = some sender ∧
      e = .respond sender (.downloadComplete t.bytesTransferred (env.now - t.startTime))) :
    Handles env s fx s' (.message p (.resourceEnd r id))
  | notStarted {pa ra sender m} (daemon : s'.daemon = s.daemon) (effects : fx = [.respond sender (.error m)])
    (log : s'.log =
      { s.log with handled := s.log.handled ++ [.controlRequest (.getResource pa ra) sender] }) :
    Handles env s fx s' (.controlRequest (.getResource pa ra) sender)
  | started {pa ra sender p id info} (peer : s.daemon.aliases.getPeer pa = some p)
    (resource : s.daemon.aliases.getResource ra = some id)
    (lookup : s.daemon.aliases.resourceInfo.lookup id = some info)
    (start : s.daemon.downloadMgr.startDownload s.daemon.storage env.io info =
      (.ok (), s'.daemon.downloadMgr, s'.daemon.storage))
    (aliases : s'.daemon.aliases = s.daemon.aliases)
    (transferMgr : s'.daemon.transferMgr =
      s.daemon.transferMgr.register (s.daemon.transfer env p id info.size))
    (reqTracker : s'.daemon.reqTracker =
      s.daemon.reqTracker.advance.snd.register s.daemon.reqTracker.nextId sender)
    (effects : fx = [.send p (.downloadResource s.daemon.reqTracker.nextId id)])
    (log : s'.log = { s.log.start id p s.daemon.reqTracker.nextId with
      handled := s.log.handled ++ [.controlRequest (.getResource pa ra) sender] }) :
    Handles env s fx s' (.controlRequest (.getResource pa ra) sender)
  | disconnected {p} (disconnected : s.daemon.disconnected env p = (s'.daemon, fx))
    (log : s'.log = { s.log with handled := s.log.handled ++ [.disconnected p] }) :
    Handles env s fx s' (.disconnected p)

variable {s s' : Monitor} {d d' : Daemon} {a : Action} {env : Env} {e : PeerEvent} {fx : List Effect}
variable {id : ResourceId} {faults : WriteFaults} {i : Nat} {log : Log}

-- Other events leave the record of downloads and lists alone.
theorem observe_of_not_concerns (h : ¬e.Concerns) : log.observe d fx e = log := by
  cases e <;> try rfl
  case message p m => cases m <;> first | rfl | exact absurd trivial h
  case controlRequest cmd _ => cases cmd <;> first | rfl | exact absurd trivial h

theorem step_handle [Crypto] (h : s.step (.handle env e) = some s') : ∃ fx,
    s.daemon.handleEvent env e = .ok (s'.daemon, fx) ∧ s'.log = s.log.record s.daemon e fx := by
  simp only [step] at h
  split at h <;> cases h
  case h_1 d fx hd => exact ⟨fx, hd, rfl⟩

theorem handles [Crypto] (h : s.daemon.handleEvent env e = .ok (s'.daemon, fx))
    (hl : s'.log = s.log.record s.daemon e fx) : s.Handles env fx s' e := by
  by_cases hc : e.Concerns
  case neg =>
    exact .quiet hc (Daemon.handleEvent_same h hc) <| by rw [hl, Log.record, observe_of_not_concerns hc]
  case pos =>
    match e with
    | .disconnected p => exact .disconnected (Except.ok.inj h) hl
    | .message p (.resourceList r rs) =>
      have ⟨hd, hs, ht, hi⟩ := Daemon.resourceList_spec (Except.ok.inj h)
      exact .list hd hs ht hi hl
    | .message p (.resourceChunk r id off data) =>
      have ⟨hs, hi, hc⟩ := Daemon.resourceChunk_spec (Except.ok.inj h)
      simp only [Log.record, Log.observe] at hl
      obtain ⟨_, hp, hn⟩ | ⟨_, hp, ha⟩ := @DownloadManager.processChunk_fst s.daemon.downloadMgr id data
      case inl =>
        rw [hp] at hl
        obtain ⟨_, hd, ht⟩ | ⟨download, hd, hx, _⟩ := hc
        case inl => exact .refused hn ⟨hd, hs, ht, hi⟩ hl
        case inr => exact absurd ⟨download, hd, hx⟩ hn
      case inr =>
        rw [hp] at hl
        obtain ⟨hn, _⟩ | ⟨download, hd, hx, hm, ht⟩ := hc
        case inl => exact absurd ha hn
        case inr => exact .accepted hd hx hm hs ht hi hl
    | .message p (.resourceEnd r id) =>
      have ⟨ha, result, hd, hc⟩ := Daemon.resourceEnd_spec (Except.ok.inj h)
      obtain ⟨⟨e, rfl⟩, ht, hf⟩ | ⟨rfl, ht, hf⟩ := hc
      case inl => exact .failed hd ht ha hl hf
      case inr => exact .completed hd ht ha hl hf
    | .controlRequest (.getResource pa ra) sender =>
      obtain ⟨hd, m, rfl⟩ | ⟨p, id, info, hp, hr, hi, hs, ha, _, ht, hq, rfl⟩ :=
        Daemon.getResource_spec (Except.ok.inj h)
      case inl => exact .notStarted hd rfl hl
      case inr => exact .started hp hr hi hs ha ht hq rfl hl

-- What a step of a writer thread does.
theorem step_writer [Crypto] (h : s.step (.writer id faults) = some s') : ∃ download writer disk,
    s.daemon.downloadMgr.downloads.lookup id = some download ∧
    download.writer.turn s.daemon.storage.disk faults = some (writer, disk) ∧
    s' = { s with daemon := { s.daemon with
      downloadMgr := s.daemon.downloadMgr.put { download with writer }
      storage     := { s.daemon.storage with disk } } } := by
  have ⟨d, hd, h⟩ := Option.map_eq_some_iff.mp h
  subst h
  simp only [Daemon.turnWriter] at hd
  split at hd
  case h_2 => contradiction
  case h_1 download hl =>
    have ⟨⟨writer, disk⟩, ht, hd⟩ := Option.map_eq_some_iff.mp hd
    exact ⟨download, writer, disk, hl, ht, hd ▸ rfl⟩

theorem step_detached [Crypto] (h : s.step (.detached i faults) = some s') : ∃ writer writer' disk,
    s.daemon.storage.detached[i]? = some writer ∧
    writer.turn s.daemon.storage.disk faults = some (writer', disk) ∧
    s' = { s with daemon := { s.daemon with
      storage := { disk, detached := s.daemon.storage.detached.set i writer' } } } := by
  have ⟨d, hd, h⟩ := Option.map_eq_some_iff.mp h
  subst h
  simp only [Daemon.turnDetached] at hd
  split at hd
  case h_2 => contradiction
  case h_1 writer hl =>
    have ⟨⟨writer', disk⟩, ht, hd⟩ := Option.map_eq_some_iff.mp hd
    exact ⟨writer, writer', disk, hl, ht, hd ▸ rfl⟩

-- Every download has been asked of somebody, and everything cached is from somebody's list.
structure Owned (s : Monitor) : Prop where
  asked  : ∀ {id d}, s.daemon.downloadMgr.downloads.lookup id = some d →
    ∃ p r, s.log.asked id = some (p, r)
  listed : ∀ {id info}, s.daemon.aliases.resourceInfo.lookup id = some info →
    info.id = id ∧ ∃ p, s.log.listed id = some p

namespace Owned

theorem init (h : Initial s) : Owned s := by
  obtain ⟨_, _, _, rfl⟩ := h
  constructor <;> intro _ _ h <;> simp [Daemon.new, DownloadManager.new, AliasRegistry.new] at h

-- The downloads are among those that were there before.
theorem keep (o : Owned s) (ha : s'.log.asked = s.log.asked) (hl : s'.log.listed = s.log.listed)
    (hd : ∀ {id d'}, s'.daemon.downloadMgr.downloads.lookup id = some d' →
      ∃ d, s.daemon.downloadMgr.downloads.lookup id = some d)
    (hi : s'.daemon.aliases.resourceInfo = s.daemon.aliases.resourceInfo) : Owned s' where
  asked h :=
    have ⟨_, h⟩ := hd h
    ha ▸ o.asked h
  listed h := hl ▸ o.listed (hi ▸ h)

theorem handle (o : Owned s) (h : s.Handles env fx s' e) : Owned s' := by
  cases h
  case quiet hs _ hl | refused hs hl =>
    exact o.keep (hl ▸ rfl) (hl ▸ rfl) (fun h => ⟨_, hs.downloadMgr ▸ h⟩)
      hs.resourceInfo
  case list p r rs hd _ _ hi hl =>
    constructor
    case asked  => intro id d h; exact hl ▸ o.asked (hd ▸ h)
    case listed =>
      intro id info h
      rw [hi, Option.or_eq_some_iff] at h
      simp only [hl, Log.list]
      obtain h | ⟨hn, h⟩ := h
      case inl =>
        have hr := List.mem_reverse.mp <| List.mem_of_find?_eq_some h
        have he : info.id = id := by simpa using List.find?_some h
        exact ⟨he, p, if_pos ⟨info, hr, he⟩⟩
      case inr =>
        have ⟨he, q, hq⟩ := o.listed h
        refine ⟨he, q, (if_neg fun ⟨res, hr, he⟩ => ?_).trans hq⟩
        have := List.find?_eq_none.mp hn res (List.mem_reverse.mpr hr)
        simp [he] at this
  case accepted p r id off data download hd _ hm _ _ hi hl =>
    refine o.keep (hl ▸ rfl) (hl ▸ rfl) (fun h => ?_) hi
    rw [hm] at h
    obtain ⟨rfl, _⟩ | ⟨_, h⟩ := DownloadManager.put_cases h
    case inl => exact ⟨_, s.daemon.downloadMgr.keyed hd ▸ hd⟩
    case inr => exact ⟨_, h⟩
  case failed hd _ ha hl _ | completed hd _ ha hl _ =>
    refine o.keep (hl ▸ rfl) (hl ▸ rfl) (fun h => ?_) (ha ▸ rfl)
    obtain ⟨_, _, hm, _⟩ | ⟨_, _, _, _, hm, _⟩ := DownloadManager.completeDownload_cases hd
    case inl => exact ⟨_, hm ▸ h⟩
    case inr => exact ⟨_, (DownloadManager.take_cases (hm ▸ h)).right⟩
  case notStarted hd _ hl =>
    exact o.keep (hl ▸ rfl) (hl ▸ rfl) (fun h => ⟨_, hd ▸ h⟩) (hd ▸ rfl)
  case started p id info _ _ hi hs ha _ _ _ hl =>
    have hk := (o.listed hi).left
    obtain ⟨_, h, _⟩ | ⟨_, _, _, _, _, hm, _⟩ := DownloadManager.startDownload_cases hs
    case inl => contradiction
    case inr =>
      constructor
      case listed => intro id info h; exact hl ▸ o.listed (ha ▸ h)
      case asked =>
        intro id d h
        rw [hm] at h
        simp only [hl, Log.start]
        obtain ⟨rfl, _⟩ | ⟨hne, h⟩ := DownloadManager.put_cases h
        case inl => exact ⟨p, _, by rw [hk, Function.update_self]⟩
        case inr => rw [Function.update_of_ne (hk ▸ hne)]; exact o.asked h
  case disconnected p hd hl =>
    refine o.keep (hl ▸ rfl) (hl ▸ rfl) (fun h => ?_)
      ((Daemon.disconnected_spec hd).left ▸ rfl)
    rw [Daemon.disconnected_lookup hd, Option.ite_none_left_eq_some] at h
    exact ⟨_, h.right⟩

variable [Crypto]

theorem step (o : Owned s) (h : s.step a = some s') : Owned s' := by
  cases a
  case handle env e =>
    have ⟨fx, hd, hl⟩ := step_handle h
    exact o.handle <| handles hd hl
  case writer id faults =>
    have ⟨download, writer, disk, hd, _, hs⟩ := step_writer h
    subst hs
    refine o.keep rfl rfl (fun h => ?_) rfl
    obtain ⟨rfl, _⟩ | ⟨_, h⟩ := DownloadManager.put_cases h
    case inl => exact ⟨_, s.daemon.downloadMgr.keyed hd ▸ hd⟩
    case inr => exact ⟨_, h⟩
  case detached i faults =>
    have ⟨_, _, _, _, _, hs⟩ := step_detached h
    subst hs
    exact o.keep rfl rfl (fun h => ⟨_, h⟩) rfl

theorem reachable (r : Reachable system s) : Owned s :=
  Invariant.reachable ⟨init, step⟩ r

end Owned

-- A request on the way, for examples: the daemon has asked `host` for a file that `host` has listed, and `intruder` is connected, too.
def host : PeerId :=
  ⟨.replicate 32 1⟩

def intruder : PeerId :=
  ⟨.replicate 32 2⟩

def photo : ResourceInfo where
  id := ⟨.replicate 32 7⟩
  name := "photo"
  size := 3

def requesting : List Action := [
  .handle (.fine 0) <| .newConnection host,
  .handle (.fine 0) <| .newConnection intruder,
  .handle (.fine 0) <| .message host <| .resourceList 1 [photo],
  .handle (.fine 0) <| .controlRequest (.getResource "p1" "r1") 0
]

def delivery : Message :=
  .resourceChunk 1 photo.id 0 [6, 6, 6]

def requested : Monitor :=
  (requesting.foldlM (@step .transparent) fresh).getD fresh

def delivered (p : PeerId) : Monitor :=
  (@step .transparent requested (.handle (.fine 0) (.message p delivery))).getD requested

theorem requested_reachable : Reachable (@system .transparent) requested :=
  Run.reachable (.init fresh_initial) <| .ofFn (rfl : requesting.foldlM (@step .transparent) fresh = _)

end Parsip.Monitor
