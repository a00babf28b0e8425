import Parsip.Daemon.Theorems.Replies

-- What the end of a connection takes with it.

namespace Parsip

open PosixPath Transition

namespace Daemon

variable {d d' : Daemon} {env : Env} {fx : List Effect} {p : PeerId} {name : String} {ts : List Transfer}
variable {id : ResourceId} {download : ActiveDownload} {place : Place}

-- Every download writes to the temporary file of its resource.
def Placed (d : Daemon) : Prop :=
  ∀ id download, d.downloadMgr.downloads.lookup id = some download → download.tempPath = d.downloadMgr.tempPath id

namespace Placed

theorem put (o : d.Placed) (download' : ActiveDownload) (h : d.downloadMgr.downloads.lookup id = some download)
    (ht : download'.tempPath = download.tempPath) (hi : download'.info = download.info)
    (hm : d'.downloadMgr = d.downloadMgr.put download') : d'.Placed := by
  intro id' download'' h'
  rw [hm] at h' ⊢
  obtain ⟨rfl, rfl⟩ | ⟨_, h'⟩ := DownloadManager.put_cases h'
  case inr => exact o id' download'' h'
  case inl =>
    rw [ht, o id download h, hi, d.downloadMgr.keyed h]
    rfl

-- The downloads are among those that were there before.
theorem keep (o : d.Placed) (hd : d'.downloadMgr.downloadsDir = d.downloadMgr.downloadsDir)
    (hl : ∀ {id download}, d'.downloadMgr.downloads.lookup id = some download →
      d.downloadMgr.downloads.lookup id = some download) : d'.Placed := by
  intro id download h
  rw [o id download (hl h), DownloadManager.tempPath, DownloadManager.tempPath, hd]

theorem cancelTransfer {t : Transfer} (o : d.Placed) (h : d.cancelTransfer env name t = (d', fx)) : d'.Placed := by
  obtain ⟨_, _, ⟨_, hc⟩, _⟩ := cancelTransfer_spec h
  obtain ⟨_, hm, _⟩ | ⟨_, _, hm, _⟩ := DownloadManager.cancelDownload_cases hc
  case inl => exact o.keep (hm ▸ rfl) fun h => hm ▸ h
  case inr => exact o.keep (hm ▸ rfl) fun h => (DownloadManager.take_cases (hm ▸ h)).right

end Placed

-- A file stays where it is, unless it is the temporary file of a resource that a transfer is about.
theorem cancelTransfers_read (o : d.Placed) (h : ∀ t ∈ ts, resolve (d.downloadMgr.tempPath t.resourceId) ≠ place) :
    (d.cancelTransfers env name ts).fst.storage.disk.read place = d.storage.disk.read place := by
  have step {d₁ d₂ : Daemon} {t : Transfer} {fx : List Effect} (ht : t ∈ ts) (o₁ : d₁.Placed ∧
      d₁.downloadMgr.downloadsDir = d.downloadMgr.downloadsDir ∧ d₁.storage.disk.read place = d.storage.disk.read place)
      (hc : d₁.cancelTransfer env name t = (d₂, fx)) : d₂.Placed ∧
      d₂.downloadMgr.downloadsDir = d.downloadMgr.downloadsDir ∧ d₂.storage.disk.read place = d.storage.disk.read place := by
    obtain ⟨o₁, hd, hl⟩ := o₁
    have o₂ := o₁.cancelTransfer hc
    obtain ⟨_, _, ⟨_, hc⟩, _⟩ := cancelTransfer_spec hc
    obtain ⟨_, hm, hs⟩ | ⟨download, hd', hm, _, hs⟩ := DownloadManager.cancelDownload_cases hc
    case inl => exact ⟨o₂, by rw [hm, hd], by rw [hs, hl]⟩
    case inr =>
      refine ⟨o₂, by rw [hm, DownloadManager.take_downloadsDir, hd], ?_⟩
      obtain ⟨_, hs⟩ | ⟨_, hs⟩ := hs
      case inr => rw [hs, hl]
      case inl =>
        have he : download.tempPath = d.downloadMgr.tempPath t.resourceId := by
          rw [o₁ _ _ hd', DownloadManager.tempPath, DownloadManager.tempPath, hd]
        rw [hs, FileSystem.unlink_read, he, if_neg (h t ht).symm, hl]
  exact (cancelTransfers_preserves step ⟨o, rfl, rfl⟩).right.right

theorem disconnected_read (o : d.Placed) (h : d.disconnected env p = (d', fx))
    (hn : ∀ t ∈ (d.transferMgr.cancelForPeer p).snd, t.resourceId ≠ id) :
    d'.storage.disk.read (resolve <| d.downloadMgr.tempPath id) = d.storage.disk.read (resolve <| d.downloadMgr.tempPath id) := by
  simp only [disconnected] at h
  have hd : _ = d' := congrArg Prod.fst h
  rw [← hd]
  refine cancelTransfers_read (d := { d with transferMgr := (d.transferMgr.cancelForPeer p).fst }) o fun t ht he => ?_
  exact hn t ht <| DownloadManager.tempPath_injective he

theorem disconnected_finishes (h : d.disconnected env p = (d', fx)) :
    d.reqTracker.Finishes ((d.transferMgr.cancelForPeer p).snd.map (·.requestId)) fx d'.reqTracker :=
  @cancelTransfers_finishes { d with transferMgr := (d.transferMgr.cancelForPeer p).fst } _ _ _ _ _ h

-- Who waits for a transfer of the peer is told of one error.
theorem disconnected_responses {r : UInt32} {t : Transfer} {c : ReplyTo} (h : d.disconnected env p = (d', fx))
    (hs : ∀ {r r'}, d.reqTracker.get r = some c → d.reqTracker.get r' = some c → r = r')
    (ht : d.transferMgr.transfers.lookup r = some t) (hp : t.peerId = p) (hg : d.reqTracker.get r = some c) :
    ∃ m, fx.filterMap (·.responseTo c) = [.error m] := by
  have hf := disconnected_finishes h
  have hr := mem_cancelled.mpr (show (d.transferMgr.transfers.lookup r).any (·.peerId = p) by simp [ht, hp])
  obtain hn | ⟨response, he, _⟩ := hf.responses hs
  case inl =>
    obtain ⟨response, _, hm⟩ := hf.mem_of_get hr hg
    exact absurd (List.filterMap_eq_nil_iff.mp hn _ hm) (by simp [Effect.responseTo])
  case inr =>
    have hm : response ∈ fx.filterMap (·.responseTo c) := he ▸ List.mem_singleton.mpr rfl
    obtain ⟨f, hf, hc⟩ := List.mem_filterMap.mp hm
    obtain ⟨c', m, rfl⟩ := disconnected_fx h f hf
    simp only [Effect.responseTo, Option.ite_none_right_eq_some, Option.some.injEq] at hc
    exact ⟨m, hc.right ▸ he⟩

-- What is pending stays so, but for what is pending under the id of a transfer of the peer.
theorem disconnected_get {r : UInt32} (h : d.disconnected env p = (d', fx)) : d'.reqTracker.get r =
    if ∃ t, d.transferMgr.transfers.lookup r = some t ∧ t.peerId = p then none else d.reqTracker.get r := by
  rw [(disconnected_finishes h).get]
  simp only [mem_cancelled, Option.any_eq_true, decide_eq_true_eq]

theorem disconnected_unanswered {r : UInt32} {c : ReplyTo} (h : d.disconnected env p = (d', fx))
    (hs : ∀ {r'}, d.reqTracker.get r' = some c → r = r')
    (hn : ∀ t, d.transferMgr.transfers.lookup r = some t → t.peerId ≠ p) : fx.filterMap (·.responseTo c) = [] := by
  refine (disconnected_finishes h).unanswered fun r' hr hg => ?_
  obtain ⟨t, ht, hp⟩ := Option.any_eq_true _ _ |>.mp <| mem_cancelled.mp hr
  exact hn t (hs hg ▸ ht) (of_decide_eq_true hp)

end Daemon

namespace Monitor

variable {s s' : Monitor} {a : Action} {env : Env} {e : PeerEvent} {fx : List Effect}

theorem placed_handle (o : s.daemon.Placed) (h : s.Handles env fx s' e) : s'.daemon.Placed := by
  cases h
  case quiet hs _ _ | refused hs _ => exact o.keep (hs.downloadMgr ▸ rfl) fun h => hs.downloadMgr ▸ h
  case list hd _ _ _ _ => exact o.keep (hd ▸ rfl) fun h => hd ▸ h
  case accepted download hd _ hm _ _ _ _ =>
    refine o.put (download.receive _) hd ?_ ?_ hm <;> rfl
  case failed hd _ _ _ _ | completed hd _ _ _ _ =>
    obtain ⟨_, _, hm, _⟩ | ⟨_, _, _, _, hm, _⟩ := DownloadManager.completeDownload_cases hd
    case inl => exact o.keep (hm ▸ rfl) fun h => hm ▸ h
    case inr => exact o.keep (hm ▸ rfl) fun h => (DownloadManager.take_cases (hm ▸ h)).right
  case notStarted hd _ _ => exact hd ▸ o
  case started hs _ _ _ _ _ =>
    obtain ⟨_, h, _⟩ | ⟨_, _, _, _, _, hm, _⟩ := DownloadManager.startDownload_cases hs
    case inl => contradiction
    case inr =>
      intro id download h
      rw [hm] at h ⊢
      obtain ⟨rfl, rfl⟩ | ⟨_, h⟩ := DownloadManager.put_cases h
      case inl => rfl
      case inr => exact o id download h
  case disconnected p hd _ =>
    simp only [Daemon.disconnected] at hd
    have hd : _ = s'.daemon := congrArg Prod.fst hd
    rw [← hd]
    exact Daemon.cancelTransfers_preserves (P := Daemon.Placed) (fun _ o hs => o.cancelTransfer hs) o

theorem placed_step [Crypto] (o : s.daemon.Placed) (h : s.step a = some s') : s'.daemon.Placed := by
  cases a
  case handle env e =>
    obtain ⟨fx, hd, hl⟩ := step_handle h
    exact placed_handle o <| handles hd hl
  case writer id faults =>
    obtain ⟨download, writer, disk, hd, _, rfl⟩ := step_writer h
    refine o.put { download with writer } hd ?_ ?_ rfl <;> rfl
  case detached i faults =>
    obtain ⟨_, _, _, _, _, rfl⟩ := step_detached h
    exact o

end Monitor

def Request.peer : Request → Option PeerId
  | .scan                         => none
  | .connect _ p | .list p | .get p _ => some p

namespace Service

variable {s s' s₀ : Service} {a : Action} {as : List Action} {env : Env} {p : PeerId}

-- The download has been started for the transfer that is registered under the id `r`.
structure Started (s : Service) (r : UInt32) (t : Transfer) (download : ActiveDownload) : Prop where
  transfer : s.daemon.transferMgr.transfers.lookup r = some t
  download : s.daemon.downloadMgr.downloads.lookup t.resourceId = some download
  asked    : s.monitor.log.asked t.resourceId = some (t.peerId, r)

-- All that is done for `p` comes to its end, each of the clients that wait for it is told so once, and
-- everything else stays as it is.
structure Cancels (s : Service) (p : PeerId) (s' : Service) : Prop where
  transfers : ∀ r t, s'.daemon.transferMgr.transfers.lookup r = some t → t.peerId ≠ p
  downloads : ∀ r t download, s.Started r t download → t.peerId = p →
    s'.daemon.downloadMgr.downloads.lookup t.resourceId = none
  clients   : ∀ r t c, s.daemon.transferMgr.transfers.lookup r = some t → t.peerId = p →
    s.daemon.reqTracker.get r = some c → ∃ m, s'.sent c = s.sent c ++ [.error m]
  others    : ∀ r t, s.daemon.transferMgr.transfers.lookup r = some t → t.peerId ≠ p →
    s'.daemon.transferMgr.transfers.lookup r = some t
  started   : ∀ r t download, s.Started r t download → t.peerId ≠ p →
    s'.daemon.downloadMgr.downloads.lookup t.resourceId = some download ∧
      s'.daemon.storage.disk.read (resolve download.tempPath) = s.daemon.storage.disk.read (resolve download.tempPath)
  pending   : ∀ r c, s.daemon.reqTracker.get r = some c → (s.request r).bind (·.peer) ≠ some p →
    s'.daemon.reqTracker.get r = some c ∧ s'.sent c = s.sent c

-- No transfer of `p` is about a resource that another peer's transfer has started a download of, and
-- what is pending under the ids of the transfers of `p` has to do with `p`.
structure Separate (s : Service) (p : PeerId) : Prop where
  resources : ∀ r t r' t' download, s.daemon.transferMgr.transfers.lookup r = some t → t.peerId = p →
    s.Started r' t' download → t'.peerId ≠ p → t.resourceId ≠ t'.resourceId
  requests  : ∀ r t c, s.daemon.transferMgr.transfers.lookup r = some t → t.peerId = p →
    s.daemon.reqTracker.get r = some c → (s.request r).bind (·.peer) = some p

section

variable [Crypto]

theorem placed_reachable (r : Reachable system s) : s.daemon.Placed := by
  refine Invariant.reachable (P := fun s => s.daemon.Placed) ⟨?_, ?_⟩ r
  case refine_1 =>
    rintro s ⟨⟨_, _, _, hm⟩, _⟩ id download h
    simp [daemon, hm, Daemon.new, DownloadManager.new] at h
  case refine_2 => exact fun o h => Monitor.placed_step o <| step_monitor h

theorem Cancels.separate (k : s.Cancels p s') (h : s.step (.handle env (.disconnected p)) = some s') : s.Separate p := by
  obtain ⟨d, fx, hd, _, rfl⟩ := step_handle h
  have hd := Except.ok.inj hd
  constructor
  case resources =>
    intro r t r' t' download ht hp hs hp' he
    have hm := TransferManager.mem_cancelForPeer.mpr ⟨s.daemon.transferMgr.keyed ht ▸ ht, hp⟩
    have hn : d.downloadMgr.downloads.lookup t'.resourceId = none :=
      (Daemon.disconnected_lookup hd).trans <| if_pos ⟨t, hm, he⟩
    cases hn.symm.trans (k.started r' t' download hs hp').left
  case requests =>
    intro r t c ht hp hg
    by_contra hb
    have hn := Daemon.disconnected_get hd (r := r)
    rw [if_pos ⟨t, ht, hp⟩] at hn
    cases hn.symm.trans (k.pending r c hg hb).left

theorem Separate.cancels (k : s.Separate p) (l : Linear s) (o : s.daemon.Placed)
    (h : s.step (.handle env (.disconnected p)) = some s') : s.Cancels p s' := by
  obtain ⟨d, fx, hd, _, rfl⟩ := step_handle h
  have hd := Except.ok.inj hd
  have ht := (Daemon.disconnected_spec hd).right
  constructor
  case transfers =>
    intro r t (h : d.transferMgr.transfers.lookup r = some t)
    rw [ht, TransferManager.cancelForPeer_lookup, Option.filter_eq_some_iff] at h
    simpa using h.right
  case downloads =>
    intro r t download hs hp
    have hm := TransferManager.mem_cancelForPeer.mpr ⟨s.daemon.transferMgr.keyed hs.transfer ▸ hs.transfer, hp⟩
    exact (Daemon.disconnected_lookup hd).trans <| if_pos ⟨t, hm, rfl⟩
  case clients =>
    intro r t c ht hp hg
    obtain ⟨m, hm⟩ := Daemon.disconnected_responses hd l.single ht hp hg
    exact ⟨m, congrArg _ hm⟩
  case others =>
    intro r t h hp
    refine (congrArg (·.transfers.lookup r) ht).trans ?_
    simp only [TransferManager.cancelForPeer_lookup, h]
    simp [hp]
  case started =>
    intro r t download hs hp
    have hn : ∀ t' ∈ (s.daemon.transferMgr.cancelForPeer p).snd, t'.resourceId ≠ t.resourceId := by
      intro t' ht'
      obtain ⟨h', hp'⟩ := TransferManager.mem_cancelForPeer.mp ht'
      exact k.resources _ t' r t download h' hp' hs hp
    constructor
    case left =>
      refine (Daemon.disconnected_lookup hd).trans <| (if_neg ?_).trans hs.download
      rintro ⟨t', ht', he⟩
      exact hn t' ht' he
    case right =>
      rw [o _ _ hs.download]
      exact Daemon.disconnected_read o hd hn
  case pending =>
    intro r c hg hb
    have hn (t : Transfer) (ht : s.daemon.transferMgr.transfers.lookup r = some t) (hp : t.peerId = p) : False :=
      hb <| k.requests r t c ht hp hg
    constructor
    case left =>
      refine (Daemon.disconnected_get hd).trans <| (if_neg ?_).trans hg
      rintro ⟨t, ht, hp⟩
      exact hn t ht hp
    case right =>
      exact List.append_right_eq_self.mpr <| Daemon.disconnected_unanswered hd (l.single hg) hn

-- In a run, the end of a connection always takes with it what it should and nothing else exactly when
-- the ids that it goes by are never those of anybody else's work.
theorem cancels_throughout_iff (i : Initial s₀) :
    system.Throughout s₀ as s (fun s a s' => ∀ env p, a = .handle env (.disconnected p) → s.Cancels p s') ↔
      system.Throughout s₀ as s (fun s a _ => ∀ env p, a = .handle env (.disconnected p) → s.Separate p) := by
  refine Run.throughout_iff fun r h => forall₃_congr fun env p he => ?_
  have hr := r.reachable <| .init i
  have h := he ▸ h
  exact ⟨fun k => k.separate h, fun k => k.cancels (.reachable hr) (placed_reachable hr) h⟩

end

-- The host ends the download, and its file cannot be moved, so its transfer is left over. Then the
-- intruder is asked for the same resource, and the host goes away.
def reasking : List Action := [
  .handle (.fine 0) <| .newConnection Monitor.host,
  .handle (.fine 0) <| .newConnection Monitor.intruder,
  .handle (.fine 0) <| .message Monitor.host <| .resourceList 1 [Monitor.photo],
  .handle (.fine 0) <| .controlRequest (.getResource "p1" "r1") 0,
  .handle Monitor.unmovable <| .message Monitor.host <| .resourceEnd 1 Monitor.photo.id,
  .handle (.fine 0) <| .controlRequest (.getResource "p2" "r1") 1
]

def reasked : Service :=
  (reasking.foldlM (@step .transparent) fresh).getD fresh

def bereft : Service :=
  (@step .transparent reasked (.handle (.fine 0) (.disconnected Monitor.host))).getD reasked

theorem cancels_throughout_iff_bereft :
    (@system .transparent).Throughout fresh (reasking ++ [.handle (.fine 0) (.disconnected Monitor.host)]) bereft
        (fun s a s' => ∀ env p, a = .handle env (.disconnected p) → s.Cancels p s') ↔
      (@system .transparent).Throughout fresh (reasking ++ [.handle (.fine 0) (.disconnected Monitor.host)]) bereft
        (fun s a _ => ∀ env p, a = .handle env (.disconnected p) → s.Separate p) :=
  @cancels_throughout_iff _ _ _ .transparent fresh_initial

theorem reasked_not_cancels : Reachable (@system .transparent) reasked ∧
    @step .transparent reasked (.handle (.fine 0) (.disconnected Monitor.host)) = some bereft ∧
    ¬reasked.Cancels Monitor.host bereft := by
  have hr : (reasking.foldlM (@step .transparent) fresh).isSome := by decide +kernel
  have hb : (@step .transparent reasked (.handle (.fine 0) (.disconnected Monitor.host))).isSome := by decide +kernel
  have r : Run (@system .transparent) fresh reasking reasked :=
    .ofFn (Option.getD_of_ne_none (Option.isSome_iff_ne_none.mp hr) fresh).symm
  refine ⟨r.reachable <| .init fresh_initial, ?_, fun k => ?_⟩
  case refine_1 => exact (Option.getD_of_ne_none (Option.isSome_iff_ne_none.mp hb) reasked).symm
  have ht : ((reasked.daemon.transferMgr.transfers.lookup 2).map fun t => (t.peerId, t.resourceId)) =
      some (Monitor.intruder, Monitor.photo.id) := by decide +kernel
  obtain ⟨t, ht, he⟩ := Option.map_eq_some_iff.mp ht
  obtain ⟨hp, hi⟩ := Prod.mk.inj he
  have hd : (reasked.daemon.downloadMgr.downloads.lookup Monitor.photo.id).isSome := by decide +kernel
  obtain ⟨download, hd⟩ := Option.isSome_iff_exists.mp hd
  have ha : reasked.monitor.log.asked Monitor.photo.id = some (Monitor.intruder, 2) := by decide +kernel
  have hs : reasked.Started 2 t download := ⟨ht, hi ▸ hd, by rw [hi, hp]; exact ha⟩
  have hn : bereft.daemon.downloadMgr.downloads.lookup Monitor.photo.id |>.isNone := by decide +kernel
  have hl := (k.started 2 t download hs (by rw [hp]; decide)).left
  rw [hi] at hl
  rw [hl] at hn
  exact Bool.false_ne_true hn

end Service
end Parsip
