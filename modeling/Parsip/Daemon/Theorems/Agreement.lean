import Parsip.Daemon.Theorems.History
import Parsip.Daemon.Theorems.Requests
import Parsip.Library.Ledger

-- When downloads, transfers and pending requests agree with each other.

namespace Parsip

open Transition

theorem DownloadManager.startDownload_fst {m : DownloadManager} {s : Storage} {io : IoFaults} {info : ResourceInfo} :
    (m.startDownload s io info).fst = .ok () ↔ m.downloads.lookup info.id = none ∧ io.openTemp = none := by
  simp only [startDownload]
  split
  case isTrue hc =>
    obtain ⟨d, hd⟩ := Table.contains_eq_true.mp hc
    exact iff_of_false (by simp) (by simp [hd])
  case isFalse hc =>
    have hn := Table.contains_eq_false.mp <| Bool.not_eq_true _ ▸ hc
    split
    case h_1 he => exact iff_of_false (by simp) (by simp [he])
    case h_2 he => exact iff_of_true rfl ⟨hn, he⟩

namespace Daemon

variable {d d' : Daemon} {env : Env} {e : PeerEvent} {fx : List Effect} {r : UInt32} {p : PeerId} {id : ResourceId}
variable {sender : ReplyTo}

def Active (d : Daemon) (id : ResourceId) : Prop :=
  ∃ download, d.downloadMgr.downloads.lookup id = some download

-- The resource of the transfer that is registered under a request id.
def resourceOf (d : Daemon) (r : UInt32) : Option ResourceId :=
  d.transferMgr.transfers.lookup r |>.map (·.resourceId)

-- The downloads, the transfers and the pending requests.
def ledger (d : Daemon) : Ledger UInt32 ResourceId where
  active    := d.Active
  job       := d.resourceOf
  awaited r := ∃ sender, d.reqTracker.get r = some sender

-- A `GetResource` request names what is known and not being downloaded, and the temporary file can be opened.
def Starts (env : Env) (d : Daemon) (peerAlias resourceAlias : String) : Prop :=
  ∃ p id info, d.aliases.getPeer peerAlias = some p ∧ d.aliases.getResource resourceAlias = some id ∧
    d.aliases.getInfo id = some info ∧ ¬d.Active info.id ∧ env.io.openTemp = none

-- A download that comes to its end can be completed, and it ends under the request that it was started
-- for. Nothing else that ends a request, and no new request, has the id of a transfer.
def InStep (env : Env) (d : Daemon) : PeerEvent → Prop
  | .message _ (.resourceEnd r id) =>
    d.Active id → d.downloadMgr.Completes d.storage env.io id ∧ d.resourceOf r = some id
  | .message _ (.resourceList r _) | .scanTimeout r | .connectResult r _ => d.resourceOf r = none
  | .controlRequest .scan _ => env.broadcastScan ≠ .ok () → d.resourceOf d.reqTracker.nextId = none
  | .controlRequest (.getResource peerAlias resourceAlias) _ =>
    d.Starts env peerAlias resourceAlias → d.resourceOf d.reqTracker.nextId = none
  | _ => True

theorem inStep_of_idle (h : e.Idle) : d.InStep env e := by
  cases e <;> try trivial
  case message msg => cases msg <;> trivial

theorem inStep_of_finishes (h : e.finishes = some r) : d.InStep env e ↔ d.resourceOf r = none := by
  cases e <;> try contradiction
  case message msg => cases msg <;> first | contradiction | exact Option.some.inj h ▸ .rfl
  case scanTimeout | connectResult => exact Option.some.inj h ▸ .rfl

theorem ledger_eq {l : Ledger UInt32 ResourceId} (ha : ∀ id, d'.Active id ↔ l.active id)
    (hj : ∀ r, d'.resourceOf r = l.job r) (hw : ∀ r, (∃ c, d'.reqTracker.get r = some c) ↔ l.awaited r) :
    d'.ledger = l :=
  Ledger.ext (funext fun id => propext <| ha id) (funext hj) (funext fun r => propext <| hw r)

theorem ledger_of_same (hd : d'.downloadMgr = d.downloadMgr) (ht : d'.transferMgr = d.transferMgr)
    (hq : d'.reqTracker = d.reqTracker) : d'.ledger = d.ledger := by
  refine ledger_eq (fun id => ?_) (fun r => ?_) fun r => ?_
  case refine_1 => rw [Active, hd]; rfl
  case refine_2 => rw [resourceOf, ht]; rfl
  case refine_3 => rw [hq]; rfl

theorem active_of_put {download : ActiveDownload} (h : d'.downloadMgr = d.downloadMgr.put download) :
    d'.Active id ↔ id = download.info.id ∨ d.Active id := by
  rw [Active, h, DownloadManager.put_lookup]
  by_cases hi : id = download.info.id
  case pos => exact iff_of_true ⟨_, if_pos hi⟩ (.inl hi)
  case neg => rw [if_neg hi]; exact (or_iff_right hi).symm

theorem awaited_of_finishes {q q' : RequestTracker} {rs : List UInt32} (h : q.Finishes rs fx q') :
    (∃ c, q'.get r = some c) ↔ r ∉ rs ∧ ∃ c, q.get r = some c := by
  simp only [h.get, Option.ite_none_left_eq_some, exists_and_left]

theorem awaited_of_register {q q' : RequestTracker} (h : q' = q.advance.snd.register q.nextId sender) :
    (∃ c, q'.get r = some c) ↔ r = q.nextId ∨ ∃ c, q.get r = some c := by
  rw [h]
  by_cases hr : r = q.nextId <;> simp [hr]

theorem ledger_of_settled (hd : d'.downloadMgr = d.downloadMgr) (ht : d'.transferMgr = d.transferMgr)
    (hq : d.reqTracker.Finishes [r] fx d'.reqTracker) : d'.ledger = d.ledger.settle r := by
  refine ledger_eq (fun id => ?_) (fun r' => ?_) fun r' => ?_
  case refine_1 => rw [Active, hd]; rfl
  case refine_2 => rw [resourceOf, ht]; rfl
  case refine_3 => simp [awaited_of_finishes hq, Ledger.settle, ledger]

theorem Tracks.resourceChunk {off : UInt64} {data : Bytes} (t : d.Tracks env d' fx (.message p (.resourceChunk r id off data))) :
    d'.reqTracker = d.reqTracker := by
  cases t <;> first | contradiction | assumption

theorem settled_iff (b : d.ledger.Balanced) (hd : d'.downloadMgr = d.downloadMgr) (ht : d'.transferMgr = d.transferMgr)
    (he : e.finishes = some r) (hq : d.reqTracker.Finishes [r] fx d'.reqTracker) :
    d'.ledger.Balanced ↔ d.InStep env e := by
  rw [ledger_of_settled hd ht hq, b.settle_iff, inStep_of_finishes he]
  rfl

theorem quiet_iff (b : d.ledger.Balanced) (hs : d.Same d') (hc : ¬e.Concerns) (t : d.Tracks env d' fx e) :
    d'.ledger.Balanced ↔ d.InStep env e := by
  have hd := hs.downloadMgr
  have ht := hs.transferMgr
  cases t
  case reported | unreported | ended | unended | cancelled => exact absurd trivial hc
  case idle hq _ hi => exact iff_of_true (ledger_of_same hd ht hq ▸ b) (inStep_of_idle hi)
  case finished hq he => exact settled_iff b hd ht he hq
  case registered cmd _ hb hq _ =>
    have hl : d'.ledger = d.ledger.await d.reqTracker.nextId := by
      refine ledger_eq (fun id => ?_) (fun r' => ?_) fun r' => awaited_of_register hq
      case refine_1 => rw [Active, hd]; rfl
      case refine_2 => rw [resourceOf, ht]; rfl
    refine iff_of_true (hl ▸ b.await) ?_
    cases cmd <;> try trivial
    case scan        => exact fun hn => absurd (hb rfl) hn
    case getResource => exact absurd trivial hc
  case refused hb hq =>
    have hl : d'.ledger = d.ledger.settle d.reqTracker.nextId := by
      refine ledger_eq (fun id => ?_) (fun r' => ?_) fun r' => ?_
      case refine_1 => rw [Active, hd]; rfl
      case refine_2 => rw [resourceOf, ht]; rfl
      case refine_3 =>
        rw [awaited_of_finishes hq, awaited_of_register rfl, List.mem_singleton]
        exact and_congr_right fun hr => or_iff_right hr
    rw [hl, b.settle_iff, InStep, hb]
    exact ⟨fun h _ => h, fun h => h nofun⟩
  case answered cmd _ _ ho _ hq _ =>
    refine iff_of_true (ledger_of_same hd ht hq ▸ b) ?_
    cases cmd <;> try first | trivial | contradiction
    case getResource => exact absurd trivial hc

-- The requests after the end of a resource.
theorem resourceEnd_awaited (h : d.handleMessage env p (.resourceEnd r id) = (d', fx)) {r' : UInt32} :
    (∃ c, d'.reqTracker.get r' = some c) ↔
      (d.downloadMgr.Completes d.storage env.io id → r' = r → d.resourceOf r = none) ∧
        ∃ c, d.reqTracker.get r' = some c := by
  cases handleMessage_tracks h
  case idle | finished => contradiction
  case ended t hl hf hk =>
    rw [awaited_of_finishes hf, List.mem_singleton, resourceOf, hl]
    exact and_congr_left fun _ => ⟨fun hn _ he => absurd he hn, fun h he => nomatch h hk he⟩
  case unended hq _ hn =>
    rw [hq]
    exact (and_iff_right fun hk _ => by rw [resourceOf, hn hk]; rfl).symm

theorem resourceEnd_iff (b : d.ledger.Balanced) (h : d.handleMessage env p (.resourceEnd r id) = (d', fx)) :
    d'.ledger.Balanced ↔ d.InStep env (.message p (.resourceEnd r id)) := by
  obtain ⟨_, result, hd, hc⟩ := resourceEnd_spec h
  have hk := DownloadManager.completes_iff hd
  have active {id'} : d'.Active id' ↔ id' ≠ id ∧ d.Active id' := by
    simp only [Active, DownloadManager.completeDownload_lookup hd, Option.ite_none_left_eq_some, exists_and_left]
  obtain ⟨⟨_, rfl⟩, ht, _⟩ | ⟨hr, ht, _⟩ := hc
  case inl =>
    have hn : ¬d.downloadMgr.Completes d.storage env.io id := fun h => absurd (hk.mp h) (by simp)
    have hl : d'.ledger = d.ledger.drop id := by
      refine ledger_eq (fun _ => active) (fun r' => ?_) fun r' => ?_
      case refine_1 => rw [resourceOf, ht]; rfl
      case refine_2 => exact (resourceEnd_awaited h).trans <| and_iff_right fun h => absurd h hn
    by_cases ha : d.Active id
    case pos => exact iff_of_false (hl ▸ b.not_drop ha) fun h => hn (h ha).left
    case neg => exact iff_of_true (hl ▸ b.drop ha) fun h => absurd h ha
  case inr =>
    have hk := hk.mpr hr
    have ha : d.Active id := by
      obtain ⟨download, _, hl, _⟩ := hk
      exact ⟨download, hl⟩
    have hl : d'.ledger = d.ledger.finish r id := by
      refine ledger_eq (fun _ => active) (fun r' => ?_) fun r' => ?_
      case refine_1 =>
        rw [resourceOf, ht, TransferManager.complete_lookup]
        by_cases hr : r' = r <;> simp [Ledger.finish, ledger, resourceOf, hr]
      case refine_2 => exact (resourceEnd_awaited h).trans <| and_congr_left fun _ => forall_prop_of_true hk
    rw [hl, b.finish_iff ha]
    exact ⟨fun h _ => ⟨hk, h⟩, fun h => (h ha).right⟩

-- What the daemon tells the client of a `GetResource` request says whether a download has been started.
theorem not_starts {m : String} {peerAlias resourceAlias : String}
    (h : d.getResource env sender peerAlias resourceAlias = (d', [.respond sender (.error m)])) :
    ¬d.Starts env peerAlias resourceAlias := by
  intro ⟨p, id, info, hp, hr, hi, hn, ho⟩
  have hn : d.downloadMgr.downloads.lookup info.id = none :=
    Option.eq_none_iff_forall_ne_some.mpr fun download hl => hn ⟨download, hl⟩
  have hs := (DownloadManager.startDownload_fst (s := d.storage)).mpr ⟨hn, ho⟩
  simp only [getResource, hp, hr, hi] at h
  split at h
  case h_1 => cases h
  case h_2 he => rw [he] at hs; contradiction

theorem starts_of_started {peerAlias resourceAlias : String} {info : ResourceInfo} {m : DownloadManager} {s : Storage}
    (hp : d.aliases.getPeer peerAlias = some p) (hr : d.aliases.getResource resourceAlias = some id)
    (hi : d.aliases.getInfo id = some info) (h : d.downloadMgr.startDownload d.storage env.io info = (.ok (), m, s)) :
    d.Starts env peerAlias resourceAlias := by
  have ⟨hn, ho⟩ := DownloadManager.startDownload_fst.mp <| congrArg Prod.fst h
  have ha : ¬d.Active info.id := fun ⟨_, h⟩ => nomatch h.symm.trans hn
  exact ⟨p, id, info, hp, hr, hi, ha, ho⟩

theorem mem_cancelled : r ∈ (d.transferMgr.cancelForPeer p).snd.map (·.requestId) ↔
    (d.transferMgr.transfers.lookup r).any (·.peerId = p) := by
  simp only [List.mem_map, TransferManager.mem_cancelForPeer, Option.any_eq_true, decide_eq_true_eq]
  constructor
  case mp  => intro ⟨t, ⟨ht, hp⟩, hr⟩; exact ⟨t, hr ▸ ht, hp⟩
  case mpr => intro ⟨t, ht, hp⟩; exact ⟨t, ⟨d.transferMgr.keyed ht ▸ ht, hp⟩, d.transferMgr.keyed ht⟩

theorem ledger_of_disconnected (h : d.disconnected env p = (d', fx)) (t : d.Tracks env d' fx (.disconnected p)) :
    d'.ledger = d.ledger.withdraw fun r => (d.transferMgr.transfers.lookup r).any (·.peerId = p) := by
  have ht := (disconnected_spec h).right
  refine ledger_eq (fun id => ?_) (fun r => ?_) fun r => ?_
  case refine_1 =>
    simp only [Active, disconnected_lookup h, Option.ite_none_left_eq_some, exists_and_left]
    refine and_congr_left fun _ => ?_
    simp only [Option.any_eq_true, decide_eq_true_eq]
    constructor
    case mp =>
      rintro hn r ⟨t, ht, hp⟩ he
      refine hn ⟨t, TransferManager.mem_cancelForPeer.mpr ⟨d.transferMgr.keyed ht ▸ ht, hp⟩, ?_⟩
      simpa [ledger, resourceOf, ht] using he
    case mpr =>
      rintro hn ⟨t, ht, hi⟩
      obtain ⟨hl, hp⟩ := TransferManager.mem_cancelForPeer.mp ht
      exact hn t.requestId ⟨t, hl, hp⟩ (by simp [ledger, resourceOf, hl, hi])
  case refine_2 =>
    rw [resourceOf, ht, TransferManager.cancelForPeer_lookup]
    cases hl : d.transferMgr.transfers.lookup r
    case none   => simp [Ledger.withdraw, ledger, resourceOf, hl]
    case some t => by_cases hp : t.peerId = p <;> simp [Ledger.withdraw, ledger, resourceOf, hl, hp, Option.filter]
  case refine_3 =>
    cases t
    case idle | finished => contradiction
    case cancelled hf => rw [awaited_of_finishes hf, mem_cancelled]; rfl

end Daemon

namespace Monitor

variable {s s' : Monitor} {a : Action} {env : Env} {e : PeerEvent}

def InStep (s : Monitor) : Action → Prop
  | .handle env e => s.daemon.InStep env e
  | _             => True

theorem init_balanced (h : Initial s) : s.daemon.ledger.Balanced := by
  obtain ⟨_, _, _, rfl⟩ := h
  constructor
  case ticket =>
    intro id ⟨_, h⟩
    simp [Daemon.new, DownloadManager.new] at h
  case active | awaited =>
    intro r id h
    simp [Daemon.ledger, Daemon.resourceOf, Daemon.new, TransferManager.new] at h

section

variable [Crypto]

theorem handle_balanced_iff (o : Owned s) (b : s.daemon.ledger.Balanced) (h : s.step (.handle env e) = some s') :
    s'.daemon.ledger.Balanced ↔ s.daemon.InStep env e := by
  have ⟨fx, hd, hl⟩ := step_handle h
  have t := Daemon.handleEvent_tracks hd
  cases handles hd hl
  case quiet hs hc _ => exact Daemon.quiet_iff b hs hc t
  case list hm _ ht _ _ =>
    cases t
    case idle             => contradiction
    case finished hq he   => exact Daemon.settled_iff b hm ht he hq
  case refused hs _ =>
    have hq := t.resourceChunk
    exact iff_of_true (Daemon.ledger_of_same hs.downloadMgr hs.transferMgr hq ▸ b) trivial
  case accepted download ho _ hm _ ht _ _ =>
    have hl : s'.daemon.ledger = s.daemon.ledger := by
      refine Daemon.ledger_eq (fun id' => ?_) (fun r' => ?_) fun r' => ?_
      case refine_1 =>
        rw [Daemon.active_of_put hm]
        exact or_iff_right_of_imp fun he => ⟨download, he ▸ s.daemon.downloadMgr.keyed ho ▸ ho⟩
      case refine_2 =>
        rw [Daemon.resourceOf, ht, TransferManager.updateProgress_lookup]
        split
        case isTrue  => simp only [Option.map_map, Function.comp_def, Transfer.progress_resourceId]; rfl
        case isFalse => rfl
      case refine_3 => rw [t.resourceChunk]; rfl
    exact iff_of_true (hl ▸ b) trivial
  case failed | completed => exact Daemon.resourceEnd_iff b (Except.ok.inj hd)
  case notStarted hs hf _ =>
    rw [hs]
    exact iff_of_true b fun h => absurd h <| Daemon.not_starts (hf ▸ Except.ok.inj hd)
  case started p id info hp hr hi hs ha ht hq _ _ =>
    obtain ⟨_, h, _⟩ | ⟨_, hn, _, _, _, hm, _⟩ := DownloadManager.startDownload_cases hs
    case inl => contradiction
    case inr =>
      have hk := (o.listed hi).left
      have hn : ¬s.daemon.Active info.id := fun ⟨_, h⟩ => by rw [hn] at h; contradiction
      have hl : s'.daemon.ledger = s.daemon.ledger.start s.daemon.reqTracker.nextId id := by
        refine Daemon.ledger_eq (fun _ => hk ▸ Daemon.active_of_put hm) (fun r' => ?_) fun r' => Daemon.awaited_of_register hq
        rw [Daemon.resourceOf, ht, TransferManager.register_lookup]
        by_cases hr : r' = s.daemon.reqTracker.nextId <;> simp [Ledger.start, Daemon.ledger, Daemon.resourceOf, Daemon.transfer, hr]
      rw [hl, b.start_iff (hk ▸ hn)]
      exact ⟨fun h _ => h, fun h => h <| Daemon.starts_of_started hp hr hi hs⟩
  case disconnected hd' _ =>
    exact iff_of_true (Daemon.ledger_of_disconnected hd' t ▸ b.withdraw) trivial

-- An event leaves the tables in agreement exactly when it is in step with them.
theorem step_balanced_iff (o : Owned s) (b : s.daemon.ledger.Balanced) (h : s.step a = some s') :
    s'.daemon.ledger.Balanced ↔ s.InStep a := by
  cases a
  case handle env e => exact handle_balanced_iff o b h
  case writer id faults =>
    have ⟨download, writer, disk, hd, _, hs⟩ := step_writer h
    have hl : s'.daemon.ledger = s.daemon.ledger := by
      subst hs
      refine Daemon.ledger_eq (fun id' => (Daemon.active_of_put rfl).trans ?_) (fun _ => rfl) fun _ => .rfl
      exact or_iff_right_of_imp fun he => ⟨download, he ▸ s.daemon.downloadMgr.keyed hd ▸ hd⟩
    exact iff_of_true (hl ▸ b) trivial
  case detached i faults =>
    have ⟨_, _, _, _, _, hs⟩ := step_detached h
    have hl : s'.daemon.ledger = s.daemon.ledger := by rw [hs]; rfl
    exact iff_of_true (hl ▸ b) trivial

theorem balanced_reachable (r : Reachable (system.restrict InStep) s) : s.daemon.ledger.Balanced := by
  refine Invariant.relative (P := fun s => s.daemon.ledger.Balanced) (Q := Owned) ?_ init_balanced ?_ r
  case refine_1 => exact fun r => Owned.reachable r.of_restrict
  case refine_2 => exact fun o b h => (step_balanced_iff o b h.left).mpr h.right

-- As long as every event is in step with the tables, they agree, and with the first that is not they do not.
theorem balanced_of_inStep (r : Reachable (system.restrict InStep) s) : s.daemon.ledger.Balanced ∧
    ∀ a s', s.step a = some s' → (s'.daemon.ledger.Balanced ↔ s.InStep a) :=
  ⟨balanced_reachable r, fun _ _ h => step_balanced_iff (.reachable r.of_restrict) (balanced_reachable r) h⟩

end

theorem requested_inStep : Reachable (@system .transparent |>.restrict InStep) requested := by
  let _ := Crypto.transparent
  have next {s s' : Monitor} (r : Reachable (system.restrict InStep) s) (e : PeerEvent)
      (h : s.step (.handle (.fine 0) e) = some s') (hc : s.InStep (.handle (.fine 0) e)) :
      Reachable (system.restrict InStep) s' := .step r ⟨h, hc⟩
  have r₁ := next (.init fresh_initial) (.newConnection host) rfl trivial
  have r₂ := next r₁ (.newConnection intruder) rfl trivial
  have r₃ := next r₂ (.message host <| .resourceList 1 [photo]) rfl rfl
  exact next r₃ (.controlRequest (.getResource "p1" "r1") 0) rfl fun _ => rfl

theorem balanced_of_inStep_requested : requested.daemon.ledger.Balanced :=
  (@balanced_of_inStep requested .transparent requested_inStep).left

-- The host ends the download, and its file cannot be moved.
def unmovable : Env :=
  { Env.fine 0 with io := { IoFaults.none with rename := some ⟨.other, "No space left on device (os error 28)"⟩ } }

def torn : Monitor :=
  (@step .transparent requested (.handle unmovable (.message host <| .resourceEnd 1 photo.id))).getD requested

theorem torn_not_balanced : Reachable (@system .transparent) torn ∧ ¬torn.daemon.ledger.Balanced := by
  let _ := Crypto.transparent
  have hs : requested.step (.handle unmovable (.message host <| .resourceEnd 1 photo.id)) = some torn := rfl
  refine ⟨.step requested_reachable hs, fun b => ?_⟩
  have hr : torn.daemon.resourceOf 1 = some photo.id := by decide +kernel
  have ht : torn.daemon.ledger.job 1 = some photo.id := hr
  have hd : torn.daemon.downloadMgr.downloads.lookup photo.id |>.isNone := by decide +kernel
  have ⟨download, hl⟩ := b.active ht
  rw [hl] at hd
  contradiction

end Monitor
end Parsip
