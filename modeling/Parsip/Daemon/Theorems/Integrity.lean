import Parsip.Daemon.Theorems.History

-- Where the bytes of a completed download come from.

namespace Parsip

open PosixPath Transition

namespace Chunk

variable {c : Chunk} {cs : List Chunk} {n : Nat}

@[simp]
theorem bytes_append : bytes (cs ++ [c]) = bytes cs ++ c.data := by
  simp [bytes]

theorem ConsecutiveFrom.append (h : ConsecutiveFrom n cs) (ho : c.offset.toNat = n + (bytes cs).length) :
    ConsecutiveFrom n (cs ++ [c]) := by
  induction cs generalizing n
  case nil => exact ⟨by simpa [bytes] using ho, trivial⟩
  case cons c cs hi =>
    refine ⟨h.left, hi h.right ?_⟩
    rw [ho, bytes, bytes, List.flatMap_cons, List.length_append, Nat.add_assoc]

end Chunk

-- What the last download of a resource has accepted: chunks from the peer and for the request that it
-- was started for, one after another, as they have come.
structure Log.Sound (log : Log) (id : ResourceId) : Prop where
  asked       : ∀ c ∈ log.accepted id, log.asked id = some (c.sender, c.requestId)
  consecutive : Chunk.Consecutive (log.accepted id)
  handled     : ((log.accepted id).map (Chunk.event id)).Sublist log.handled

namespace Log

variable {log log' : Log} {id id' : ResourceId} {p : PeerId} {r : UInt32} {c : Chunk}

theorem bytes_start : (fun id' => Chunk.bytes ((log.start id p r).accepted id')) =
    Function.update (fun id' => Chunk.bytes (log.accepted id')) id [] := by
  funext id'
  by_cases h : id' = id
  case pos => simp [start, h, Chunk.bytes]
  case neg => simp [start, h]

theorem bytes_accept : (fun id' => Chunk.bytes ((log.accept id c).accepted id')) =
    Function.update (fun id' => Chunk.bytes (log.accepted id')) id (Chunk.bytes (log.accepted id) ++ c.data) := by
  funext id'
  by_cases h : id' = id
  case pos => subst h; simp [accept]
  case neg => simp [accept, h]

namespace Sound

theorem empty : Log.empty.Sound id :=
  ⟨nofun, trivial, .refl _⟩

theorem keep (k : log.Sound id) (hc : log'.accepted id = log.accepted id) (ha : log'.asked id = log.asked id)
    (hh : log.handled.Sublist log'.handled) : log'.Sound id where
  asked       := hc ▸ ha ▸ k.asked
  consecutive := hc ▸ k.consecutive
  handled     := hc ▸ k.handled.trans hh

theorem start : (log.start id p r).Sound id where
  asked       := by simp [Log.start]
  consecutive := by simp [Log.start, Chunk.Consecutive, Chunk.ConsecutiveFrom]
  handled     := by simp [Log.start]

-- A chunk that is accepted is the last message handled, and follows the ones before.
theorem accept (k : log.Sound id) (ha : log.asked id = some (c.sender, c.requestId))
    (ho : c.offset.toNat = (Chunk.bytes (log.accepted id)).length) :
    Sound { log.accept id c with handled := log.handled ++ [c.event id] } id := by
  constructor <;> simp only [Log.accept, Function.update_self]
  case asked =>
    intro c' hc
    obtain hc | hc := List.mem_append.mp hc
    case inl => exact k.asked c' hc
    case inr => rw [List.mem_singleton.mp hc, ha]
  case consecutive =>
    exact k.consecutive.append <| by rw [ho, Nat.zero_add]
  case handled =>
    rw [List.map_append]
    exact k.handled.append (.refl _)

end Sound
end Log

namespace Monitor

-- A chunk comes from the peer and for the request that its download was started for and goes on where
-- the download is. An end is for that request, too, and the file goes where no other download has its
-- own. A download is not started while somebody else still writes to its file.
def Attributed (s : Monitor) : Action → Prop
  | .handle _ (.message q (.resourceChunk r id off _)) => s.daemon.downloadMgr.Accepts id →
    s.log.asked id = some (q, r) ∧ off.toNat = (Chunk.bytes (s.log.accepted id)).length
  | .handle env (.message _ (.resourceEnd r id)) =>
    s.daemon.downloadMgr.Completes s.daemon.storage env.io id →
      (∀ t, s.daemon.transferMgr.transfers.lookup r = some t →
        t.resourceId = id ∧ s.log.asked id = some (t.peerId, r)) ∧
      ∀ {d id' d'}, s.daemon.downloadMgr.downloads.lookup id = some d → id' ≠ id →
        s.daemon.downloadMgr.downloads.lookup id' = some d' →
        resolve (s.daemon.downloadMgr.finalPath d.info) ≠ resolve (s.daemon.downloadMgr.tempPath id')
  | .handle _ (.controlRequest (.getResource _ resourceAlias) _) =>
    ∀ {id w}, s.daemon.aliases.getResource resourceAlias = some id → w ∈ s.daemon.storage.detached →
      w.exit = none → s.daemon.storage.disk.dir.lookup (resolve <| s.daemon.downloadMgr.tempPath id) ≠
        some w.file.inode
  | _ => True

-- A chunk does not exceed what is announced, and the end does not come before all of it is there.
def Sized (s : Monitor) : Action → Prop
  | .handle _ (.message _ (.resourceChunk _ id _ data)) => s.daemon.downloadMgr.Accepts id →
    ∀ d, s.daemon.downloadMgr.downloads.lookup id = some d →
      (Chunk.bytes (s.log.accepted id)).length + data.length ≤ d.info.size.toNat
  | .handle env (.message _ (.resourceEnd r id)) =>
    s.daemon.downloadMgr.Completes s.daemon.storage env.io id →
      ∀ t, s.daemon.transferMgr.transfers.lookup r = some t →
        (Chunk.bytes (s.log.accepted id)).length = t.bytesTotal.toNat
  | _ => True

variable {s s' : Monitor} {d d' : Daemon} {a : Action} {env : Env} {e : PeerEvent} {fx : List Effect}
variable {id : ResourceId} {log : Log} {c : Chunk} {p : PeerId} {r : UInt32}

-- What each download has accepted, and from whom.
structure Traced (s : Monitor) : Prop where
  holds : s.daemon.downloadMgr.Holds s.daemon.storage fun id => Chunk.bytes (s.log.accepted id)
  sound : ∀ id, s.log.Sound id

namespace Traced

theorem init (h : Initial s) : Traced s := by
  obtain ⟨_, _, _, rfl⟩ := h
  constructor
  case holds => constructor <;> intros <;> simp_all [Daemon.new, DownloadManager.new]
  case sound => exact fun _ => .empty

-- Nothing is started or accepted.
theorem keep (t : Traced s)
    (h : s'.daemon.downloadMgr.Holds s'.daemon.storage fun id => Chunk.bytes (s.log.accepted id))
    (hc : s'.log.accepted = s.log.accepted) (ha : s'.log.asked = s.log.asked)
    (hh : s.log.handled.Sublist s'.log.handled) : Traced s' where
  holds    := hc ▸ h
  sound id := (t.sound id).keep (hc ▸ rfl) (ha ▸ rfl) hh

theorem handle (t : Traced s) (o : Owned s) (h : s.Handles env fx s' e)
    (hc : s.Attributed (.handle env e)) : Traced s' := by
  have hh : s.log.handled.Sublist (s.log.handled ++ [e]) := List.sublist_append_left ..
  cases h
  case quiet hs _ hl | refused hs hl =>
    exact t.keep (hs.downloadMgr ▸ hs.storage ▸ t.holds) (hl ▸ rfl) (hl ▸ rfl) (hl ▸ hh)
  case list hd hs _ _ hl =>
    exact t.keep (hd ▸ hs ▸ t.holds) (hl ▸ rfl) (hl ▸ rfl) (hl ▸ hh)
  case accepted p r id off data download hd hx hm hs _ _ hl =>
    have ⟨ha, ho⟩ := hc ⟨download, hd, hx⟩
    constructor
    case holds =>
      rw [hl, hm, hs]
      simp only [Log.bytes_accept]
      exact t.holds.chunk hd hx
    case sound =>
      intro id'
      by_cases hi : id' = id
      case pos =>
        rw [hl, hi]
        exact @Log.Sound.accept _ _ ⟨p, r, off, data⟩ (t.sound id) ha ho
      case neg =>
        rw [hl]
        exact (t.sound id').keep (Function.update_of_ne hi ..) rfl hh
  case failed hd _ _ hl _ | completed hd _ _ hl _ =>
    exact t.keep (t.holds.complete hd fun h => (hc h).right).left (hl ▸ rfl) (hl ▸ rfl) (hl ▸ hh)
  case notStarted hd _ hl =>
    exact t.keep (hd ▸ t.holds) (hl ▸ rfl) (hl ▸ rfl) (hl ▸ hh)
  case started p id info _ hr hi hs _ _ _ _ hl =>
    have hk := (o.listed hi).left
    have ho := t.holds.start hs fun hw hx => hk ▸ hc hr hw hx
    constructor
    case holds =>
      rw [hl]
      simp only [Log.bytes_start]
      exact hk ▸ ho
    case sound =>
      intro id'
      by_cases hi : id' = id
      case pos => rw [hl, hi]; exact Log.Sound.start.keep rfl rfl hh
      case neg =>
        rw [hl]
        exact (t.sound id').keep (Function.update_of_ne hi ..) (Function.update_of_ne hi ..) hh
  case disconnected p hd hl =>
    exact t.keep (Daemon.disconnected_holds t.holds hd) (hl ▸ rfl) (hl ▸ rfl) (hl ▸ hh)

variable [Crypto]

theorem step (t : Traced s) (o : Owned s) (h : s.step a = some s') (hc : s.Attributed a) : Traced s' := by
  cases a
  case handle env e =>
    have ⟨fx, hd, hl⟩ := step_handle h
    exact t.handle o (handles hd hl) hc
  case writer id faults =>
    have ⟨download, writer, disk, hd, ht, hs⟩ := step_writer h
    subst hs
    exact t.keep (t.holds.turn hd ht) rfl rfl (List.Sublist.refl _)
  case detached i faults =>
    have ⟨_, _, _, hw, ht, hs⟩ := step_detached h
    subst hs
    exact t.keep (t.holds.turn_detached hw ht) rfl rfl (List.Sublist.refl _)

theorem reachable (h : Reachable (system.restrict Attributed) s) : Traced s :=
  Invariant.relative (fun r => Owned.reachable r.of_restrict) init (fun o t h => t.step o h.left h.right) h

end Traced

-- No download has accepted more than what is announced, and each counts what it has accepted.
structure Within (s : Monitor) : Prop where
  bounded : ∀ {id d}, s.daemon.downloadMgr.downloads.lookup id = some d →
    (Chunk.bytes (s.log.accepted id)).length ≤ d.info.size.toNat
  counted : ∀ {id d}, s.daemon.downloadMgr.downloads.lookup id = some d →
    d.receivedBytes.toNat = (Chunk.bytes (s.log.accepted id)).length

namespace Within

theorem of (h : ∀ {id d}, s.daemon.downloadMgr.downloads.lookup id = some d →
    (Chunk.bytes (s.log.accepted id)).length ≤ d.info.size.toNat ∧
      d.receivedBytes.toNat = (Chunk.bytes (s.log.accepted id)).length) : Within s where
  bounded h' := (h h').left
  counted h' := (h h').right

theorem init (h : Initial s) : Within s := by
  obtain ⟨_, _, _, rfl⟩ := h
  constructor <;> intro _ _ h <;> simp [Daemon.new, DownloadManager.new] at h

theorem keep (w : Within s) (hc : s'.log.accepted = s.log.accepted)
    (hd : ∀ {id d'}, s'.daemon.downloadMgr.downloads.lookup id = some d' →
      ∃ d, s.daemon.downloadMgr.downloads.lookup id = some d ∧ d'.info = d.info ∧
        d'.receivedBytes = d.receivedBytes) : Within s' where
  bounded h :=
    have ⟨_, h, hi, _⟩ := hd h
    hc ▸ hi ▸ w.bounded h
  counted h :=
    have ⟨_, h, _, hr⟩ := hd h
    hc ▸ hr ▸ w.counted h

theorem handle (w : Within s) (o : Owned s) (h : s.Handles env fx s' e) (hc : s.Sized (.handle env e)) :
    Within s' := by
  cases h
  case quiet hs _ hl | refused hs hl =>
    exact w.keep (hl ▸ rfl) fun h => ⟨_, hs.downloadMgr ▸ h, rfl, rfl⟩
  case list hd _ _ _ hl => exact w.keep (hl ▸ rfl) fun h => ⟨_, hd ▸ h, rfl, rfl⟩
  case notStarted hd _ hl => exact w.keep (hl ▸ rfl) fun h => ⟨_, hd ▸ h, rfl, rfl⟩
  case failed hd _ _ hl _ | completed hd _ _ hl _ =>
    refine w.keep (hl ▸ rfl) fun h => ?_
    rw [DownloadManager.completeDownload_lookup hd, Option.ite_none_left_eq_some] at h
    exact ⟨_, h.right, rfl, rfl⟩
  case disconnected p hd hl =>
    refine w.keep (hl ▸ rfl) fun h => ?_
    rw [Daemon.disconnected_lookup hd, Option.ite_none_left_eq_some] at h
    exact ⟨_, h.right, rfl, rfl⟩
  case started p id info _ _ hi hs _ _ _ _ hl =>
    have hk := (o.listed hi).left
    obtain ⟨_, h, _⟩ | ⟨_, _, _, _, _, hm, _⟩ := DownloadManager.startDownload_cases hs
    case inl => contradiction
    case inr =>
      refine .of fun {id' d} h => ?_
      rw [hm] at h
      simp only [hl, Log.start]
      obtain ⟨rfl, rfl⟩ | ⟨hne, h⟩ := DownloadManager.put_cases h
      case inl => rw [hk, Function.update_self]; exact ⟨Nat.zero_le _, rfl⟩
      case inr => rw [Function.update_of_ne (hk ▸ hne)]; exact ⟨w.bounded h, w.counted h⟩
  case accepted p r id off data download hd hx hm _ _ _ hl =>
    have hk := s.daemon.downloadMgr.keyed hd
    refine .of fun {id' d} h => ?_
    rw [hm] at h
    simp only [hl, Log.accept]
    obtain ⟨he, rfl⟩ | ⟨hne, h⟩ := DownloadManager.put_cases h
    case inr => rw [Function.update_of_ne (hk ▸ hne)]; exact ⟨w.bounded h, w.counted h⟩
    case inl =>
      obtain rfl : id' = id := he.trans hk
      have hb := hc ⟨download, hd, hx⟩ download hd
      have hs := download.info.size.toNat_lt
      have hr := w.counted hd
      rw [Function.update_self, Chunk.bytes_append, List.length_append]
      refine ⟨hb, ?_⟩
      simp only [ActiveDownload.receive, UInt64.toNat_add, UInt64.toNat_ofNat', hr]
      omega

variable [Crypto]

theorem step (w : Within s) (o : Owned s) (h : s.step a = some s') (hc : s.Sized a) : Within s' := by
  cases a
  case handle env e =>
    have ⟨fx, hd, hl⟩ := step_handle h
    exact w.handle o (handles hd hl) hc
  case writer id faults =>
    have ⟨download, writer, disk, hd, _, hs⟩ := step_writer h
    subst hs
    refine w.keep rfl fun h => ?_
    obtain ⟨he, rfl⟩ | ⟨_, h⟩ := DownloadManager.put_cases h
    case inl => exact ⟨download, he ▸ s.daemon.downloadMgr.keyed hd ▸ hd, rfl, rfl⟩
    case inr => exact ⟨_, h, rfl, rfl⟩
  case detached i faults =>
    have ⟨_, _, _, _, _, hs⟩ := step_detached h
    subst hs
    exact w.keep rfl fun h => ⟨_, h, rfl, rfl⟩

theorem reachable (h : Reachable (system.restrict Sized) s) : Within s :=
  Invariant.relative (fun r => Owned.reachable r.of_restrict) init (fun o w h => w.step o h.left h.right) h

end Within

-- The file that is moved into place when `id` ends is what was announced for the transfer, all of it
-- from the peer and for the request of the transfer, in the order in which it has come.
def Delivers (s : Monitor) (d : Daemon) (id : ResourceId) (t : Transfer) : Prop :=
  ∃ download cs, s.daemon.downloadMgr.downloads.lookup id = some download ∧
    d.storage.disk.read (resolve <| s.daemon.downloadMgr.finalPath download.info) = some (Chunk.bytes cs) ∧
    (Chunk.bytes cs).length = t.bytesTotal.toNat ∧ Chunk.Consecutive cs ∧
    (∀ c ∈ cs, c.sender = t.peerId ∧ c.requestId = t.requestId) ∧
    (cs.map (Chunk.event t.resourceId)).Sublist s.log.handled

-- A download is reported complete only to the client that has requested it, and only when it is.
def Intact (s : Monitor) (e : PeerEvent) (d : Daemon) (fx : List Effect) : Prop :=
  ∀ sender bytes elapsed, .respond sender (.downloadComplete bytes elapsed) ∈ fx →
    ∃ q r id t, e = .message q (.resourceEnd r id) ∧ s.daemon.reqTracker.get r = some sender ∧
      s.daemon.transferMgr.transfers.lookup r = some t ∧ s.Delivers d id t

def Careful (s : Monitor) (a : Action) : Prop :=
  s.Attributed a ∧ s.Sized a

section

variable [Crypto]

theorem Traced.intact (t : Traced s) (ha : s.Attributed (.handle env e)) (hs : s.Sized (.handle env e))
    (h : s.daemon.handleEvent env e = .ok (d, fx)) : s.Intact e d fx := by
  intro sender bytes elapsed hm
  obtain ⟨q, r, id, rfl⟩ := (Daemon.handleEvent_emits h hm).ends trivial
  have ⟨_, result, hd, hc⟩ := Daemon.resourceEnd_spec (Except.ok.inj h)
  obtain ⟨_, _, rfl⟩ | ⟨rfl, _, hf⟩ := hc
  case inl => contradiction
  case inr =>
    have ⟨tr, sender', ht, hs', he⟩ := hf _ hm
    cases he
    have hk := (DownloadManager.completes_iff hd).mpr rfl
    have ⟨hi, hq⟩ := (ha hk).left tr ht
    have ⟨download, hl, hr⟩ := (t.holds.complete hd fun h => (ha h).right).right rfl
    have o := t.sound id
    refine ⟨q, r, id, tr, rfl, hs', ht, download, _, hl, hr, hs hk tr ht, o.consecutive, fun c hc => ?_,
      hi ▸ o.handled⟩
    have := Option.some.inj <| (o.asked c hc).symm.trans hq
    exact ⟨congrArg Prod.fst this, (congrArg Prod.snd this).trans (s.daemon.transferMgr.keyed ht).symm⟩

theorem Careful.reachable (r : Reachable (system.restrict Careful) s) :
    Reachable (system.restrict Attributed) s ∧ Reachable (system.restrict Sized) s := by
  induction r
  case init h    => exact ⟨.init h, .init h⟩
  case step h hi => exact ⟨.step hi.left ⟨h.left, h.right.left⟩, .step hi.right ⟨h.left, h.right.right⟩⟩

-- As long as every step is careful, downloads are intact.
theorem intact_of_careful (r : Reachable (system.restrict Careful) s) : s.Within ∧
    ∀ env e d fx, s.Careful (.handle env e) → s.daemon.handleEvent env e = .ok (d, fx) → s.Intact e d fx :=
  have ⟨ra, rs⟩ := Careful.reachable r
  ⟨Within.reachable rs, fun _ _ _ _ hc h => (Traced.reachable ra).intact hc.left hc.right h⟩

end

theorem requested_careful : Reachable (@system .transparent |>.restrict Careful) requested := by
  let _ := Crypto.transparent
  have next {s s' : Monitor} (r : Reachable (system.restrict Careful) s) (e : PeerEvent)
      (h : s.step (.handle (.fine 0) e) = some s') (hc : s.Careful (.handle (.fine 0) e)) :
      Reachable (system.restrict Careful) s' := .step r ⟨h, hc⟩
  have r₁ := next (.init fresh_initial) (.newConnection host) rfl ⟨trivial, trivial⟩
  have r₂ := next r₁ (.newConnection intruder) rfl ⟨trivial, trivial⟩
  have r₃ := next r₂ (.message host <| .resourceList 1 [photo]) rfl ⟨trivial, trivial⟩
  refine next r₃ (.controlRequest (.getResource "p1" "r1") 0) rfl ⟨fun _ hw => ?_, trivial⟩
  contradiction

theorem delivered_careful : Reachable (@system .transparent |>.restrict Careful) (delivered host) := by
  let _ := Crypto.transparent
  have hs : requested.step (.handle (.fine 0) (.message host delivery)) = some (delivered host) := rfl
  refine .step requested_careful ⟨hs, fun _ => ⟨rfl, rfl⟩, fun _ d hd => ?_⟩
  have hi : (requested.daemon.downloadMgr.downloads.lookup photo.id).map (·.info) = some photo := by decide +kernel
  have hi : d.info = photo := by simpa [hd] using hi
  rw [hi]
  decide +kernel

def completed : Daemon × List Effect :=
  (delivered host).daemon.handleMessage (.fine 0) host <| .resourceEnd 1 photo.id

theorem intact_of_careful_delivered : (delivered host).Within ∧
    (delivered host).Intact (.message host <| .resourceEnd 1 photo.id) completed.fst completed.snd := by
  let _ := Crypto.transparent
  have ⟨w, h⟩ := intact_of_careful delivered_careful
  have ht : ((delivered host).daemon.transferMgr.transfers.lookup 1).map
      (fun t => (t.resourceId, t.peerId, t.bytesTotal)) = some (photo.id, host, 3) := by decide +kernel
  have hd : (delivered host).daemon.downloadMgr.downloads.toList.map Prod.fst = [photo.id] := by decide +kernel
  have hf : (delivered host).daemon.handleEvent (.fine 0) (.message host <| .resourceEnd 1 photo.id) =
      .ok (completed.fst, completed.snd) := congrArg Except.ok Prod.mk.eta.symm
  refine ⟨w, h _ _ _ _ ⟨fun _ => ⟨fun t hl => ?_, fun {d id' d'} _ hi hl => ?_⟩, fun _ t hl => ?_⟩ hf⟩
  case refine_1 =>
    rw [hl, Option.map_some, Option.some.injEq, Prod.mk.injEq, Prod.mk.injEq] at ht
    exact ⟨ht.left, by rw [ht.right.left]; rfl⟩
  case refine_2 =>
    have := List.mem_map_of_mem (f := Prod.fst) <| Table.mem_toList.mpr hl
    rw [hd] at this
    exact absurd (List.mem_singleton.mp this) hi
  case refine_3 =>
    rw [hl, Option.map_some, Option.some.injEq, Prod.mk.injEq, Prod.mk.injEq] at ht
    rw [ht.right.right]
    decide +kernel

def ended : Daemon × List Effect :=
  requested.daemon.handleMessage (.fine 0) host <| .resourceEnd 1 photo.id

-- The host ends the download before it has sent anything.
theorem ended_not_intact : Reachable (@system .transparent) requested ∧
    @Daemon.handleEvent .transparent (.fine 0) requested.daemon (.message host <| .resourceEnd 1 photo.id) =
      .ok ended ∧
    ¬requested.Intact (.message host <| .resourceEnd 1 photo.id) ended.fst ended.snd := by
  refine ⟨requested_reachable, rfl, fun h => ?_⟩
  have hf : ended.snd = [.respond 0 (.downloadComplete 0 0)] := by decide +kernel
  have ⟨q, r, id, t, he, _, ht, download, cs, hd, hr, hl, _⟩ := h 0 0 0 (hf ▸ List.mem_singleton.mpr rfl)
  cases he
  have hs : (requested.daemon.transferMgr.transfers.lookup 1).map (·.bytesTotal) = some 3 := by decide +kernel
  have hi : (requested.daemon.downloadMgr.downloads.lookup photo.id).map (·.info) = some photo := by decide +kernel
  have hs : t.bytesTotal = 3 := by simpa [ht] using hs
  have hi : download.info = photo := by simpa [hd] using hi
  rw [hi] at hr
  have hn : (ended.fst.storage.disk.read <| resolve <| requested.daemon.downloadMgr.finalPath photo).map List.length = some 0 := by decide +kernel
  rw [hr, Option.map_some, hl, hs] at hn
  exact absurd hn (by decide)

end Monitor
end Parsip
