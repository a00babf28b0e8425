import Parsip.Daemon.Theorems.History

-- What a message of one peer does to what belongs to the others.

namespace Parsip

-- The entry of a table of downloads, up to what only its writer thread knows.
def ActiveDownload.progress (d : ActiveDownload) : UInt64 × Bytes :=
  (d.receivedBytes, Writer.payload d.writer.queue)

def ResourceInfo.announced (info : ResourceInfo) : String × UInt64 :=
  (info.name, info.size)

namespace Monitor

open Transition

-- Everything that belongs to `p` is as before: its transfers, the downloads that they have started and
-- what is cached from its list.
structure Untouched (s s' : Monitor) (p : PeerId) : Prop where
  transfers : ∀ r, (s'.daemon.transferMgr.transfers.lookup r).filter (·.peerId = p) =
    (s.daemon.transferMgr.transfers.lookup r).filter (·.peerId = p)
  downloads : ∀ id r, s.log.asked id = some (p, r) →
    (s'.daemon.downloadMgr.downloads.lookup id).map (·.progress) =
      (s.daemon.downloadMgr.downloads.lookup id).map (·.progress)
  cached : ∀ id, s.log.listed id = some p →
    (s'.daemon.aliases.resourceInfo.lookup id).map (·.announced) =
      (s.daemon.aliases.resourceInfo.lookup id).map (·.announced)

-- Nothing is touched that belongs to somebody else than `q`.
def Spares (s s' : Monitor) (q : PeerId) : Prop :=
  ∀ p, p ≠ q → s.Untouched s' p

-- The message of `q` names nothing that belongs to somebody else, or changes nothing there.
def Harmless (env : Env) (s : Monitor) (q : PeerId) : Message → Prop
  | .resourceList _ resources => ∀ id p info, s.log.listed id = some p → p ≠ q →
    resources.reverse.find? (·.id = id) = some info →
    (s.daemon.aliases.resourceInfo.lookup id).map (·.announced) = some info.announced
  | .resourceChunk requestId id _ data => s.daemon.downloadMgr.Accepts id →
    (data = [] ∨ ∃ r, s.log.asked id = some (q, r)) ∧
      ∀ t, s.daemon.transferMgr.transfers.lookup requestId = some t → t.peerId ≠ q →
        UInt64.ofNat data.length = 0 ∧ env.now ≤ t.lastReportTime + 200
  | .resourceEnd requestId id => (s.daemon.downloadMgr.downloads.lookup id).isSome →
    (∃ r, s.log.asked id = some (q, r)) ∧
      (s.daemon.downloadMgr.Completes s.daemon.storage env.io id →
        ∀ t, s.daemon.transferMgr.transfers.lookup requestId = some t → t.peerId = q)
  | _ => True

variable {s s' : Monitor} {env : Env} {fx : List Effect} {p q : PeerId} {m : Message} {r : UInt32}
variable {id : ResourceId} {off : UInt64} {data : Bytes} {download : ActiveDownload}

theorem Untouched.of_same (h : s.daemon.Same s'.daemon) : s.Untouched s' p where
  transfers _     := by rw [h.transferMgr]
  downloads _ _ _ := by rw [h.downloadMgr]
  cached _ _      := by rw [h.resourceInfo]

-- A download that receives nothing is as before.
theorem progress_receive : (download.receive data).progress = download.progress ↔ data = [] := by
  simp only [ActiveDownload.progress, ActiveDownload.receive, Writer.payload, Prod.mk.injEq]
  constructor
  case mp  => exact fun h => by simpa using h.right
  case mpr => rintro rfl; simp

theorem list_iff {rs : List ResourceInfo} (h : s.Handles env fx s' (.message q (.resourceList r rs))) :
    s.Spares s' q ↔ s.Harmless env q (.resourceList r rs) := by
  cases h
  case quiet _ hc _ => exact absurd trivial hc
  case list hd _ ht hi _ =>
    constructor
    case mp =>
      intro hu id p info hl hp hf
      have := (hu p hp).cached id hl
      rw [hi, hf] at this
      exact this.symm
    case mpr =>
      intro hh p hp
      refine ⟨fun _ => by rw [ht], fun _ _ _ => by rw [hd], fun id hl => ?_⟩
      rw [hi]
      cases hf : rs.reverse.find? (·.id = id)
      case none      => rfl
      case some info => exact (hh id p info hl hp hf).symm

theorem chunk_iff (o : Owned s) (h : s.Handles env fx s' (.message q (.resourceChunk r id off data))) :
    s.Spares s' q ↔ s.Harmless env q (.resourceChunk r id off data) := by
  cases h
  case quiet _ hc _     => exact absurd trivial hc
  case refused hs ha _  => exact iff_of_true (fun _ _ => .of_same hs) (fun h => absurd h ha)
  case accepted download hx _ hi hd hm ht _ =>
    have hk := s.daemon.downloadMgr.keyed hd
    constructor
    case mp =>
      intro hu _
      constructor
      case left =>
        have ⟨p, r', ha⟩ := o.asked hd
        by_cases hp : p = q
        case pos => exact .inr ⟨r', hp ▸ ha⟩
        case neg =>
          have := (hu p hp).downloads id r' ha
          rw [hm, hd, DownloadManager.put_lookup, if_pos (show id = (download.receive data).info.id from hk.symm)] at this
          exact .inl <| progress_receive.mp <| Option.some.inj this
      case right =>
        intro t hl hp
        have := (hu t.peerId hp).transfers r
        rw [ht, TransferManager.updateProgress_lookup, if_pos rfl, hl] at this
        simp only [Option.map_some, Option.filter, Transfer.progress_peerId, decide_true, if_true,
          Option.some.injEq] at this
        exact Transfer.progress_eq_self.mp this
    case mpr =>
      intro hh p hp
      have ⟨hb, hl⟩ := hh ⟨download, hd, hx⟩
      constructor
      case cached => intro _ _; rw [hi]
      case downloads =>
        intro id' r' ha
        rw [hm, DownloadManager.put_lookup]
        split
        case isFalse   => rfl
        case isTrue he =>
          obtain rfl := he.trans hk
          obtain hb | ⟨_, hq⟩ := hb
          case inl => rw [hd, Option.map_some, Option.map_some, progress_receive.mpr hb]
          case inr => exact absurd (congrArg Prod.fst <| Option.some.inj <| ha.symm.trans hq) hp
      case transfers =>
        intro r'
        rw [ht, TransferManager.updateProgress_lookup]
        split
        case isFalse => rfl
        case isTrue he =>
          subst he
          cases hr : s.daemon.transferMgr.transfers.lookup r'
          case none   => rfl
          case some t =>
            rw [Option.map_some]
            by_cases hq : t.peerId = q
            case pos =>
              have hp : ¬t.peerId = p := fun he => hp <| he.symm.trans hq
              simp [Option.filter, hp]
            case neg => rw [Transfer.progress_eq_self.mpr (hl t hr hq)]

-- A download that ends was started by somebody.
theorem ended_iff {result : Except Error Unit} (o : Owned s)
    (h : s.daemon.downloadMgr.completeDownload s.daemon.storage env.io id =
      (result, s'.daemon.downloadMgr, s'.daemon.storage)) :
    (∀ p, p ≠ q → ∀ id' r, s.log.asked id' = some (p, r) →
      (s'.daemon.downloadMgr.downloads.lookup id').map (·.progress) =
        (s.daemon.downloadMgr.downloads.lookup id').map (·.progress)) ↔
      ((s.daemon.downloadMgr.downloads.lookup id).isSome → ∃ r, s.log.asked id = some (q, r)) := by
  simp only [DownloadManager.completeDownload_lookup h]
  constructor
  case mp =>
    intro hu hs
    have ⟨d, hd⟩ := Option.isSome_iff_exists.mp hs
    have ⟨p, r', ha⟩ := o.asked hd
    by_cases hp : p = q
    case pos => exact ⟨r', hp ▸ ha⟩
    case neg => simpa [hd] using hu p hp id r' ha
  case mpr =>
    intro hh p hp id' r' ha
    split
    case isFalse   => rfl
    case isTrue he =>
      subst he
      cases hd : s.daemon.downloadMgr.downloads.lookup id'
      case none   => rfl
      case some d =>
        have ⟨_, hq⟩ := hh (by simp [hd])
        exact absurd (congrArg Prod.fst <| Option.some.inj <| ha.symm.trans hq) hp

theorem end_iff (o : Owned s) (h : s.Handles env fx s' (.message q (.resourceEnd r id))) :
    s.Spares s' q ↔ s.Harmless env q (.resourceEnd r id) := by
  cases h
  case quiet _ hc _ => exact absurd trivial hc
  case failed ht ha _ hc _ =>
    have hn : ¬s.daemon.downloadMgr.Completes s.daemon.storage env.io id :=
      fun h => by simpa using (DownloadManager.completes_iff hc).mp h
    have hd := @ended_iff s s' env q id _ o hc
    constructor
    case mp  => exact fun hu hs => ⟨hd.mp (fun p hp => (hu p hp).downloads) hs, fun h => absurd h hn⟩
    case mpr =>
      intro hh p hp
      exact ⟨fun _ => by rw [ht], hd.mpr (fun hs => (hh hs).left) p hp, fun _ _ => by rw [ha]⟩
  case completed ha ht _ hc _ =>
    have hy := (DownloadManager.completes_iff hc).mpr rfl
    have hs : (s.daemon.downloadMgr.downloads.lookup id).isSome :=
      have ⟨_, _, hd, _⟩ := hy
      by simp [hd]
    have hd := @ended_iff s s' env q id _ o hc
    constructor
    case mp =>
      refine fun hu hs => ⟨hd.mp (fun p hp => (hu p hp).downloads) hs, fun _ t hl => ?_⟩
      by_contra hp
      have := (hu t.peerId hp).transfers r
      simp [ht, hl, Option.filter] at this
    case mpr =>
      intro hh p hp
      refine ⟨fun r' => ?_, hd.mpr (fun hs => (hh hs).left) p hp, fun _ _ => by rw [ha]⟩
      rw [ht, TransferManager.complete_lookup]
      split
      case isFalse   => rfl
      case isTrue he =>
        subst he
        cases hr : s.daemon.transferMgr.transfers.lookup r'
        case none   => rfl
        case some t =>
          have hq := (hh hs).right hy t hr
          have hp : ¬t.peerId = p := fun he => hp <| he.symm.trans hq
          simp [Option.filter, hp]

-- A message leaves everything alone that belongs to other peers than its sender exactly when it is
-- harmless. Neither the sender nor the owner is ever looked at.
theorem message_isolated_iff [Crypto] (r : Reachable system s)
    (h : s.step (.handle env (.message q m)) = some s') :
    s.Spares s' q ↔ s.Harmless env q m := by
  have ⟨_, hd, hl⟩ := step_handle h
  have hh := handles hd hl
  have o := Owned.reachable r
  cases m
  case resourceList  => exact list_iff hh
  case resourceChunk => exact chunk_iff o hh
  case resourceEnd   => exact end_iff o hh
  case hello | helloProof | listResources | downloadResource =>
    exact iff_of_true (fun _ _ => .of_same <| Daemon.handleEvent_same hd id) trivial

theorem message_isolated_iff_host : requested.Spares (delivered host) host := by
  let _ := Crypto.transparent
  have hs : requested.step (.handle (.fine 0) (.message host delivery)) = some (delivered host) := rfl
  refine (message_isolated_iff requested_reachable hs).mpr fun _ => ?_
  refine ⟨.inr ⟨1, rfl⟩, fun t ht hp => absurd ?_ hp⟩
  have hh : (requested.daemon.transferMgr.transfers.lookup 1).map (·.peerId) = some host := by decide +kernel
  rw [ht] at hh
  exact Option.some.inj hh

-- The same chunk from somebody else goes into the download from `host`.
theorem delivery_not_isolated : Reachable (@system .transparent) requested ∧
    @step .transparent requested (.handle (.fine 0) (.message intruder delivery)) = some (delivered intruder) ∧
    ¬requested.Spares (delivered intruder) intruder := by
  refine ⟨requested_reachable, rfl, fun h => ?_⟩
  have := (h host (by decide)).downloads photo.id 1 rfl
  exact absurd this (by decide +kernel)

end Monitor
end Parsip
