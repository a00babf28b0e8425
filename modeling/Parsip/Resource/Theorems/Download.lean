import Mathlib.Logic.Function.Basic
import Parsip.Resource.Theorems.Paths
import Parsip.Resource.Theorems.Writer

namespace Parsip

namespace ActiveDownload

-- A download after `data` has been handed to its writer thread.
def receive (d : ActiveDownload) (data : Bytes) : ActiveDownload :=
  { d with
    receivedBytes := d.receivedBytes + .ofNat data.length
    writer        := { d.writer with queue := d.writer.queue ++ [some data] } }

-- Its writer thread after that has been asked for an end.
def ending (d : ActiveDownload) : Writer :=
  d.writer.send none |>.getD d.writer

theorem ending_file {d : ActiveDownload} : d.ending.file = d.writer.file := by
  simp only [ending, Writer.send]
  split <;> rfl

end ActiveDownload

namespace DownloadManager

open PosixPath

variable {m m' : DownloadManager} {s s' : Storage} {io : IoFaults} {info : ResourceInfo}
variable {id id' : ResourceId} {d : ActiveDownload} {data : Bytes} {e : Error} {r : Except Error Unit}

@[simp]
theorem put_lookup : (m.put d).downloads.lookup id =
    if id = d.info.id then some d else m.downloads.lookup id :=
  Table.lookup_insert

@[simp]
theorem take_lookup : (m.take id').downloads.lookup id =
    if id = id' then none else m.downloads.lookup id :=
  Table.lookup_erase

theorem put_cases {d' : ActiveDownload} (h : (m.put d).downloads.lookup id = some d') :
    id = d.info.id ∧ d' = d ∨ id ≠ d.info.id ∧ m.downloads.lookup id = some d' := by
  rw [put_lookup] at h
  split at h
  case isTrue hi  => exact .inl ⟨hi, (Option.some.inj h).symm⟩
  case isFalse hi => exact .inr ⟨hi, h⟩

theorem take_cases (h : (m.take id').downloads.lookup id = some d) :
    id ≠ id' ∧ m.downloads.lookup id = some d := by
  simpa using h

@[simp] theorem put_downloadsDir : (m.put d).downloadsDir = m.downloadsDir := rfl
@[simp] theorem take_downloadsDir : (m.take id).downloadsDir = m.downloadsDir := rfl
@[simp] theorem put_tempPath : (m.put d).tempPath id = m.tempPath id := rfl
@[simp] theorem take_tempPath : (m.take id').tempPath id = m.tempPath id := rfl
@[simp] theorem put_finalPath : (m.put d).finalPath info = m.finalPath info := rfl
@[simp] theorem take_finalPath : (m.take id).finalPath info = m.finalPath info := rfl

-- What `start_download` can do.
theorem startDownload_cases (h : m.startDownload s io info = (r, m', s')) :
    (∃ e, r = .error e ∧ m' = m ∧ s' = s ∧ (m.downloads.lookup info.id ≠ none ∨ io.openTemp = some e)) ∨
    (r = .ok () ∧ m.downloads.lookup info.id = none ∧
      ∃ disk file, s.disk.openTruncate (resolve <| m.tempPath info.id) = (disk, file) ∧
        m' = m.put ⟨info, 0, m.tempPath info.id, .new file⟩ ∧ s' = { s with disk }) := by
  simp only [startDownload] at h
  split at h
  case isTrue hc =>
    cases h
    have ⟨d, hd⟩ := Table.contains_eq_true.mp hc
    exact .inl ⟨_, rfl, rfl, rfl, .inl (by simp [hd])⟩
  case isFalse hc =>
    split at h <;> cases h
    case h_1 e he => exact .inl ⟨e, rfl, rfl, rfl, .inr he⟩
    case h_2 =>
      have hn := Table.contains_eq_false.mp <| Bool.not_eq_true _ ▸ hc
      exact .inr ⟨rfl, hn, _, _, rfl, rfl, rfl⟩

-- A chunk is accepted for as long as the download is there and its thread runs.
def Accepts (m : DownloadManager) (id : ResourceId) : Prop :=
  ∃ d, m.downloads.lookup id = some d ∧ d.writer.exit = none

theorem processChunk_cases {r : Except Error Bool} (h : m.processChunk id data = (r, m')) :
    (∃ e, r = .error e ∧ m' = m ∧ ¬m.Accepts id) ∨
    (∃ d b, r = .ok b ∧ m.downloads.lookup id = some d ∧ d.writer.exit = none ∧
      m' = m.put (d.receive data)) := by
  simp only [processChunk] at h
  split at h
  case h_2 hn =>
    cases h
    exact .inl ⟨_, rfl, rfl, fun ⟨d, hd, _⟩ => by simp [hn] at hd⟩
  case h_1 d hd =>
    cases hx : d.writer.exit <;> simp only [Writer.send, hx] at h <;> cases h
    case none      => exact .inr ⟨d, _, rfl, hd, hx, by simp [ActiveDownload.receive, hx]⟩
    case some.refl => exact .inl ⟨_, rfl, rfl, fun ⟨d', hd', hx'⟩ => by simp_all⟩

theorem processChunk_fst : (∃ e, (m.processChunk id data).fst = .error e ∧ ¬m.Accepts id) ∨
    ∃ b, (m.processChunk id data).fst = .ok b ∧ m.Accepts id := by
  obtain ⟨e, h, _, hn⟩ | ⟨d, b, h, hd, hx, _⟩ := processChunk_cases (rfl : m.processChunk id data = _)
  case inl => exact .inl ⟨e, h, hn⟩
  case inr => exact .inr ⟨b, h, d, hd, hx⟩

-- In every case a completed download is gone. The disk is as its thread has left it, or with the file
-- moved into place.
theorem completeDownload_cases (h : m.completeDownload s io id = (r, m', s')) :
    (m.downloads.lookup id = none ∧ (∃ e, r = .error e) ∧ m' = m ∧ s' = s) ∨
    ∃ d result disk, m.downloads.lookup id = some d ∧ m' = m.take id ∧
      d.ending.join s.disk io.writes = (result, disk) ∧ s'.detached = s.detached ∧
      ((∃ e, r = .error e ∧ (result = .ok () → io.rename = some e ∨
          disk.rename (resolve d.tempPath) (resolve <| m.finalPath d.info) = none)) ∧ s'.disk = disk ∨
        r = .ok () ∧ result = .ok () ∧ io.rename = none ∧
          disk.rename (resolve d.tempPath) (resolve <| m.finalPath d.info) = some s'.disk) := by
  simp only [completeDownload] at h
  split at h
  case h_2 hn => cases h; exact .inl ⟨hn, ⟨_, rfl⟩, rfl, rfl⟩
  case h_1 d hd =>
    split at h
    case h_1 e disk hj => cases h; exact .inr ⟨d, _, _, hd, rfl, hj, rfl, .inl ⟨⟨e, rfl, nofun⟩, rfl⟩⟩
    case h_2 disk hj =>
      split at h <;> cases h
      case h_1 hn hr => exact .inr ⟨d, _, _, hd, rfl, hj, rfl, .inr ⟨rfl, rfl, hn, hr⟩⟩
      case h_2 e he  => exact .inr ⟨d, _, _, hd, rfl, hj, rfl, .inl ⟨⟨e, rfl, fun _ => .inl he⟩, rfl⟩⟩
      case h_3 hr    => exact .inr ⟨d, _, _, hd, rfl, hj, rfl, .inl ⟨⟨_, rfl, fun _ => .inr hr⟩, rfl⟩⟩

-- The thread of an active download comes to a good end and its file can be moved.
def Completes (m : DownloadManager) (s : Storage) (io : IoFaults) (id : ResourceId) : Prop :=
  ∃ d disk, m.downloads.lookup id = some d ∧ d.ending.join s.disk io.writes = (.ok (), disk) ∧
    io.rename = none ∧ ∃ i, s.disk.dir.lookup (resolve d.tempPath) = some i

theorem join_touches {w : Writer} {fs fs' : Disk} {faults : Nat → WriteFaults}
    (h : w.join fs faults = (r, fs')) : fs'.dir = fs.dir ∧ fs'.next = fs.next ∧
      ∀ {i}, i ≠ w.file.inode → fs'.content i = fs.content i := by
  cases h
  have t := @Writer.turns_touches w fs w.queue.length faults
  exact ⟨t.dir, t.next, t.content⟩

theorem completes_iff (h : m.completeDownload s io id = (r, m', s')) : m.Completes s io id ↔ r = .ok () := by
  obtain ⟨hn, ⟨e, rfl⟩, _⟩ | ⟨d, result, disk, hd, _, hj, _, hr⟩ := completeDownload_cases h
  case inl => exact iff_of_false (fun ⟨d, _, hd, _⟩ => by simp [hn] at hd) nofun
  case inr =>
    have ⟨jd, _⟩ := join_touches hj
    obtain ⟨⟨e, rfl, hf⟩, _⟩ | ⟨rfl, rfl, hn, hr⟩ := hr
    case inl =>
      refine iff_of_false (fun ⟨d', disk', hd', hj', hn, i, hi⟩ => ?_) nofun
      cases hd.symm.trans hd'
      cases hj.symm.trans hj'
      obtain hf | hf := hf rfl
      case inl => rw [hn] at hf; contradiction
      case inr =>
        have ⟨_, hs⟩ : ∃ fs', disk.rename _ (resolve <| m.finalPath d.info) = some fs' :=
          FileSystem.rename_of_lookup (jd ▸ hi)
        rw [hf] at hs
        contradiction
    case inr =>
      have ⟨i, hi, _⟩ := FileSystem.rename_cases hr
      exact iff_of_true ⟨d, disk, hd, hj, hn, i, jd ▸ hi⟩ rfl

theorem cancelDownload_cases (h : m.cancelDownload s io id = (r, m', s')) :
    (m.downloads.lookup id = none ∧ m' = m ∧ s' = s) ∨
    ∃ d, m.downloads.lookup id = some d ∧ m' = m.take id ∧
      s'.detached = s.detached ++ [{ d.writer with connected := false }] ∧
      (io.remove d.tempPath = none ∧ s'.disk = s.disk.unlink (resolve d.tempPath) ∨
        io.remove d.tempPath ≠ none ∧ s'.disk = s.disk) := by
  simp only [cancelDownload] at h
  split at h <;> cases h
  case h_2 hn => exact .inl ⟨hn, rfl, rfl⟩
  case h_1 d hd =>
    refine .inr ⟨d, hd, rfl, rfl, ?_⟩
    cases hr : io.remove d.tempPath
    case none => exact .inl ⟨rfl, rfl⟩
    case some => exact .inr ⟨nofun, rfl⟩

theorem completeDownload_lookup (h : m.completeDownload s io id' = (r, m', s')) :
    m'.downloads.lookup id = if id = id' then none else m.downloads.lookup id := by
  obtain ⟨hn, _, rfl, _⟩ | ⟨_, _, _, _, rfl, _⟩ := completeDownload_cases h
  case inr => exact take_lookup
  case inl =>
    split
    case isTrue hi => rw [hi, hn]
    case isFalse   => rfl

theorem cancelDownload_lookup (h : m.cancelDownload s io id' = (r, m', s')) :
    m'.downloads.lookup id = if id = id' then none else m.downloads.lookup id := by
  obtain ⟨hn, rfl, _⟩ | ⟨_, _, rfl, _⟩ := cancelDownload_cases h
  case inr => exact take_lookup
  case inl =>
    split
    case isTrue hi => rw [hi, hn]
    case isFalse   => rfl

-- Every download has the file at its temporary path to itself, also among the threads that nobody will
-- join, and `accepted` is what its thread has been sent, unless the thread has failed.
structure Holds (m : DownloadManager) (s : Storage) (accepted : ResourceId → Bytes) : Prop where
  temp     : ∀ {id d}, m.downloads.lookup id = some d → d.tempPath = m.tempPath id
  named    : ∀ {id d}, m.downloads.lookup id = some d →
    s.disk.dir.lookup (resolve <| m.tempPath id) = some d.writer.file.inode
  detached : ∀ {w}, w ∈ s.detached → w.exit = none → w.file.inode < s.disk.next ∧
    ∀ {id d}, m.downloads.lookup id = some d → d.writer.file.inode ≠ w.file.inode
  written  : ∀ {id d}, m.downloads.lookup id = some d →
    d.writer.Receives s.disk (accepted id) ∨ ∃ e, d.writer.exit = some (.error e)

namespace Holds

variable {accepted : ResourceId → Bytes} {d' : ActiveDownload} {w w' : Writer} {disk : Disk}

theorem inode_inj (o : m.Holds s accepted) (h : m.downloads.lookup id = some d)
    (h' : m.downloads.lookup id' = some d') (he : d.writer.file.inode = d'.writer.file.inode) : id = id' :=
  tempPath_injective <| s.disk.single (o.named h) (he ▸ o.named h')

-- A file that is opened for a new download belongs to nobody else.
theorem opened_ne {i : Inode} (hi : i < s.disk.next)
    (hp : s.disk.dir.lookup (resolve <| m.tempPath id) ≠ some i) :
    i ≠ (s.disk.openTruncate (resolve <| m.tempPath id)).snd.inode := by
  intro he
  obtain h | h := s.disk.openTruncate_inode (p := resolve <| m.tempPath id)
  case inl => exact Nat.lt_irrefl _ <| h ▸ he ▸ hi
  case inr => exact hp <| he ▸ h

-- No thread that nobody will join may still be writing to the file.
theorem start (o : m.Holds s accepted) (h : m.startDownload s io info = (.ok (), m', s'))
    (hw : ∀ {w}, w ∈ s.detached → w.exit = none →
      s.disk.dir.lookup (resolve <| m.tempPath info.id) ≠ some w.file.inode) :
    m'.Holds s' (Function.update accepted info.id []) := by
  obtain ⟨_, h, _⟩ | ⟨_, hn, disk, file, ho, rfl, rfl⟩ := startDownload_cases h
  case inl => contradiction
  case inr =>
    obtain ⟨rfl, rfl⟩ := Prod.ext_iff.mp ho
    have other {id d} (h : m.downloads.lookup id = some d) (hi : id ≠ info.id) :=
      opened_ne (s.disk.fresh <| o.named h) fun hp =>
        hi <| tempPath_injective <| s.disk.single (o.named h) hp
    constructor
    case temp =>
      intro id d h
      obtain ⟨rfl, rfl⟩ | ⟨_, h⟩ := put_cases h
      case inl => rfl
      case inr => exact o.temp h
    case named =>
      intro id d h
      rw [put_tempPath, FileSystem.openTruncate_lookup]
      obtain ⟨rfl, rfl⟩ | ⟨hi, h⟩ := put_cases h
      case inl => exact if_pos rfl
      case inr => rw [if_neg fun he => hi <| tempPath_injective he, o.named h]
    case detached =>
      intro w h hx
      have ⟨hn, ho⟩ := o.detached h hx
      refine ⟨Nat.lt_of_lt_of_le hn FileSystem.openTruncate_next, fun {id d} hd => ?_⟩
      obtain ⟨rfl, rfl⟩ | ⟨_, hd⟩ := put_cases hd
      case inl => exact (opened_ne hn <| hw h hx).symm
      case inr => exact ho hd
    case written =>
      intro id d h
      obtain ⟨rfl, rfl⟩ | ⟨hi, h⟩ := put_cases h
      case inl =>
        rw [Function.update_self]
        exact .inl <| .new FileSystem.openTruncate_atEnd FileSystem.openTruncate_content
      case inr =>
        rw [Function.update_of_ne hi]
        exact (o.written h).imp_left (·.frame <| FileSystem.openTruncate_content_of_ne <| other h hi)

-- A download goes on with the same file.
theorem put (o : m.Holds s accepted) (d' : ActiveDownload) (s' : Storage)
    (h : m.downloads.lookup id = some d) (hi : d'.info.id = id)
    (ht : d'.tempPath = d.tempPath) (hf : d'.writer.file.inode = d.writer.file.inode)
    (hd : s'.disk.dir = s.disk.dir) (hn : s'.disk.next = s.disk.next) (hl : s'.detached = s.detached)
    (hc : ∀ {i}, i ≠ d.writer.file.inode → s'.disk.content i = s.disk.content i) {bs : Bytes}
    (hw : d'.writer.Receives s'.disk bs ∨ ∃ e, d'.writer.exit = some (.error e)) :
    (m.put d').Holds s' (Function.update accepted id bs) := by
  subst hi
  constructor
  case temp =>
    intro id d h'
    obtain ⟨rfl, rfl⟩ | ⟨_, h'⟩ := put_cases h'
    case inl => exact ht.trans <| o.temp h
    case inr => exact o.temp h'
  case named =>
    intro id d h'
    rw [put_tempPath, hd]
    obtain ⟨rfl, rfl⟩ | ⟨_, h'⟩ := put_cases h'
    case inl => exact hf ▸ o.named h
    case inr => exact o.named h'
  case detached =>
    intro w hw hx
    have ⟨hi, ho⟩ := o.detached (hl ▸ hw) hx
    refine ⟨hn ▸ hi, fun {id d} h' => ?_⟩
    obtain ⟨rfl, rfl⟩ | ⟨_, h'⟩ := put_cases h'
    case inl => exact hf ▸ ho h
    case inr => exact ho h'
  case written =>
    intro id d h'
    obtain ⟨rfl, rfl⟩ | ⟨hi, h'⟩ := put_cases h'
    case inl => rw [Function.update_self]; exact hw
    case inr =>
      rw [Function.update_of_ne hi]
      exact (o.written h').imp_left (·.frame <| hc fun he => hi <| o.inode_inj h' h he)

theorem chunk (o : m.Holds s accepted) (hd : m.downloads.lookup id = some d) (hx : d.writer.exit = none) :
    (m.put (d.receive data)).Holds s (Function.update accepted id (accepted id ++ data)) := by
  have hk := m.keyed hd
  refine o.put (d.receive data) s hd hk rfl rfl rfl rfl rfl (fun _ => rfl) ?_
  obtain r | ⟨e, he⟩ := o.written hd
  case inl => exact .inl r.send.right
  case inr => rw [hx] at he; contradiction

-- A turn of a download's thread.
theorem turn {faults : WriteFaults} (o : m.Holds s accepted) (hd : m.downloads.lookup id = some d)
    (h : d.writer.turn s.disk faults = some (w, disk)) :
    (m.put { d with writer := w }).Holds { s with disk } accepted := by
  have t := Writer.turn_touches h
  rw [← Function.update_eq_self id accepted]
  have hk := m.keyed hd
  refine o.put { d with writer := w } { s with disk } hd hk rfl t.inode t.dir t.next rfl t.content ?_
  obtain r | ⟨e, he⟩ := o.written hd
  case inl => exact (r.turn h).imp_right And.right
  case inr =>
    have := (Writer.turn_cases h).right.left
    rw [he] at this
    contradiction

-- A turn of a thread that nobody will join.
theorem turn_detached {faults : WriteFaults} {i : Nat} (o : m.Holds s accepted)
    (hw : s.detached[i]? = some w) (h : w.turn s.disk faults = some (w', disk)) :
    m.Holds { disk, detached := s.detached.set i w' } accepted := by
  have ⟨t, hr, _⟩ := Writer.turn_cases h
  have hm := List.mem_of_getElem? hw
  constructor
  case temp     => exact o.temp
  case named    => intro id d h; exact t.dir ▸ o.named h
  case detached =>
    intro v hv hx
    obtain hv | rfl := List.mem_or_eq_of_mem_set hv
    case inl => exact t.next ▸ o.detached hv hx
    case inr => exact t.inode ▸ t.next ▸ o.detached hm hr
  case written =>
    intro id d h
    exact (o.written h).imp_left (·.frame <| t.content <| (o.detached hm hr).right h)

-- A download leaves, and the disk keeps the files and the names of the others.
theorem take (o : m.Holds s accepted) (s' : Storage) (h : m.downloads.lookup id = some d)
    (hn : s'.disk.next = s.disk.next)
    (hd : ∀ {id' d'}, id' ≠ id → m.downloads.lookup id' = some d' →
      s'.disk.dir.lookup (resolve <| m.tempPath id') = some d'.writer.file.inode)
    (hl : ∀ {w}, w ∈ s'.detached → w ∈ s.detached ∨ w.file = d.writer.file)
    (hc : ∀ {i}, i ≠ d.writer.file.inode → s'.disk.content i = s.disk.content i) :
    (m.take id).Holds s' accepted where
  temp h'     := o.temp (take_cases h').right
  named h'    := hd (take_cases h').left (take_cases h').right
  detached hw hx := by
    obtain hw | he := hl hw
    case inl => exact ⟨hn ▸ (o.detached hw hx).left, fun h' => (o.detached hw hx).right (take_cases h').right⟩
    case inr =>
      refine ⟨hn ▸ he ▸ s.disk.fresh (o.named h), fun h' he' => ?_⟩
      have ⟨hi, h'⟩ := take_cases h'
      exact hi <| o.inode_inj h' h (he ▸ he')
  written h'  := by
    have ⟨hi, h'⟩ := take_cases h'
    exact (o.written h').imp_left (·.frame <| hc fun he => hi <| o.inode_inj h' h he)

-- A completed download leaves its accepted bytes at the final path, if it leaves them there at all.
theorem complete (o : m.Holds s accepted) (h : m.completeDownload s io id = (r, m', s'))
    (hf : m.Completes s io id → ∀ {d id' d'}, m.downloads.lookup id = some d → id' ≠ id →
      m.downloads.lookup id' = some d' → resolve (m.finalPath d.info) ≠ resolve (m.tempPath id')) :
    m'.Holds s' accepted ∧ (r = .ok () → ∃ d, m.downloads.lookup id = some d ∧
      s'.disk.read (resolve <| m.finalPath d.info) = some (accepted id)) := by
  have hk := completes_iff h
  obtain ⟨hn, ⟨e, rfl⟩, rfl, rfl⟩ | ⟨d, result, disk, hd, rfl, hj, hl, hr⟩ := completeDownload_cases h
  case inl => exact ⟨o, nofun⟩
  case inr =>
    have ⟨jd, jn, jc⟩ := join_touches hj
    rw [ActiveDownload.ending_file] at jc
    have hi : s.disk.dir.lookup (resolve d.tempPath) = some d.writer.file.inode := o.temp hd ▸ o.named hd
    obtain ⟨⟨e, rfl, _⟩, hs⟩ | ⟨rfl, rfl, _, hr⟩ := hr
    case inl =>
      refine ⟨o.take s' hd (hs ▸ jn) (fun _ h' => ?_) (fun hw => .inl <| hl ▸ hw) fun h' => hs ▸ jc h', nofun⟩
      rw [hs, jd]
      exact o.named h'
    case inr =>
      have ⟨i, hi', rc, rn, rl⟩ := FileSystem.rename_cases hr
      rw [jd, hi, Option.some.injEq] at hi'
      subst hi'
      refine ⟨o.take s' hd (rn.trans jn) (fun {id' d'} hne h' => ?_) (fun hw => .inl <| hl ▸ hw) fun h' => rc ▸ jc h',
        fun _ => ⟨d, hd, ?_⟩⟩
      case refine_1 =>
        have ht : resolve (m.tempPath id') ≠ resolve d.tempPath :=
          fun he => hne <| tempPath_injective <| he.trans <| o.temp hd ▸ rfl
        rw [rl, if_neg (hf (hk.mpr rfl) hd hne h').symm, if_neg ht, jd]
        exact o.named h'
      case refine_2 =>
        rw [FileSystem.rename_read hr, FileSystem.read, jd, hi, Option.map_some]
        obtain rc | ⟨e, he⟩ := o.written hd
        case inl =>
          have hs : d.writer.send none = some d.ending := by simp [ActiveDownload.ending, Writer.send, rc.running]
          exact congrArg some <| (rc.join hs hj).left rfl
        case inr =>
          -- A thread that has failed does not come to a good end.
          simp [ActiveDownload.ending, Writer.send, he, Writer.join, Writer.turns_of_exit he] at hj

-- Without a fault a download whose thread has not come to its end completes.
theorem completes (o : m.Holds s accepted) (hd : m.downloads.lookup id = some d) (hx : d.writer.exit = none) :
    m.Completes s .none id := by
  obtain r | ⟨e, he⟩ := o.written hd
  case inr => rw [hx] at he; contradiction
  case inl =>
    have hs : d.writer.send none = some d.ending := by simp [ActiveDownload.ending, Writer.send, hx]
    cases hj : d.ending.join s.disk IoFaults.none.writes
    case mk result disk =>
      obtain rfl := (r.join hs hj).right fun _ => rfl
      exact ⟨d, disk, hd, hj, rfl, _, o.temp hd ▸ o.named hd⟩

theorem cancel (o : m.Holds s accepted) (h : m.cancelDownload s io id = (r, m', s')) : m'.Holds s' accepted := by
  obtain ⟨_, rfl, rfl⟩ | ⟨d, hd, rfl, hl, hs⟩ := cancelDownload_cases h
  case inl => exact o
  case inr =>
    have hw {w} (hw : w ∈ s'.detached) : w ∈ s.detached ∨ w.file = d.writer.file := by
      rw [hl, List.mem_append, List.mem_singleton] at hw
      exact hw.imp_right fun he => by rw [he]
    obtain ⟨_, hs⟩ | ⟨_, hs⟩ := hs
    case inr => exact o.take s' hd (by rw [hs]) (fun _ h' => hs ▸ o.named h') hw fun _ => by rw [hs]
    case inl =>
      refine o.take s' hd (by rw [hs]; rfl) (fun {id' d'} hne h' => ?_) hw fun _ => by rw [hs]; rfl
      rw [hs, FileSystem.unlink_lookup, if_neg, o.named h']
      exact fun he => hne <| tempPath_injective <| he.trans <| o.temp hd ▸ rfl

end Holds
end DownloadManager
end Parsip
