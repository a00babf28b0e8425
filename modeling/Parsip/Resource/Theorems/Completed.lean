import Parsip.Resource.Theorems.Calls

-- What becomes of completed downloads while others go on.

namespace Parsip

open PosixPath Transition

namespace Writer

variable {w w' : Writer} {fs fs' : Disk} {faults : WriteFaults}

-- A thread that still has something to write.
def Writing (w : Writer) : Prop :=
  w.exit = none ∧ (w.buffer ≠ [] ∨ payload w.queue ≠ [])

-- The others come to their end without touching the disk.
theorem turn_idle (h : w.turn fs faults = some (w', fs')) (hw : ¬w.Writing) : fs' = fs ∧ ¬w'.Writing := by
  have hx := (turn_cases h).right.left
  simp only [Writing, hx, true_and, not_or, not_not, ne_eq] at hw
  obtain ⟨hb, hq⟩ := hw
  simp only [turn, hx] at h
  split at h
  case h_1 => contradiction
  case h_2 data queue _ hq' =>
    simp only [hq', payload, List.flatMap_cons, Option.getD_some, List.append_eq_nil_iff] at hq
    have hs : 0 + 0 < capacity := by decide
    simp only [writeAll, hb, hq.left, List.length_nil, hs, if_true, Option.some.injEq, Prod.mk.injEq] at h
    obtain ⟨rfl, rfl⟩ := h
    exact ⟨rfl, by simp [Writing, payload, hq.right]⟩
  case h_3 =>
    simp only [flush, hb, if_true, leave, Option.some.injEq, Prod.mk.injEq] at h
    obtain ⟨rfl, rfl⟩ := h
    exact ⟨rfl, by simp [Writing]⟩
  case h_4 =>
    split at h
    case isTrue => contradiction
    case isFalse =>
      simp only [leave, flush, hb, if_true, Option.some.injEq, Prod.mk.injEq] at h
      obtain ⟨rfl, rfl⟩ := h
      exact ⟨rfl, by simp [Writing]⟩

end Writer

namespace Calls

open Write

variable {s s' : Calls} {move : Move} {id id' : ResourceId} {d : ActiveDownload} {io : IoFaults}
variable {result : Except Error Unit}

-- A completed download is in the downloads directory with all that has been accepted for it, and no two
-- are in one place.
structure Kept (s : Calls) : Prop where
  stored   : ∀ {id p c}, s.finished id = some (p, c) →
    (∃ name, p = (resolve s.manager.downloadsDir).child name) ∧ s.storage.disk.read p = some c
  distinct : ∀ {id id' p c c'}, s.finished id = some (p, c) → s.finished id' = some (p, c') → id = id'

-- The call that is waiting leaves the temporary files of the other downloads as they are.
def Spares (s : Calls) (io : IoFaults) : Prop :=
  ∀ {result s'}, s.finish io = some (result, s') → ∀ {id d}, s.waiting ≠ some id →
    s.manager.downloads.lookup id = some d →
      s'.storage.disk.dir.lookup (resolve d.tempPath) = s.storage.disk.dir.lookup (resolve d.tempPath) ∧
      s'.storage.disk.read (resolve d.tempPath) = s.storage.disk.read (resolve d.tempPath)

-- A download that starts opens neither the file of a completed one nor one that the thread of a cancelled
-- one still has something to write to. One that completes moves to a place in the downloads directory
-- that is not that of another completed or active one.
def Careful (s : Calls) : Move → Prop
  | .start info io =>
    s.manager.downloads.lookup info.id = none → io.openTemp = none →
      (∀ {id p c}, s.finished id = some (p, c) → p ≠ resolve (s.manager.tempPath info.id)) ∧
      ∀ w ∈ s.storage.detached, w.Writing →
        s.storage.disk.dir.lookup (resolve <| s.manager.tempPath info.id) ≠ some w.file.inode
  | .finish io     =>
    ∀ {id d}, s.waiting = some id → s.manager.downloads.lookup id = some d → d.writer.exit = some (.ok ()) →
      io.rename = none →
        DirectlyInside s.manager.downloadsDir (s.manager.finalPath d.info) ∧
        (∀ {id' p c}, id' ≠ id → s.finished id' = some (p, c) → p ≠ resolve (s.manager.finalPath d.info)) ∧
        ∀ {id' d'}, id' ≠ id → s.manager.downloads.lookup id' = some d' →
          resolve (s.manager.finalPath d.info) ≠ resolve d'.tempPath
  | _              => True

-- Every active download has the file at its temporary path to itself, and in it is what has gone through
-- its handle.
structure Apart (s : Calls) : Prop where
  temp     : ∀ {id d}, s.manager.downloads.lookup id = some d → d.tempPath = s.manager.tempPath id
  named    : ∀ {id d}, s.manager.downloads.lookup id = some d →
    s.storage.disk.dir.lookup (resolve <| s.manager.tempPath id) = some d.writer.file.inode
  whole    : ∀ {id d}, s.manager.downloads.lookup id = some d → s.storage.disk.AtEnd d.writer.file ∧
    s.storage.disk.content d.writer.file.inode = written (s.writes id)
  detached : ∀ {w}, w ∈ s.storage.detached → w.Writing → w.file.inode < s.storage.disk.next ∧
    (∀ {id d}, s.manager.downloads.lookup id = some d → d.writer.file.inode ≠ w.file.inode) ∧
    ∀ {id p c}, s.finished id = some (p, c) → s.storage.disk.dir.lookup p ≠ some w.file.inode
  kept     : s.Kept
  moved    : ∀ {id p c id' d}, s.finished id = some (p, c) → s.manager.downloads.lookup id' = some d →
    p ≠ resolve (s.manager.tempPath id')

namespace Apart

theorem new {downloadsDir : PosixPath.Path} {disk : Disk} : (new downloadsDir disk).Apart where
  temp h     := by simp [Calls.new, DownloadManager.new] at h
  named h    := by simp [Calls.new, DownloadManager.new] at h
  whole h    := by simp [Calls.new, DownloadManager.new] at h
  detached h := by simp [Calls.new] at h
  kept       := ⟨fun h => by simp [Calls.new] at h, fun h => by simp [Calls.new] at h⟩
  moved h    := by simp [Calls.new] at h

theorem inode_inj {d' : ActiveDownload} (a : s.Apart) (h : s.manager.downloads.lookup id = some d)
    (h' : s.manager.downloads.lookup id' = some d') (he : d.writer.file.inode = d'.writer.file.inode) : id = id' :=
  DownloadManager.tempPath_injective <| s.storage.disk.single (a.named h) (he ▸ a.named h')

-- No download writes to a completed file.
theorem finished_ne {p : Place} {c : Bytes} {i : Inode} (a : s.Apart) (h : s.manager.downloads.lookup id = some d)
    (hf : s.finished id' = some (p, c)) (hi : s.storage.disk.dir.lookup p = some i) : i ≠ d.writer.file.inode := by
  rintro rfl
  exact a.moved hf h <| s.storage.disk.single hi (a.named h)

theorem read_finished {p : Place} {c : Bytes} (a : s.Apart) (hf : s.finished id = some (p, c)) :
    ∃ i, s.storage.disk.dir.lookup p = some i ∧ s.storage.disk.content i = c :=
  Option.map_eq_some_iff.mp (a.kept.stored hf).right

-- Completed files stay when their names do and nothing is written to them.
theorem kept_frame (a : s.Apart) (hm : s'.manager.downloadsDir = s.manager.downloadsDir)
    (hs : s'.finished = s.finished)
    (hd : ∀ {id p c i}, s.finished id = some (p, c) → s.storage.disk.dir.lookup p = some i →
      s'.storage.disk.dir.lookup p = some i ∧ s'.storage.disk.content i = s.storage.disk.content i) : s'.Kept where
  stored h := by
    rw [hs] at h
    have ⟨i, hi, hc⟩ := a.read_finished h
    have ⟨hi', hc'⟩ := hd h hi
    rw [hm, FileSystem.read, hi', Option.map_some, hc', hc]
    exact ⟨(a.kept.stored h).left, rfl⟩
  distinct h h' := a.kept.distinct (hs ▸ h) (hs ▸ h')

-- A download goes on with the same file.
theorem put (a : s.Apart) (d' : ActiveDownload) (h : s.manager.downloads.lookup id = some d) (hi : d'.info.id = id)
    (ht : d'.tempPath = d.tempPath) (hf : d'.writer.file.inode = d.writer.file.inode)
    (hm : s'.manager = s.manager.put d') (hd : s'.storage.disk.dir = s.storage.disk.dir)
    (hn : s'.storage.disk.next = s.storage.disk.next) (hl : s'.storage.detached = s.storage.detached)
    (hs : s'.finished = s.finished)
    (hc : ∀ {i}, i ≠ d.writer.file.inode → s'.storage.disk.content i = s.storage.disk.content i)
    (hw : s'.storage.disk.AtEnd d'.writer.file ∧ s'.storage.disk.content d.writer.file.inode = written (s'.writes id))
    (ho : ∀ {id'}, id' ≠ id → s'.writes id' = s.writes id') : s'.Apart := by
  subst hi
  constructor
  case temp =>
    intro id d h'
    rw [hm] at h' ⊢
    obtain ⟨rfl, rfl⟩ | ⟨_, h'⟩ := DownloadManager.put_cases h'
    case inl => exact ht.trans (a.temp h)
    case inr => exact a.temp h'
  case named =>
    intro id d h'
    rw [hd, hm]
    rw [hm] at h'
    obtain ⟨rfl, rfl⟩ | ⟨_, h'⟩ := DownloadManager.put_cases h'
    case inl => exact hf ▸ a.named h
    case inr => exact a.named h'
  case whole =>
    intro id d h'
    rw [hm] at h'
    obtain ⟨rfl, rfl⟩ | ⟨hne, h'⟩ := DownloadManager.put_cases h'
    case inl => exact ⟨hw.left, hf ▸ hw.right⟩
    case inr =>
      have hi := hc fun he => hne <| a.inode_inj h' h he
      rw [FileSystem.AtEnd, hi, ho hne]
      exact a.whole h'
  case detached =>
    intro w hw hx
    obtain ⟨hi, hp, hq⟩ := a.detached (hl ▸ hw) hx
    refine ⟨hn ▸ hi, fun {id d} h' => ?_, fun h' => hd ▸ hq (hs ▸ h')⟩
    rw [hm] at h'
    obtain ⟨rfl, rfl⟩ | ⟨_, h'⟩ := DownloadManager.put_cases h'
    case inl => exact hf ▸ hp h
    case inr => exact hp h'
  case kept =>
    refine a.kept_frame (by rw [hm]; rfl) hs fun h' hi => ⟨hd ▸ hi, hc ?_⟩
    exact a.finished_ne h h' hi
  case moved =>
    intro id p c id' d hs' h'
    rw [hm] at h' ⊢
    rw [hs] at hs'
    obtain ⟨rfl, rfl⟩ | ⟨_, h'⟩ := DownloadManager.put_cases h'
    case inl => exact a.moved hs' h
    case inr => exact a.moved hs' h'

-- A download leaves, and the disk keeps the files and the names of the others and of the completed ones.
theorem take (a : s.Apart) (h : s.manager.downloads.lookup id = some d) (hm : s'.manager = s.manager.take id)
    (hn : s'.storage.disk.next = s.storage.disk.next) (hc : s'.storage.disk.content = s.storage.disk.content)
    (hd : ∀ {p}, p ≠ resolve (s.manager.tempPath id) → s'.storage.disk.dir.lookup p = s.storage.disk.dir.lookup p)
    (hl : ∀ {w}, w ∈ s'.storage.detached → w ∈ s.storage.detached ∨ w.file = d.writer.file)
    (hs : s'.finished = s.finished) (hw : s'.writes = s.writes) : s'.Apart where
  temp h' := by
    rw [hm] at h' ⊢
    exact a.temp (DownloadManager.take_cases h').right
  named {id' d'} h' := by
    rw [hm] at h' ⊢
    obtain ⟨hne, h'⟩ := DownloadManager.take_cases h'
    rw [DownloadManager.take_tempPath, hd fun he => hne <| DownloadManager.tempPath_injective he]
    exact a.named h'
  whole h' := by
    rw [hm] at h'
    rw [FileSystem.AtEnd, hc, hw]
    exact a.whole (DownloadManager.take_cases h').right
  detached {w} hw hx := by
    rw [hm, hs, hn]
    obtain hw | he := hl hw
    case inl =>
      obtain ⟨hi, hp, hq⟩ := a.detached hw hx
      refine ⟨hi, fun h' => hp (DownloadManager.take_cases h').right, fun {id p c} h' => ?_⟩
      rw [hd (a.moved h' h)]
      exact hq h'
    case inr =>
      rw [he]
      refine ⟨s.storage.disk.fresh (a.named h), fun {id d'} h' he' => ?_, fun {id p c} h' hi => ?_⟩
      case refine_1 =>
        obtain ⟨hne, h'⟩ := DownloadManager.take_cases h'
        exact hne <| a.inode_inj h' h he'
      case refine_2 =>
        rw [hd (a.moved h' h)] at hi
        exact a.finished_ne h h' hi rfl
  kept := by
    refine a.kept_frame (by rw [hm]; rfl) hs fun h' hi => ⟨?_, by rw [hc]⟩
    rw [hd (a.moved h' h), hi]
  moved h' hd' := by
    rw [hm] at hd' ⊢
    rw [hs] at h'
    exact a.moved h' (DownloadManager.take_cases hd').right

theorem start {info : ResourceInfo} (a : s.Apart) (hc : s.Careful (.start info io))
    (h : s.manager.startDownload s.storage io info = (result, s'.manager, s'.storage)) (hi : io.openTemp = none)
    (hn : s.manager.downloads.lookup info.id = none) (hs : s'.finished = s.finished)
    (hw : s'.writes = Function.update s.writes info.id []) : s'.Apart := by
  obtain ⟨hf, hq⟩ := hc hn hi
  obtain ⟨e, _, _, _, he⟩ | ⟨_, _, disk, file, ho, hm, hst⟩ := DownloadManager.startDownload_cases h
  case inl => simp [hn, hi] at he
  case inr =>
    obtain ⟨rfl, rfl⟩ := Prod.ext_iff.mp ho
    have other {i} (h : i < s.storage.disk.next)
        (hp : s.storage.disk.dir.lookup (resolve <| s.manager.tempPath info.id) ≠ some i) :=
      FileSystem.openTruncate_content_of_ne <| DownloadManager.Holds.opened_ne h hp
    have active {id d} (hne : id ≠ info.id) (h : s.manager.downloads.lookup id = some d) :=
      other (s.storage.disk.fresh <| a.named h) fun hp =>
        hne <| DownloadManager.tempPath_injective <| s.storage.disk.single (a.named h) hp
    constructor
    case temp =>
      intro id d h
      rw [hm] at h ⊢
      obtain ⟨rfl, rfl⟩ | ⟨_, h⟩ := DownloadManager.put_cases h
      case inl => rfl
      case inr => exact a.temp h
    case named =>
      intro id d h
      rw [hst, hm, DownloadManager.put_tempPath, FileSystem.openTruncate_lookup]
      rw [hm] at h
      obtain ⟨rfl, rfl⟩ | ⟨hne, h⟩ := DownloadManager.put_cases h
      case inl => exact if_pos rfl
      case inr => rw [if_neg fun he => hne <| DownloadManager.tempPath_injective he, a.named h]
    case whole =>
      intro id d h
      rw [hm] at h
      rw [hst, hw]
      obtain ⟨rfl, rfl⟩ | ⟨hne, h⟩ := DownloadManager.put_cases h
      case inl =>
        rw [Function.update_self]
        exact ⟨FileSystem.openTruncate_atEnd, FileSystem.openTruncate_content⟩
      case inr =>
        rw [Function.update_of_ne hne, FileSystem.AtEnd, active hne h]
        exact a.whole h
    case detached =>
      intro w h hx
      rw [hst] at h ⊢
      obtain ⟨hi, hp, hf'⟩ := a.detached h hx
      refine ⟨Nat.lt_of_lt_of_le hi FileSystem.openTruncate_next, fun {id d} hd => ?_, fun {id p c} h' => ?_⟩
      case refine_1 =>
        rw [hm] at hd
        obtain ⟨rfl, rfl⟩ | ⟨_, hd⟩ := DownloadManager.put_cases hd
        case inl => exact (DownloadManager.Holds.opened_ne hi <| hq w h hx).symm
        case inr => exact hp hd
      case refine_2 =>
        rw [hs] at h'
        rw [FileSystem.openTruncate_lookup, if_neg (hf h')]
        exact hf' h'
    case kept =>
      refine a.kept_frame (by rw [hm]; rfl) hs fun {id p c i} h' hi => ?_
      rw [hst, FileSystem.openTruncate_lookup, if_neg (hf h')]
      exact ⟨hi, other (s.storage.disk.fresh hi) fun hp => hf h' <| s.storage.disk.single hi hp⟩
    case moved =>
      intro id p c id' d h' hd
      rw [hs] at h'
      rw [hm] at hd ⊢
      obtain ⟨rfl, rfl⟩ | ⟨_, hd⟩ := DownloadManager.put_cases hd
      case inl => exact hf h'
      case inr => exact a.moved h' hd

-- The file of a download moves to its place.
theorem complete {disk : Disk} (a : s.Apart) (ac : s.Accounted) (hc : s.Careful (.finish io))
    (hw : s.waiting = some id) (h : s.manager.downloads.lookup id = some d) (hx : d.writer.exit = some (.ok ()))
    (hio : io.rename = none)
    (hr : s.storage.disk.rename (resolve d.tempPath) (resolve <| s.manager.finalPath d.info) = some disk)
    (hm : s'.manager = s.manager.take id) (hst : s'.storage = { s.storage with disk }) (hws : s'.writes = s.writes)
    (hs : s'.finished = Function.update s.finished id (some (resolve <| s.manager.finalPath d.info, s.accepted id))) :
    s'.Apart := by
  obtain ⟨⟨name, hp⟩, hf, hq⟩ := hc hw h hx hio
  obtain ⟨i, hi, rc, rn, rl⟩ := FileSystem.rename_cases hr
  rw [a.temp h] at hi rl
  cases (a.named h).symm.trans hi
  have finished {id' p c} (h' : s'.finished id' = some (p, c)) :
      id' = id ∧ p = resolve (s.manager.finalPath d.info) ∧ c = s.accepted id ∨
        id' ≠ id ∧ s.finished id' = some (p, c) ∧ disk.dir.lookup p = s.storage.disk.dir.lookup p := by
    by_cases he : id' = id
    case pos =>
      rw [hs, he, Function.update_self, Option.some.injEq, Prod.mk.injEq] at h'
      exact .inl ⟨he, h'.left.symm, h'.right.symm⟩
    case neg =>
      rw [hs, Function.update_of_ne he] at h'
      exact .inr ⟨he, h', by rw [rl, if_neg (hf he h'), if_neg (a.moved h' h)]⟩
  constructor
  case temp =>
    intro id' d' h'
    rw [hm] at h' ⊢
    exact a.temp (DownloadManager.take_cases h').right
  case named =>
    intro id' d' h'
    rw [hm] at h' ⊢
    obtain ⟨hne, h'⟩ := DownloadManager.take_cases h'
    have hq := hq hne h'
    rw [a.temp h'] at hq
    rw [hst, DownloadManager.take_tempPath, rl, if_neg hq.symm,
      if_neg fun he => hne <| DownloadManager.tempPath_injective he]
    exact a.named h'
  case whole =>
    intro id' d' h'
    rw [hm] at h'
    rw [hst, FileSystem.AtEnd, rc, hws]
    exact a.whole (DownloadManager.take_cases h').right
  case detached =>
    intro w hw hx
    rw [hst] at hw ⊢
    obtain ⟨hi, hp, hf'⟩ := a.detached hw hx
    refine ⟨rn ▸ hi, fun h' => hp (DownloadManager.take_cases (hm ▸ h')).right, fun {id' p c} h' => ?_⟩
    obtain ⟨_, rfl, _⟩ | ⟨_, h', hl⟩ := finished h'
    case inl =>
      rw [rl, if_pos rfl, ne_eq, Option.some.injEq]
      exact hp h
    case inr => exact hl ▸ hf' h'
  case moved =>
    intro id' p c id'' d' h' hd'
    rw [hm] at hd' ⊢
    obtain ⟨hne, hd'⟩ := DownloadManager.take_cases hd'
    obtain ⟨_, rfl, _⟩ | ⟨_, h', _⟩ := finished h'
    case inl => exact a.temp hd' ▸ hq hne hd'
    case inr => exact a.moved h' hd'
  case kept =>
    constructor
    case stored =>
      intro id' p c h'
      rw [hm, hst]
      obtain ⟨rfl, rfl, rfl⟩ | ⟨_, h', hl⟩ := finished h'
      case inl =>
        refine ⟨⟨name, hp⟩, ?_⟩
        rw [FileSystem.read, rl, if_pos rfl, Option.map_some, rc, (a.whole h).right]
        exact congrArg some ((ac.active h).ended hx).right.right
      case inr =>
        rw [FileSystem.read, hl, rc]
        exact a.kept.stored h'
    case distinct =>
      intro id₁ id₂ p c c' h₁ h₂
      obtain ⟨rfl, rfl, _⟩ | ⟨hn₁, h₁, _⟩ := finished h₁ <;> obtain ⟨rfl, hp', _⟩ | ⟨hn₂, h₂, _⟩ := finished h₂
      case inl.inl => rfl
      case inl.inr => exact absurd rfl (hf hn₂ h₂)
      case inr.inl => exact absurd hp' (hf hn₁ h₁)
      case inr.inr => exact a.kept.distinct h₁ h₂

-- A turn of a thread that nobody will join.
theorem turn_detached {w w' : Writer} {disk : Disk} {faults : WriteFaults} {i : Nat} (a : s.Apart)
    (hw : s.storage.detached[i]? = some w) (h : w.turn s.storage.disk faults = some (w', disk)) :
    Apart { s with storage := ⟨disk, s.storage.detached.set i w'⟩ } := by
  have t := Writer.turn_touches h
  have hm := List.mem_of_getElem? hw
  -- The turn writes to its own file if it writes at all.
  have other {j} (hj : w.Writing → j ≠ w.file.inode) : disk.content j = s.storage.disk.content j := by
    by_cases hx : w.Writing
    case pos => exact t.content (hj hx)
    case neg => rw [(Writer.turn_idle h hx).left]
  constructor
  case temp  => exact a.temp
  case named => intro id d h'; exact t.dir ▸ a.named h'
  case whole =>
    intro id d h'
    rw [FileSystem.AtEnd, other fun hx => (a.detached hm hx).right.left h']
    exact a.whole h'
  case detached =>
    intro v hv hx
    simp only [t.dir, t.next]
    obtain hv | rfl := List.mem_or_eq_of_mem_set hv
    case inl => exact a.detached hv hx
    case inr =>
      by_cases hx' : w.Writing
      case pos => exact t.inode ▸ a.detached hm hx'
      case neg => exact absurd hx (Writer.turn_idle h hx').right
  case kept =>
    refine a.kept_frame rfl rfl fun h' hi => ⟨t.dir ▸ hi, other fun hx he => ?_⟩
    exact (a.detached hm hx).right.right h' (he ▸ hi)
  case moved => exact a.moved

theorem frame (a : s.Apart) (hm : s'.manager = s.manager) (hst : s'.storage = s.storage) (hw : s'.writes = s.writes)
    (hs : s'.finished = s.finished) : s'.Apart := by
  obtain ⟨⟩ := s'
  subst hm hst hw hs
  exact ⟨a.temp, a.named, a.whole, a.detached, ⟨a.kept.stored, a.kept.distinct⟩, a.moved⟩

theorem step (a : s.Apart) (ac : s.Accounted) (hc : s.Careful move) (h : s.step move = some s') : s'.Apart := by
  cases move <;> simp only [Calls.step, Option.ite_none_left_eq_some, Option.isSome_iff_ne_none, ne_eq, not_not,
    Option.some.injEq] at h
  case start info io =>
    obtain ⟨hw, rfl⟩ := h
    cases hs : s.manager.startDownload s.storage io info
    case mk r p =>
      obtain ⟨m', s'⟩ := p
      obtain ⟨_, rfl, rfl, rfl, _⟩ | ⟨rfl, hn, _⟩ := DownloadManager.startDownload_cases hs
      case inl => exact a.frame rfl rfl rfl rfl
      case inr =>
        have hi : io.openTemp = none := by
          cases hi : io.openTemp
          case none => rfl
          case some =>
            have hc := Table.contains_eq_false.mpr hn
            simp [DownloadManager.startDownload, hc, hi] at hs
        exact a.start hc hs hi hn rfl rfl
  case chunk id data =>
    obtain ⟨hw, rfl⟩ := h
    cases hp : s.manager.processChunk id data
    case mk r m' =>
      obtain ⟨_, rfl, rfl, _⟩ | ⟨d, _, rfl, hd, _, rfl⟩ := DownloadManager.processChunk_cases hp
      case inl => exact a.frame rfl rfl rfl rfl
      case inr =>
        have hk := s.manager.keyed hd
        have hw := a.whole hd
        exact a.put (d.receive data) hd hk rfl rfl rfl rfl rfl rfl rfl (fun _ => rfl) hw fun _ => rfl
  case cancel id io =>
    obtain ⟨hw, rfl⟩ := h
    cases hs : s.manager.cancelDownload s.storage io id
    case mk r p =>
      obtain ⟨m', s'⟩ := p
      obtain ⟨_, rfl, rfl⟩ | ⟨d, hd, rfl, hl, hst⟩ := DownloadManager.cancelDownload_cases hs
      case inl => exact a.frame rfl rfl rfl rfl
      case inr =>
        have hw {w} (hw : w ∈ s'.detached) : w ∈ s.storage.detached ∨ w.file = d.writer.file := by
          rw [hl, List.mem_append, List.mem_singleton] at hw
          exact hw.imp_right fun he => by rw [he]
        obtain ⟨_, hst⟩ | ⟨_, hst⟩ := hst
        case inr => exact a.take hd rfl (hst ▸ rfl) (hst ▸ rfl) (fun _ => by rw [hst]) hw rfl rfl
        case inl =>
          refine a.take hd rfl (hst ▸ rfl) (hst ▸ rfl) (fun hp => ?_) hw rfl rfl
          rw [hst, FileSystem.unlink_lookup, a.temp hd, if_neg hp]
  case complete id =>
    obtain ⟨hw, h⟩ := h
    split at h <;> cases h
    case h_2 => exact a
    case h_1 d hd =>
      have hk := s.manager.keyed hd
      have hf : d.ending.file = d.writer.file := d.ending_file
      refine a.put { d with writer := d.ending } hd hk rfl (hf ▸ rfl) rfl rfl rfl rfl rfl (fun _ => rfl)
        ⟨?_, (a.whole hd).right⟩ fun _ => rfl
      exact hf ▸ (a.whole hd).left
  case finish io =>
    obtain ⟨⟨r, s₁⟩, hf, rfl⟩ := Option.map_eq_some_iff.mp h
    obtain ⟨id, d, _, hw, hd, hx, ⟨_, rfl⟩ | ⟨_, rfl, hio, disk, hr, rfl⟩⟩ := finish_cases hf
    case inl => exact a.take hd rfl rfl rfl (fun _ => rfl) .inl rfl rfl
    case inr => exact a.complete ac hc hw hd hx hio hr rfl rfl rfl rfl
  case turn id faults =>
    obtain ⟨d, w, disk, hd, ht, rfl⟩ := turned_cases h
    have t := Writer.turn_touches ht
    obtain ⟨he, hc⟩ := a.whole hd
    obtain ⟨he', hc'⟩ := Write.perform_spec (Writer.turn_performs ht) he
    have hk := s.manager.keyed hd
    refine a.put { d with writer := w } hd hk rfl t.inode rfl t.dir t.next rfl rfl t.content ⟨he', ?_⟩
      fun hn => Function.update_of_ne hn ..
    simp only [t.inode, hc] at hc'
    simp [hc']
  case detached i faults =>
    simp only [Option.bind_eq_bind, Option.bind_eq_some_iff] at h
    obtain ⟨w, hw, ⟨w', disk⟩, ht, h⟩ := h
    cases h
    exact a.turn_detached hw ht

theorem reachable (r : Reachable (system.restrict Careful) s) : s.Apart := by
  refine Invariant.relative (fun r => Accounted.reachable r.of_restrict) ?_
    (fun ac a h => step a ac h.right h.left) r
  rintro _ ⟨_, _, rfl⟩
  exact new

theorem spares (a : s.Apart) (hc : s.Careful (.finish io)) : s.Spares io := by
  intro result s' h id d hw hd
  obtain ⟨id₀, d₀, _, hw₀, hd₀, hx, ⟨_, rfl⟩ | ⟨_, rfl, hio, disk, hr, rfl⟩⟩ := finish_cases h
  case inl => exact ⟨rfl, rfl⟩
  case inr =>
    have hne : id ≠ id₀ := fun he => hw (he ▸ hw₀)
    have ⟨_, _, hq⟩ := hc hw₀ hd₀ hx hio
    have ⟨i, _, rc, _, rl⟩ := FileSystem.rename_cases hr
    have ht : resolve d.tempPath ≠ resolve d₀.tempPath := by
      rw [a.temp hd, a.temp hd₀]
      exact fun he => hne <| DownloadManager.tempPath_injective he
    have hl : disk.dir.lookup (resolve d.tempPath) = s.storage.disk.dir.lookup (resolve d.tempPath) := by
      rw [rl, if_neg (hq hne hd).symm, if_neg ht]
    exact ⟨hl, by simp only [FileSystem.read, hl, rc]⟩

end Apart

-- As long as every step is careful, completed downloads are kept and active ones spared.
theorem kept_of_careful (r : Reachable (system.restrict Careful) s) :
    s.Kept ∧ ∀ io, s.Careful (.finish io) → s.Spares io :=
  have a := Apart.reachable r
  ⟨a.kept, fun _ => a.spares⟩

-- Resources that are offered under plain names, each under one of its own.
structure Plain (offers : List ResourceInfo) : Prop where
  name     : ∀ info ∈ offers, IsName info.name.toList ∧ ¬IsTemp info.name.toList
  distinct : ∀ info ∈ offers, ∀ info' ∈ offers, info.name = info'.name → info.id = info'.id

-- Only these are downloaded, and none is cancelled.
def Move.Takes (offers : List ResourceInfo) : Move → Prop
  | .start info _ => info ∈ offers
  | .cancel ..    => False
  | _             => True

instance {offers : List ResourceInfo} : DecidablePred (Move.Takes offers)
  | .start info _ => inferInstanceAs (Decidable (info ∈ offers))
  | .cancel ..    => inferInstanceAs (Decidable False)
  | .chunk .. | .complete _ | .finish _ | .turn .. | .detached .. => inferInstanceAs (Decidable True)

-- What is active has been offered, what has been completed is where its name says, and no thread goes on alone.
structure Takes (offers : List ResourceInfo) (s : Calls) : Prop where
  active   : ∀ {id d}, s.manager.downloads.lookup id = some d → d.info ∈ offers
  finished : ∀ {id p c}, s.finished id = some (p, c) → ∃ info ∈ offers, info.id = id ∧
    p = (resolve s.manager.downloadsDir).child info.name.toList
  detached : s.storage.detached = []

namespace Takes

variable {offers : List ResourceInfo}

theorem new {downloadsDir : PosixPath.Path} {disk : Disk} : (new downloadsDir disk).Takes offers where
  active h   := by simp [Calls.new, DownloadManager.new] at h
  finished h := by simp [Calls.new] at h
  detached   := rfl

theorem put (t : s.Takes offers) (d : ActiveDownload) (hi : d.info ∈ offers) (hm : s'.manager = s.manager.put d)
    (hf : s'.finished = s.finished) (hd : s'.storage.detached = s.storage.detached) : s'.Takes offers where
  active h := by
    obtain ⟨_, rfl⟩ | ⟨_, h⟩ := DownloadManager.put_cases (hm ▸ h)
    case inl => exact hi
    case inr => exact t.active h
  finished h := by rw [hm, DownloadManager.put_downloadsDir]; exact t.finished (hf ▸ h)
  detached   := hd.trans t.detached

theorem take (t : s.Takes offers) (hm : s'.manager = s.manager.take id) (hd : s'.storage.detached = s.storage.detached)
    (hf : ∀ {id p c}, s'.finished id = some (p, c) → s.finished id = some (p, c) ∨ ∃ info ∈ offers, info.id = id ∧
      p = (resolve s.manager.downloadsDir).child info.name.toList) : s'.Takes offers where
  active h   := t.active (DownloadManager.take_cases <| hm ▸ h).right
  finished h := by rw [hm, DownloadManager.take_downloadsDir]; exact (hf h).elim t.finished (·)
  detached   := hd.trans t.detached

theorem step (t : s.Takes offers) (o : Plain offers) (hm : move.Takes offers) (h : s.step move = some s') :
    s'.Takes offers := by
  cases move <;> simp only [Calls.step, Option.ite_none_left_eq_some, Option.isSome_iff_ne_none, ne_eq, not_not,
    Option.some.injEq] at h
  case start info io =>
    obtain ⟨_, rfl⟩ := h
    cases hs : s.manager.startDownload s.storage io info
    case mk r p =>
      obtain ⟨m', s'⟩ := p
      obtain ⟨_, rfl, rfl, rfl, _⟩ | ⟨rfl, _, _, _, _, rfl, rfl⟩ := DownloadManager.startDownload_cases hs
      case inl => exact ⟨t.active, t.finished, t.detached⟩
      case inr => exact t.put ⟨info, 0, s.manager.tempPath info.id, .new _⟩ hm rfl rfl rfl
  case chunk id data =>
    obtain ⟨_, rfl⟩ := h
    cases hp : s.manager.processChunk id data
    case mk r m' =>
      obtain ⟨_, rfl, rfl, _⟩ | ⟨d, _, rfl, hd, _, rfl⟩ := DownloadManager.processChunk_cases hp
      case inl => exact ⟨t.active, t.finished, t.detached⟩
      case inr =>
        have hi := t.active hd
        exact t.put (d.receive data) hi rfl rfl rfl
  case cancel => contradiction
  case complete id =>
    obtain ⟨_, h⟩ := h
    split at h <;> cases h
    case h_2 => exact t
    case h_1 d hd =>
      have hi := t.active hd
      exact t.put { d with writer := d.ending } hi rfl rfl rfl
  case finish io =>
    obtain ⟨⟨r, s₁⟩, hf, rfl⟩ := Option.map_eq_some_iff.mp h
    obtain ⟨id, d, _, _, hd, _, ⟨_, rfl⟩ | ⟨_, _, _, disk, _, rfl⟩⟩ := finish_cases hf
    case inl => exact t.take rfl rfl .inl
    case inr =>
      refine t.take rfl rfl fun {id' p c} h => ?_
      by_cases he : id' = id
      case neg => exact .inl <| (Function.update_of_ne he ..).symm.trans h
      case pos =>
        subst he
        cases (Function.update_self ..).symm.trans h
        have hi := t.active hd
        exact .inr ⟨d.info, hi, s.manager.keyed hd, DownloadManager.resolve_finalPath (o.name _ hi).left⟩
  case turn id faults =>
    obtain ⟨d, w, disk, hd, _, rfl⟩ := turned_cases h
    have hi := t.active hd
    exact t.put { d with writer := w } hi rfl rfl rfl
  case detached i faults => simp [t.detached] at h

theorem careful (t : s.Takes offers) (o : Plain offers) (a : s.Apart) (hm : move.Takes offers) : s.Careful move := by
  cases move <;> try trivial
  case start info io =>
    refine fun _ _ => ⟨fun h he => ?_, by simp [t.detached]⟩
    obtain ⟨info', hi, _, rfl⟩ := t.finished h
    rw [DownloadManager.resolve_tempPath] at he
    exact (o.name _ hi).right <| Place.child_injective he ▸ isTemp_temp
  case finish io =>
    intro id d hw hd _ _
    have hi := t.active hd
    obtain ⟨hn, ht⟩ := o.name _ hi
    refine ⟨⟨_, DownloadManager.resolve_finalPath hn⟩, fun hne h he => ?_, fun _ hd' => ?_⟩
    case refine_1 =>
      obtain ⟨info', hi', rfl, rfl⟩ := t.finished h
      rw [DownloadManager.resolve_finalPath hn] at he
      exact hne <| (o.distinct _ hi' _ hi <| String.toList_injective <| Place.child_injective he).trans
        (s.manager.keyed hd)
    case refine_2 => exact a.temp hd' ▸ DownloadManager.finalPath_ne_tempPath hn ht

end Takes

-- Downloads of resources with plain names of their own are careful as long as none is cancelled.
theorem careful_of_plain {offers : List ResourceInfo} {moves : List Move} {downloadsDir : PosixPath.Path} {disk : Disk}
    (o : Plain offers) (run : Run system (new downloadsDir disk) moves s) (hm : ∀ move ∈ moves, move.Takes offers) :
    Reachable (system.restrict Careful) s ∧ s.Takes offers := by
  refine run.preserves (P := fun s => Reachable (system.restrict Careful) s ∧ s.Takes offers) ?_
    ⟨.init ⟨_, _, rfl⟩, .new⟩
  intro s move s' hi ⟨r, t⟩ h
  exact ⟨.step r ⟨h, t.careful o (Apart.reachable r) (hm _ hi)⟩, t.step o (hm _ hi) h⟩

-- Two downloads that are completed while a third one goes on.
def draft : ResourceInfo where
  id := ⟨.replicate 32 4⟩
  name := "draft"
  size := 5

def storing : List Move := [
  .start photo .none, .start melody .none, .start draft .none, .chunk photo.id [1, 2], .turn photo.id .none,
  .chunk melody.id [4, 5], .chunk photo.id [3], .chunk draft.id [6], .complete photo.id, .turn photo.id .none,
  .turn photo.id .none, .finish .none, .complete melody.id, .turn melody.id .none, .turn melody.id .none, .finish .none
]

def stored : Calls :=
  storing.foldlM step (new "/downloads".toList .empty) |>.get (by decide +kernel)

theorem stored_careful : Reachable (system.restrict Careful) stored := by
  have o : Plain [photo, melody, draft] := ⟨by decide +kernel, by decide +kernel⟩
  have run : Run system (new "/downloads".toList .empty) storing stored := .ofFn (Option.some_get _).symm
  exact (careful_of_plain o run (by decide +kernel)).left

theorem kept_of_careful_stored :
    stored.finished photo.id = some ((resolve "/downloads".toList).child photo.name.toList, [1, 2, 3]) ∧
      stored.finished melody.id = some ((resolve "/downloads".toList).child melody.name.toList, [4, 5]) ∧
      stored.manager.downloads.contains draft.id ∧ stored.Kept ∧
      ∀ io, stored.Careful (.finish io) → stored.Spares io := by
  have hs : stored.finished photo.id = some ((resolve "/downloads".toList).child photo.name.toList, [1, 2, 3]) ∧
      stored.finished melody.id = some ((resolve "/downloads".toList).child melody.name.toList, [4, 5]) ∧
      stored.manager.downloads.contains draft.id := by decide +kernel
  exact ⟨hs.left, hs.right.left, hs.right.right, kept_of_careful stored_careful⟩

-- Another resource of that name, and one that is named like the temporary file of the first.
def namesake : ResourceInfo where
  id := ⟨.replicate 32 1⟩
  name := "photo"
  size := 1

def disguised : ResourceInfo where
  id := ⟨.replicate 32 2⟩
  name := ".tmp_" ++ photo.id.debug
  size := 1

def overwriting : List Move := [
  .start photo .none, .chunk photo.id [1, 2, 3], .complete photo.id, .turn photo.id .none, .turn photo.id .none,
  .finish .none,
  .start namesake .none, .chunk namesake.id [4], .complete namesake.id, .turn namesake.id .none,
  .turn namesake.id .none, .finish .none
]

def replacing : List Move := [
  .start photo .none, .chunk photo.id [1, 2, 3], .start disguised .none, .complete disguised.id,
  .turn disguised.id .none
]

-- The second download takes the place of the first, or the first that of the temporary file.
theorem overwriting_not_kept : (∃ s, Run system (new "/downloads".toList .empty) overwriting s ∧ ¬s.Kept) ∧
    ∃ s, Run system (new "/downloads".toList .empty) replacing s ∧ ¬s.Spares .none := by
  constructor
  case left =>
    let place := (resolve "/downloads".toList).child "photo".toList
    have he : (overwriting.foldlM step (new "/downloads".toList .empty)).map
        (fun s => (s.finished photo.id, s.finished namesake.id)) =
          some (some (place, [1, 2, 3]), some (place, [4])) := by decide +kernel
    have ⟨s, hs, he⟩ := Option.map_eq_some_iff.mp he
    have ⟨hp, hn⟩ := Prod.mk.inj he
    exact ⟨s, .ofFn hs, fun k => absurd (k.distinct hp hn) (by decide)⟩
  case right =>
    let temp := (DownloadManager.new "/downloads".toList).tempPath photo.id
    have he : (replacing.foldlM step (new "/downloads".toList .empty)).map
        (fun s => (s.waiting, (s.manager.downloads.lookup photo.id).map (·.tempPath),
          s.storage.disk.dir.lookup (resolve temp),
          (s.finish .none).map (·.snd.storage.disk.dir.lookup (resolve temp)))) =
          some (some disguised.id, some temp, some 0, some (some 1)) := by decide +kernel
    have ⟨s, hs, he⟩ := Option.map_eq_some_iff.mp he
    simp only [Prod.mk.injEq] at he
    have ⟨hw, hd, h₀, h₁⟩ := he
    have ⟨d, hd, ht⟩ := Option.map_eq_some_iff.mp hd
    have ⟨⟨result, s'⟩, hf, h₁⟩ := Option.map_eq_some_iff.mp h₁
    have hn : some disguised.id ≠ some photo.id := by decide
    refine ⟨s, .ofFn hs, fun h => ?_⟩
    have hl := (h hf (hw ▸ hn) hd).left
    rw [ht, h₀] at hl
    exact absurd (h₁.symm.trans hl) (by decide)

end Calls
end Parsip
