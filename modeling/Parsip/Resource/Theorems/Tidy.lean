import Parsip.Resource.Theorems.Calls

-- When downloads leave temporary files behind.

namespace Parsip.Calls

open PosixPath Transition

variable {s s' s₀ : Calls} {move : Move} {moves : List Move} {id : ResourceId} {d : ActiveDownload} {io : IoFaults}

-- The temporary files on the disk are those of the active downloads.
structure Tidy (s : Calls) : Prop where
  temp  : ∀ {id d}, s.manager.downloads.lookup id = some d → d.tempPath = s.manager.tempPath id
  exact : ∀ id, s.storage.disk.dir.lookup (resolve <| s.manager.tempPath id) = none ↔
    s.manager.downloads.lookup id = none

-- A call does not fail to remove or to move a temporary file, and moves none to where that of an idle resource
-- would be.
def Neat (s : Calls) : Move → Prop
  | .cancel id io => s.manager.downloads.lookup id ≠ none → io.remove (s.manager.tempPath id) = none
  | .finish io    =>
    ∀ {id d}, s.waiting = some id → s.manager.downloads.lookup id = some d →
      d.writer.exit = some (.ok ()) ∧ io.rename = none ∧
        ∀ id', resolve (s.manager.finalPath d.info) = resolve (s.manager.tempPath id') →
          id' ≠ id ∧ s.manager.downloads.lookup id' ≠ none
  | _             => True

namespace Tidy

theorem put (t : s.Tidy) (d' : ActiveDownload) (h : s.manager.downloads.lookup id = some d) (hi : d'.info.id = id)
    (ht : d'.tempPath = d.tempPath) (hm : s'.manager = s.manager.put d')
    (hd : s'.storage.disk.dir = s.storage.disk.dir) : s'.Tidy := by
  subst hi
  constructor
  case temp =>
    intro id d₀ h'
    rw [hm] at h' ⊢
    obtain ⟨rfl, rfl⟩ | ⟨_, h'⟩ := DownloadManager.put_cases h'
    case inl => exact ht.trans (t.temp h)
    case inr => exact t.temp h'
  case exact =>
    intro id
    rw [hm, hd, DownloadManager.put_tempPath, t.exact, DownloadManager.put_lookup]
    split
    case isTrue he => simp [he, h]
    case isFalse   => rfl

theorem frame (t : s.Tidy) (hm : s'.manager = s.manager) (hd : s'.storage.disk.dir = s.storage.disk.dir) : s'.Tidy where
  temp h   := by rw [hm] at h ⊢; exact t.temp h
  exact id := by rw [hm, hd]; exact t.exact id

theorem start {info : ResourceInfo} (t : s.Tidy)
    (h : s.manager.startDownload s.storage io info = (.ok (), s'.manager, s'.storage)) : s'.Tidy := by
  obtain ⟨_, h, _⟩ | ⟨_, _, disk, file, ho, hm, hst⟩ := DownloadManager.startDownload_cases h
  case inl => contradiction
  case inr =>
    obtain ⟨rfl, rfl⟩ := Prod.ext_iff.mp ho
    constructor
    case temp =>
      intro id d h
      rw [hm] at h ⊢
      obtain ⟨rfl, rfl⟩ | ⟨_, h⟩ := DownloadManager.put_cases h
      case inl => rfl
      case inr => exact t.temp h
    case exact =>
      intro id
      rw [hm, hst, DownloadManager.put_tempPath, FileSystem.openTruncate_lookup, DownloadManager.put_lookup]
      by_cases he : id = info.id
      case pos => simp [he]
      case neg =>
        rw [if_neg fun h => he <| DownloadManager.tempPath_injective h, if_neg he]
        exact t.exact id

-- A download leaves.
theorem take_iff (t : s.Tidy) (hm : s'.manager = s.manager.take id) : s'.Tidy ↔
    ∀ id', s'.storage.disk.dir.lookup (resolve <| s.manager.tempPath id') = none ↔
      id' = id ∨ s.manager.downloads.lookup id' = none := by
  have hl (id') : s'.manager.downloads.lookup id' = none ↔ id' = id ∨ s.manager.downloads.lookup id' = none := by
    rw [hm, DownloadManager.take_lookup]
    split <;> simp [*]
  constructor
  case mp =>
    intro t' id'
    rw [← hl, ← t'.exact, hm, DownloadManager.take_tempPath]
  case mpr =>
    intro h
    constructor
    case temp =>
      intro id' d' h'
      rw [hm] at h' ⊢
      exact t.temp (DownloadManager.take_cases h').right
    case exact =>
      intro id'
      rw [hl, hm, DownloadManager.take_tempPath, h]

theorem not_tidy_of_left (t : s.Tidy) (hd : s.manager.downloads.lookup id ≠ none) (hm : s'.manager = s.manager.take id)
    (hs : s'.storage.disk.dir = s.storage.disk.dir) : ¬s'.Tidy := fun t' => by
  have h := ((t.take_iff hm).mp t' id).mpr (.inl rfl)
  rw [hs, t.exact] at h
  exact hd h

theorem cancel_iff (t : s.Tidy) {r : Except Error Unit}
    (h : s.manager.cancelDownload s.storage io id = (r, s'.manager, s'.storage)) :
    s'.Tidy ↔ s.Neat (.cancel id io) := by
  obtain ⟨hn, hm, hs⟩ | ⟨d, hd, hm, _, hs⟩ := DownloadManager.cancelDownload_cases h
  case inl => exact iff_of_true (t.frame hm (by rw [hs])) fun h => absurd hn h
  case inr =>
    have hd' : s.manager.downloads.lookup id ≠ none := by simp [hd]
    rw [t.temp hd] at hs
    obtain ⟨hr, hs⟩ | ⟨hr, hs⟩ := hs
    case inr => exact iff_of_false (t.not_tidy_of_left hd' hm (by rw [hs])) fun h => hr (h hd')
    case inl =>
      refine iff_of_true ((t.take_iff hm).mpr fun id' => ?_) fun _ => hr
      rw [hs, FileSystem.unlink_lookup, ← t.exact]
      split
      case isTrue he  => simp [DownloadManager.tempPath_injective he]
      case isFalse he =>
        have : id' ≠ id := fun h => he (by rw [h])
        simp [this]

theorem finish_iff (t : s.Tidy) {result : Except Error Unit} (h : s.finish io = some (result, s')) :
    s'.Tidy ↔ s.Neat (.finish io) := by
  obtain ⟨id, d, joined, hw, hd, hx, h'⟩ := finish_cases h
  have hd' : s.manager.downloads.lookup id ≠ none := by simp [hd]
  obtain ⟨i, hi⟩ := Option.ne_none_iff_exists'.mp <| mt (t.exact id).mp hd'
  obtain ⟨⟨e, rfl⟩, rfl⟩ | ⟨rfl, rfl, hio, disk, hr, rfl⟩ := h'
  case inl =>
    refine iff_of_false (t.not_tidy_of_left hd' rfl rfl) fun hn => ?_
    -- A download that has come to a good end can be moved.
    obtain ⟨hx', hio, _⟩ := hn hw hd
    obtain ⟨disk, hr⟩ := @FileSystem.rename_of_lookup _ _ _ _ (resolve <| s.manager.finalPath d.info) _ (t.temp hd ▸ hi)
    cases hx.symm.trans hx'
    rw [finish_of hw hd hx] at h
    simp [DownloadManager.finishDownload, hr, hio] at h
  case inr =>
    obtain ⟨_, _, _, _, hl⟩ := FileSystem.rename_cases hr
    rw [t.take_iff rfl]
    simp only [hl, t.temp hd]
    constructor
    case mp =>
      intro hk id₀ d₀ hw₀ hd₀
      cases hw.symm.trans hw₀
      cases hd.symm.trans hd₀
      refine ⟨hx, hio, fun id' he => not_or.mp fun ho => ?_⟩
      have := (hk id').mpr ho
      rw [if_pos he.symm] at this
      contradiction
    case mpr =>
      intro hn id'
      obtain ⟨_, _, hn⟩ := hn hw hd
      split
      case isTrue he =>
        obtain ⟨hne, ha⟩ := hn id' he.symm
        simp [hne, ha]
      case isFalse =>
        rw [← t.exact]
        split
        case isTrue he  => simp [DownloadManager.tempPath_injective he]
        case isFalse he =>
          have : id' ≠ id := fun h => he (by rw [h])
          simp [this]

theorem step_iff (t : s.Tidy) (h : s.step move = some s') : s'.Tidy ↔ s.Neat move := by
  cases move <;> simp only [Calls.step, Option.ite_none_left_eq_some, Option.some.injEq] at h
  case start info io =>
    obtain ⟨_, rfl⟩ := h
    refine iff_of_true ?_ trivial
    cases hs : s.manager.startDownload s.storage io info
    case mk r p =>
      obtain ⟨_, rfl, hm, hst, _⟩ | ⟨rfl, _⟩ := DownloadManager.startDownload_cases hs
      case inl => exact t.frame hm (by simp only [started, hst])
      case inr => exact t.start hs
  case chunk id data =>
    obtain ⟨_, rfl⟩ := h
    refine iff_of_true ?_ trivial
    cases hp : s.manager.processChunk id data
    case mk r m' =>
      obtain ⟨_, rfl, rfl, _⟩ | ⟨d, _, rfl, hd, _, rfl⟩ := DownloadManager.processChunk_cases hp
      case inl => exact t.frame rfl rfl
      case inr =>
        have hk := s.manager.keyed hd
        exact t.put (d.receive data) hd hk rfl rfl rfl
  case cancel id io =>
    obtain ⟨_, rfl⟩ := h
    exact t.cancel_iff rfl
  case complete id =>
    obtain ⟨_, h⟩ := h
    refine iff_of_true ?_ trivial
    split at h <;> cases h
    case h_2      => exact t
    case h_1 d hd =>
      have hk := s.manager.keyed hd
      exact t.put { d with writer := d.ending } hd hk rfl rfl rfl
  case finish io =>
    obtain ⟨⟨r, s₁⟩, hf, rfl⟩ := Option.map_eq_some_iff.mp h
    exact t.finish_iff hf
  case turn id faults =>
    obtain ⟨d, w, disk, hd, ht, rfl⟩ := turned_cases h
    refine iff_of_true ?_ trivial
    have hk := s.manager.keyed hd
    exact t.put { d with writer := w } hd hk rfl rfl (Writer.turn_touches ht).dir
  case detached i faults =>
    simp only [Option.bind_eq_bind, Option.bind_eq_some_iff] at h
    obtain ⟨w, hw, ⟨w', disk⟩, ht, h⟩ := h
    cases h
    exact iff_of_true (t.frame rfl (Writer.turn_touches ht).dir) trivial

end Tidy

-- From a tidy disk on, no temporary file is left behind in a run exactly when all of its calls are neat.
theorem tidy_throughout_iff (t : s₀.Tidy) :
    system.Throughout s₀ moves s (fun _ _ s' => s'.Tidy) ↔ system.Throughout s₀ moves s (fun s move _ => s.Neat move) :=
  Run.throughout_kept_iff t Tidy.step_iff

theorem new_tidy {downloadsDir : PosixPath.Path} {disk : Disk}
    (h : ∀ id, disk.dir.lookup (resolve <| (DownloadManager.new downloadsDir).tempPath id) = none) :
    (new downloadsDir disk).Tidy where
  temp h     := by simp [new, DownloadManager.new] at h
  exact id   := iff_of_true (h id) rfl

-- One download is completed, and another one cancelled.
def abandoning : List Move :=
  [.start melody .none, .chunk melody.id [4], .turn melody.id .none, .cancel melody.id .none]

def abandoned : Calls :=
  (downloading ++ .finish .none :: abandoning).foldlM step (new "/downloads".toList .empty) |>.get (by decide +kernel)

theorem downloaded_neat : downloaded.Neat (.finish .none) := by
  intro id d hw hd
  cases hw
  have hi : (downloaded.manager.downloads.lookup photo.id).map (fun d => (d.info, d.writer.exit)) =
      some (photo, some (.ok ())) := by decide +kernel
  obtain ⟨hi, hx⟩ : d.info = photo ∧ d.writer.exit = some (.ok ()) := by simpa [hd] using hi
  refine ⟨hx, rfl, fun id' he => ?_⟩
  rw [hi] at he
  exact absurd he <| DownloadManager.finalPath_ne_tempPath (by decide) (by decide)

theorem tidy_throughout_abandoned :
    system.Throughout (new "/downloads".toList .empty) (downloading ++ .finish .none :: abandoning) abandoned
      (fun _ _ s' => s'.Tidy) := by
  refine (tidy_throughout_iff <| new_tidy fun _ => rfl).mpr fun {ls₁ l ls₂ s s'} hl r h _ => ?_
  have hm : l ∈ downloading ++ .finish .none :: abandoning := hl ▸ List.mem_append_right _ (List.mem_cons_self ..)
  clear h
  cases l <;> try trivial
  case cancel id io =>
    obtain ⟨_, rfl⟩ : id = melody.id ∧ io = .none := by simpa [downloading, abandoning] using hm
    exact fun _ => rfl
  case finish io =>
    obtain rfl : io = .none := by simpa [downloading, abandoning] using hm
    obtain ⟨rfl, _⟩ := List.append_cons_inj_of_notMem (by simp [downloading]) (by simp [abandoning]) |>.mp hl
    have rd : Run system (new "/downloads".toList .empty) downloading downloaded := .ofFn rfl
    exact rd.ofFn_eq r ▸ @downloaded_neat

end Parsip.Calls
