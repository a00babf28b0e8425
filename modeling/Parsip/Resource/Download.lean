import Parsip.Resource.Writer

namespace Parsip

-- `{:?}`
def ResourceId.debug (id : ResourceId) : String :=
  "ResourceId([" ++ ", ".intercalate (id.bytes.toList.map fun b => toString b.toNat) ++ "])"

-- `writer` stands for `writer_tx` and `writer_handle`.
structure ActiveDownload where
  info : ResourceInfo
  receivedBytes : UInt64
  tempPath : PosixPath.Path
  writer : Writer

-- The file system and the writer threads that nobody will join.
structure Storage where
  disk : Disk
  detached : List Writer

-- What the file system refuses while one event is handled.
structure IoFaults where
  openTemp : Option Error
  rename : Option Error
  remove : PosixPath.Path → Option Error
  writes : Nat → WriteFaults

def IoFaults.none : IoFaults where
  openTemp := .none
  rename := .none
  remove _ := .none
  writes _ := .none

structure DownloadManager where
  downloads : Table ResourceId ActiveDownload
  downloadsDir : PosixPath.Path
  keyed : ∀ {id d}, downloads.lookup id = some d → d.info.id = id

namespace DownloadManager

def new (downloadsDir : PosixPath.Path) : DownloadManager where
  downloads := ∅
  downloadsDir := downloadsDir
  keyed h := by simp at h

def put (m : DownloadManager) (download : ActiveDownload) : DownloadManager where
  downloads := m.downloads.insert download.info.id download
  downloadsDir := m.downloadsDir
  keyed {id d} h := by
    rw [Table.lookup_insert] at h
    split at h
    case isTrue hi  => exact Option.some.inj h ▸ hi.symm
    case isFalse hi => exact m.keyed h

def take (m : DownloadManager) (id : ResourceId) : DownloadManager where
  downloads := m.downloads.erase id
  downloadsDir := m.downloadsDir
  keyed h := by
    simp only [Table.lookup_erase, Option.ite_none_left_eq_some] at h
    exact m.keyed h.right

def tempPath (m : DownloadManager) (id : ResourceId) : PosixPath.Path :=
  PosixPath.join m.downloadsDir (".tmp_" ++ id.debug).toList

def finalPath (m : DownloadManager) (info : ResourceInfo) : PosixPath.Path :=
  PosixPath.join m.downloadsDir info.name.toList

def startDownload (m : DownloadManager) (s : Storage) (io : IoFaults) (info : ResourceInfo) :
    Except Error Unit × DownloadManager × Storage :=
  if m.downloads.contains info.id then
    (.error ⟨.alreadyExists, "Download already in progress for this resource"⟩, m, s)
  else match io.openTemp with
  | some e => (.error e, m, s)
  | none   =>
    let tempPath := m.tempPath info.id
    let (disk, file) := s.disk.openTruncate (PosixPath.resolve tempPath)
    (.ok (), m.put ⟨info, 0, tempPath, .new file⟩, { s with disk })

def processChunk (m : DownloadManager) (id : ResourceId) (data : Bytes) :
    Except Error Bool × DownloadManager :=
  match m.downloads.lookup id with
  | some download =>
    match download.writer.send (some data) with
    | some writer =>
      let receivedBytes := download.receivedBytes + .ofNat data.length
      (.ok (receivedBytes ≥ download.info.size), m.put { download with receivedBytes, writer })
    | none => (.error ⟨.brokenPipe, "Writer thread exited prematurely"⟩, m)
  | none => (.error ⟨.notFound, "Download not found"⟩, m)

-- The download is given up also when its writer thread or the renaming fails.
def completeDownload (m : DownloadManager) (s : Storage) (io : IoFaults) (id : ResourceId) :
    Except Error Unit × DownloadManager × Storage :=
  match m.downloads.lookup id with
  | some download =>
    let writer := download.writer.send none |>.getD download.writer
    match writer.join s.disk io.writes with
    | (.error e, disk) => (.error e, m.take id, { s with disk })
    | (.ok (), disk)   =>
      let renamed := disk.rename (PosixPath.resolve download.tempPath)
        (PosixPath.resolve <| m.finalPath download.info)
      match io.rename, renamed with
      | none, some disk => (.ok (), m.take id, { s with disk })
      | some e, _       => (.error e, m.take id, { s with disk })
      | none, none      => (.error ⟨.notFound, "No such file or directory (os error 2)"⟩, m.take id, { s with disk })
  | none => (.error ⟨.notFound, "Download not found"⟩, m, s)

def cancelDownload (m : DownloadManager) (s : Storage) (io : IoFaults) (id : ResourceId) :
    Except Error Unit × DownloadManager × Storage :=
  match m.downloads.lookup id with
  | some download =>
    let writer := { download.writer with connected := false }
    let disk := match io.remove download.tempPath with
      | some _ => s.disk
      | none   => s.disk.unlink (PosixPath.resolve download.tempPath)
    (.ok (), m.take id, { disk, detached := s.detached ++ [writer] })
  | none => (.error ⟨.notFound, "Download not found"⟩, m, s)

end DownloadManager
end Parsip
