import Parsip.Library.Transition
import Parsip.Resource.Download

-- The calls of a download manager in any order, with the turns of the writer threads between and
-- during them.

namespace Parsip

open Transition

-- What a `BufWriter` hands to its file in one piece, and what goes wrong with it.
structure Write where
  data : Bytes
  fault : Option WriteFault
deriving DecidableEq

namespace Write

def through (c : Write) : Bytes :=
  c.fault.elim c.data (c.data.take ·.written)

def perform (p : Disk × FileHandle) (c : Write) : Disk × FileHandle :=
  p.fst.write p.snd c.through

end Write

namespace Writer

-- What each function of the thread hands to its file.
def flushWrites (w : Writer) (fault : Option WriteFault) : List Write :=
  if w.buffer = [] then [] else [⟨w.buffer, fault⟩]

def makeRoomWrites (w : Writer) (data : Bytes) (fault : Option WriteFault) : List Write :=
  if capacity < w.buffer.length + data.length then w.flushWrites fault else []

def writeAllWrites (w : Writer) (fs : Disk) (data : Bytes) (faults : WriteFaults) : List Write :=
  if w.buffer.length + data.length < capacity then []
  else match w.makeRoom fs data faults.flush with
  | (.error _, _, _) => w.makeRoomWrites data faults.flush
  | (.ok (), _, _)   =>
    w.makeRoomWrites data faults.flush ++ if capacity ≤ data.length then [⟨data, faults.direct⟩] else []

def turnWrites (w : Writer) (fs : Disk) (faults : WriteFaults) : List Write :=
  match w.exit, w.queue with
  | some _, _                  => []
  | none, some data :: queue   =>
    match { w with queue }.writeAll fs data faults with
    | (.ok (), _, _)    => { w with queue }.writeAllWrites fs data faults
    | (.error _, w', _) => { w with queue }.writeAllWrites fs data faults ++ w'.flushWrites faults.drop
  | none, none :: queue        =>
    let (_, w', _) := { w with queue }.flush fs faults.flush
    w.flushWrites faults.flush ++ w'.flushWrites faults.drop
  | none, []                   =>
    if w.connected then [] else w.flushWrites faults.drop

end Writer

namespace DownloadManager

-- The rest of `complete_download` after its thread has been joined.
def finishDownload (m : DownloadManager) (s : Storage) (io : IoFaults) (download : ActiveDownload) :
    Except Error Unit → Except Error Unit × Storage
  | .error e => (.error e, s)
  | .ok ()   =>
    let renamed := s.disk.rename (PosixPath.resolve download.tempPath)
      (PosixPath.resolve <| m.finalPath download.info)
    match io.rename, renamed with
    | none, some disk => (.ok (), { s with disk })
    | some e, _       => (.error e, s)
    | none, none      => (.error ⟨.notFound, "No such file or directory (os error 2)"⟩, s)

end DownloadManager

-- `waiting` is the download whose thread `complete_download` is joining. It leaves the table when that
-- call returns, as nobody sees the table before. The rest is a record: the handle that has been opened
-- when a download was started, the data of the chunks accepted since, what has been handed to the file
-- since, and the place and the contents of what has been completed last under an id.
structure Calls where
  manager : DownloadManager
  storage : Storage
  waiting : Option ResourceId
  opened : ResourceId → FileHandle
  accepted : ResourceId → Bytes
  writes : ResourceId → List Write
  finished : ResourceId → Option (PosixPath.Place × Bytes)

namespace Calls

inductive Move
  | start (info : ResourceInfo) (io : IoFaults)
  | chunk (id : ResourceId) (data : Bytes)
  | cancel (id : ResourceId) (io : IoFaults)
  | complete (id : ResourceId)
  -- The call that has been waiting returns.
  | finish (io : IoFaults)
  -- A turn of the thread of a download, and of a thread that nobody will join.
  | turn (id : ResourceId) (faults : WriteFaults)
  | detached (i : Nat) (faults : WriteFaults)

def started (s : Calls) (id : ResourceId) : Except Error Unit × DownloadManager × Storage → Calls
  | (.error _, manager, storage) => { s with manager, storage }
  | (.ok (), manager, storage)   =>
    { s with
      manager, storage
      opened   := Function.update s.opened id (s.storage.disk.openTruncate <| PosixPath.resolve <| s.manager.tempPath id).snd
      accepted := Function.update s.accepted id []
      writes   := Function.update s.writes id [] }

def received (s : Calls) (id : ResourceId) (data : Bytes) : Except Error Bool × DownloadManager → Calls
  | (.error _, manager) => { s with manager }
  | (.ok _, manager)    => { s with manager, accepted := Function.update s.accepted id (s.accepted id ++ data) }

def returned (s : Calls) (id : ResourceId) (place : PosixPath.Place) : Except Error Unit × Storage → Calls
  | (.error _, storage) => { s with manager := s.manager.take id, storage, waiting := none }
  | (.ok (), storage)   =>
    { s with
      manager  := s.manager.take id
      storage  := storage
      waiting  := none
      finished := Function.update s.finished id (some (place, s.accepted id)) }

-- What `complete_download` returns, and the state it leaves.
def finish (s : Calls) (io : IoFaults) : Option (Except Error Unit × Calls) := do
  let id ← s.waiting
  let download ← s.manager.downloads.lookup id
  let joined ← download.writer.exit
  let ended := s.manager.finishDownload s.storage io download joined
  some (ended.fst, s.returned id (PosixPath.resolve <| s.manager.finalPath download.info) ended)

def turned (s : Calls) (id : ResourceId) (faults : WriteFaults) : Option Calls := do
  let download ← s.manager.downloads.lookup id
  let (writer, disk) ← download.writer.turn s.storage.disk faults
  some {
    s with
    manager := s.manager.put { download with writer }
    storage := { s.storage with disk }
    writes  := Function.update s.writes id (s.writes id ++ download.writer.turnWrites s.storage.disk faults)
  }

-- A call takes the manager for itself until it returns.
def step (s : Calls) : Move → Option Calls
  | .start info io   =>
    if s.waiting.isSome then none
    else some <| s.started info.id (s.manager.startDownload s.storage io info)
  | .chunk id data   =>
    if s.waiting.isSome then none
    else some <| s.received id data (s.manager.processChunk id data)
  | .cancel id io    =>
    if s.waiting.isSome then none
    else
      let (_, manager, storage) := s.manager.cancelDownload s.storage io id
      some { s with manager, storage }
  | .complete id     =>
    if s.waiting.isSome then none
    else match s.manager.downloads.lookup id with
    | some download =>
      let writer := download.writer.send none |>.getD download.writer
      some { s with manager := s.manager.put { download with writer }, waiting := some id }
    | none => some s
  | .finish io       => s.finish io |>.map Prod.snd
  | .turn id faults  => s.turned id faults
  | .detached i faults => do
    let writer ← s.storage.detached[i]?
    let (writer, disk) ← writer.turn s.storage.disk faults
    some { s with storage := ⟨disk, s.storage.detached.set i writer⟩ }

def new (downloadsDir : PosixPath.Path) (disk : Disk) : Calls where
  manager := .new downloadsDir
  storage := ⟨disk, []⟩
  waiting := none
  opened _ := ⟨0, 0⟩
  accepted _ := []
  writes _ := []
  finished _ := none

-- Whatever is on the disk already.
def system : System Calls Move :=
  .ofFn (∃ downloadsDir disk, · = new downloadsDir disk) step

end Calls
end Parsip
