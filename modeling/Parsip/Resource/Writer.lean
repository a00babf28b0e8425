import Parsip.Library.FileSystem
import Parsip.Library.PosixPath
import Parsip.Protocol.Basic

namespace Parsip

abbrev Disk := FileSystem PosixPath.Place

-- A write that fails after `written` bytes.
structure WriteFault where
  written : Nat
  error : Error
deriving DecidableEq

-- What goes wrong in one turn of a writer thread: while its buffer is flushed, while data is written
-- past the buffer, and while the buffer is dropped.
structure WriteFaults where
  flush : Option WriteFault
  direct : Option WriteFault
  drop : Option WriteFault
deriving DecidableEq

def WriteFaults.none : WriteFaults :=
  ⟨.none, .none, .none⟩

def Disk.writeAll (fs : Disk) (h : FileHandle) (data : Bytes) :
    Option WriteFault → Except Error Unit × Disk × FileHandle
  | none       => (.ok (), fs.write h data)
  | some fault => (.error fault.error, fs.write h <| data.take fault.written)

-- The thread that `start_download` spawns: its channel, its `BufWriter` and, in the end, its result.
-- In the channel `none` asks for an end; `connected` says whether the sender is still there.
structure Writer where
  queue : List (Option Bytes)
  connected : Bool
  file : FileHandle
  buffer : Bytes
  exit : Option (Except Error Unit)

namespace Writer

-- 256KB
def capacity : Nat :=
  256 * 1024

def new (file : FileHandle) : Writer where
  queue := []
  connected := true
  file := file
  buffer := []
  exit := none

-- `Sender::send`, which fails after the thread has dropped the receiver.
def send (w : Writer) (cmd : Option Bytes) : Option Writer :=
  if w.exit.isSome then none else some { w with queue := w.queue ++ [cmd] }

-- `BufWriter::flush`
def flush (w : Writer) (fs : Disk) (fault : Option WriteFault) : Except Error Unit × Writer × Disk :=
  if w.buffer = [] then (.ok (), w, fs)
  else
    let (result, fs, file) := fs.writeAll w.file w.buffer fault
    (result, { w with file, buffer := fault.elim [] (w.buffer.drop ·.written) }, fs)

-- The flush before data that does not fit into the buffer.
def makeRoom (w : Writer) (fs : Disk) (data : Bytes) (fault : Option WriteFault) :
    Except Error Unit × Writer × Disk :=
  if capacity < w.buffer.length + data.length then w.flush fs fault else (.ok (), w, fs)

-- `BufWriter::write_all`
def writeAll (w : Writer) (fs : Disk) (data : Bytes) (faults : WriteFaults) :
    Except Error Unit × Writer × Disk :=
  if w.buffer.length + data.length < capacity then
    (.ok (), { w with buffer := w.buffer ++ data }, fs)
  else match w.makeRoom fs data faults.flush with
  | (.error e, w, fs) => (.error e, w, fs)
  | (.ok (), w, fs)   =>
    if capacity ≤ data.length then
      let (result, fs, file) := fs.writeAll w.file data faults.direct
      (result, { w with file }, fs)
    else (.ok (), { w with buffer := w.buffer ++ data }, fs)

-- The thread returns. A `BufWriter` writes what it still holds when it is dropped, and says nothing
-- when that fails.
def leave (w : Writer) (fs : Disk) (result : Except Error Unit) (fault : Option WriteFault) :
    Writer × Disk :=
  let (_, w, fs) := w.flush fs fault
  ({ w with queue := [], exit := some result }, fs)

-- One turn of the thread's loop.
def turn (w : Writer) (fs : Disk) (faults : WriteFaults) : Option (Writer × Disk) :=
  match w.exit, w.queue with
  | some _, _                  => none
  | none, some data :: queue   =>
    match { w with queue }.writeAll fs data faults with
    | (.ok (), w, fs)   => some (w, fs)
    | (.error e, w, fs) => some <| w.leave fs (.error e) faults.drop
  | none, none :: queue        =>
    let (result, w, fs) := { w with queue }.flush fs faults.flush
    some <| w.leave fs result faults.drop
  | none, []                   =>
    if w.connected then none else some <| w.leave fs (.ok ()) faults.drop

-- `n` turns, or as many as there are.
def turns (w : Writer) (fs : Disk) (faults : Nat → WriteFaults) : Nat → Writer × Disk
  | 0     => (w, fs)
  | n + 1 =>
    match w.turn fs (faults 0) with
    | some (w, fs) => turns w fs (faults <| · + 1) n
    | none         => (w, fs)

-- `JoinHandle::join` after the thread has been asked for an end: every turn takes an item from the
-- channel or ends the thread.
def join (w : Writer) (fs : Disk) (faults : Nat → WriteFaults) : Except Error Unit × Disk :=
  let (w, fs) := w.turns fs faults w.queue.length
  (w.exit.getD (.ok ()), fs)

end Writer
end Parsip
