import Parsip.Identity
import Parsip.Library.PosixPath
import Parsip.Library.Table

namespace Parsip

-- A file that could be opened. `contents` is what the reads return before the first one that fails or
-- returns nothing.
structure OpenedFile where
  metadata : Except Error UInt64
  contents : Bytes

-- An entry of a directory. Its own metadata is that of a link, not of what the link leads to.
structure DirEntry where
  name : List Char
  plain : PosixPath.IsName name
  isFile : Except Error Bool
  file : Except Error OpenedFile

structure LocalResourceStore where
  index : Table ResourceId (PosixPath.Path × ResourceInfo)
deriving DecidableEq

namespace LocalResourceStore

-- `hash_file` on what `File::open` returns for the path. A path without a last component makes it
-- panic.
def hashFile [Crypto] (s : LocalResourceStore) (path : PosixPath.Path)
    (file : Except Error OpenedFile) : Outcome ((ResourceId × ResourceInfo) × LocalResourceStore) :=
  match file with
  | .error e => .error (.error e)
  | .ok file =>
    match file.metadata with
    | .error e => .error (.error e)
    | .ok size =>
      let id := ⟨Crypto.sha256 file.contents⟩
      match PosixPath.fileName path with
      | some name =>
        let info := ⟨id, String.ofList name, size⟩
        .ok ((id, info), ⟨s.index.insert id (path, info)⟩)
      | none => .error .panic

-- One turn of the loop over what `read_dir` returns.
def scanEntry [Crypto] (sharedDir : PosixPath.Path) (s : LocalResourceStore) :
    Except Error DirEntry → Outcome LocalResourceStore
  | .ok entry =>
    match entry.isFile with
    | .ok true =>
      match s.hashFile (PosixPath.join sharedDir entry.name) entry.file with
      | .ok (_, s)        => .ok s
      | .error (.error _) => .ok s
      | .error .panic     => .error .panic
    | .ok false | .error _ => .ok s
  | .error _ => .ok s

def new [Crypto] (sharedDir : PosixPath.Path) (entries : Except Error (List (Except Error DirEntry))) :
    Outcome LocalResourceStore :=
  match entries with
  | .ok entries => entries.foldlM (scanEntry sharedDir) ⟨∅⟩
  | .error _    => .ok ⟨∅⟩

def addResource [Crypto] (s : LocalResourceStore) (path : PosixPath.Path)
    (file : Except Error OpenedFile) : Outcome ((ResourceId × ResourceInfo) × LocalResourceStore) :=
  s.hashFile path file

def listResources (s : LocalResourceStore) : List ResourceInfo :=
  s.index.values.map Prod.snd

def getPath (s : LocalResourceStore) (id : ResourceId) : Option PosixPath.Path :=
  s.index.lookup id |>.map Prod.fst

end LocalResourceStore
end Parsip
