import Parsip.Resource.Store

-- `hash_file` read by read.

namespace Parsip

-- A file that could be opened. `contents` is none where there are none, as in a directory. The reads
-- return the `pieces`, and then the last one returns nothing or fails.
structure File where
  metadata : Except Error UInt64
  contents : Option Bytes
  pieces : List Bytes
  failure : Option Error
  bounded : ∀ piece ∈ pieces, piece ≠ [] ∧ piece.length ≤ 8192
  honest : pieces.flatten <+: contents.getD []
  complete : failure = none → contents = some pieces.flatten

namespace File

def reads (f : File) : List (Except Error Bytes) :=
  f.pieces.map .ok ++ [f.failure.elim (.ok []) .error]

end File

namespace LocalResourceStore

-- What the loop in `hash_file` hands to the hasher.
def hashed : List (Except Error Bytes) → Bytes
  | .ok buffer :: reads => if buffer.length = 0 then [] else buffer ++ hashed reads
  | .error _ :: _ | []  => []

variable [Crypto]

-- The result, and the store after the call.
def hashFileFrom (s : LocalResourceStore) (path : PosixPath.Path) (file : Except Error File) :
    Outcome (Except Error (ResourceId × ResourceInfo) × LocalResourceStore) :=
  match file with
  | .error e => .ok (.error e, s)
  | .ok file =>
    match file.metadata with
    | .error e => .ok (.error e, s)
    | .ok size =>
      let id := ⟨Crypto.sha256 (hashed file.reads)⟩
      match PosixPath.fileName path with
      | some name =>
        let info := ⟨id, String.ofList name, size⟩
        .ok (.ok (id, info), ⟨s.index.insert id (path, info)⟩)
      | none => .error .panic

def addResourceFrom (s : LocalResourceStore) (path : PosixPath.Path) (file : Except Error File) :
    Outcome (Except Error (ResourceId × ResourceInfo) × LocalResourceStore) :=
  s.hashFileFrom path file

end LocalResourceStore
end Parsip
