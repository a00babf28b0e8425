import Parsip.Identity

-- Where the identity of a daemon comes from when it starts.

namespace Parsip

-- What a write that fails leaves of the file: what it was, or the first bytes of the new content.
inductive WriteFailure
  | unopened
  | cut (n : Fin 32)
deriving DecidableEq

-- What one start meets with, and the bytes that it gets from `random_bytes_32`.
structure Startup where
  unreadable : Bool
  random : U8Array 32
  write : Option WriteFailure

namespace Identity

variable [Crypto]

-- `file` is the content of the file, if there is one.
def generate (s : Startup) (file : Option Bytes) : Identity × Option Bytes :=
  let file :=
    match s.write with
    | none           => some s.random.toList
    | some .unopened => file
    | some (.cut n)  => some <| s.random.toList.take n
  (.ofSeed s.random, file)

def loadOrGenerate (s : Startup) (file : Option Bytes) : Identity × Option Bytes :=
  match s.unreadable, file with
  | false, some content => if h : content.length = 32 then (.ofSeed ⟨content, h⟩, file) else generate s file
  | _, _                => generate s file

end Identity
end Parsip
