import Parsip.Library.Transition
import Parsip.Protocol.Deserialize

-- `parse_resource_list` turn by turn on a machine whose `usize` has 64 bits. The other parsers compute no
-- offset.

namespace Parsip.Machine

open Transition

-- `a + b` and `a - b`, which panic when they overflow.
def add (a b : Nat) : Outcome Nat :=
  if a + b < 2 ^ 64 then .ok (a + b) else .error .panic

def sub (a b : Nat) : Outcome Nat :=
  if b ≤ a then .ok (a - b) else .error .panic

def readArray (n : Nat) (p : Bytes) (off : Nat) : Outcome (U8Array n) := do
  toArray n (← slice p off (← add off n))

def readU32 (p : Bytes) (off : Nat) : Outcome UInt32 := do
  return .ofNat <| BigEndian.ofBytes (← readArray 4 p off).toList

def readU64 (p : Bytes) (off : Nat) : Outcome UInt64 := do
  return .ofNat <| BigEndian.ofBytes (← readArray 8 p off).toList

def readName (p : Bytes) (off nl : Nat) : Outcome String := do
  match fromUtf8 (← slice p off (← add off nl)) with
  | some name => return name
  | none      => .error (invalid "Bad UTF8")

-- `if off + n > p.len() { return Err(..) }`
def check (p : Bytes) (off n : Nat) : Outcome Unit := do
  if (← add off n) > p.length then .error (invalid "Bad List")

def parseResource (p : Bytes) (off : Nat) : Outcome (ResourceInfo × Nat) := do
  check p off 32
  let id ← readArray 32 p off
  let off ← add off 32
  check p off 4
  let nl := (← readU32 p off).toNat
  let off ← add off 4
  check p off nl
  let name ← readName p off nl
  let off ← add off nl
  check p off 8
  let size ← readU64 p off
  return (⟨⟨id⟩, name, size⟩, ← add off 8)

-- The loop between two turns. `capacity` is what `Vec::with_capacity` has been asked for.
structure ListLoop where
  requestId : UInt32
  capacity : Nat
  off : Nat
  remaining : Nat
  resources : List ResourceInfo

-- Everything before the loop.
def start (p : Bytes) : Outcome ListLoop := do
  let off := 0
  check p off 4
  let requestId ← readU32 p off
  let off ← add off 4
  check p off 4
  let count := (← readU32 p off).toNat
  let off ← add off 4
  if count > (← sub p.length off) / 44 then .error (invalid "Bad List")
  return ⟨requestId, count, off, count, []⟩

def ListLoop.turn (p : Bytes) (l : ListLoop) : Outcome ListLoop := do
  let (resource, off) ← parseResource p l.off
  return { l with off, remaining := l.remaining - 1, resources := l.resources ++ [resource] }

def turns (p : Bytes) : Nat → ListLoop → Outcome ListLoop
  | 0, l     => .ok l
  | n + 1, l => do turns p n (← l.turn p)

def parseResourceList (p : Bytes) : Outcome Message := do
  let l ← start p
  let l ← turns p l.remaining l
  return .resourceList l.requestId l.resources

def tryFrom (frame : Frame) : Outcome Message :=
  if frame.messageType = 4 then parseResourceList frame.payload else Message.tryFrom frame

-- The turns of the loop.
def system (p : Bytes) : System ListLoop Unit where
  init l := start p = .ok l
  step l _ l' := 0 < l.remaining ∧ l.turn p = .ok l'

end Parsip.Machine
