import Mathlib.Data.List.Basic

-- Decoding UTF-8 that may be broken. What cannot be decoded is replaced, one U+FFFD for each longest part
-- that a character could begin with, and one for each other byte.

namespace Utf8

-- The length of a character, by its first byte.
def charWidth (b : UInt8) : Nat :=
  if b < 0x80 then 1
  else if 0xC2 ≤ b ∧ b ≤ 0xDF then 2
  else if 0xE0 ≤ b ∧ b ≤ 0xEF then 3
  else if 0xF0 ≤ b ∧ b ≤ 0xF4 then 4
  else 0

def isContinuation (b : UInt8) : Bool :=
  0x80 ≤ b ∧ b ≤ 0xBF

-- Whether the second byte of a character of three or four bytes fits the first one.
def fits : UInt8 → UInt8 → Bool
  | 0xE0, c => 0xA0 ≤ c ∧ c ≤ 0xBF
  | 0xED, c => 0x80 ≤ c ∧ c ≤ 0x9F
  | 0xF0, c => 0x90 ≤ c ∧ c ≤ 0xBF
  | 0xF4, c => 0x80 ≤ c ∧ c ≤ 0x8F
  | _, c    => isContinuation c

-- How many bytes of a character there are at the front, and whether they are all of it. Behind the end there
-- are zeros, which continue nothing.
def inspect (bs : List UInt8) : Nat × Bool :=
  let get i := bs.getD i 0
  match charWidth (get 0) with
  | 1 => (1, true)
  | 2 => if isContinuation (get 1) then (2, true) else (1, false)
  | 3 =>
    if !fits (get 0) (get 1) then (1, false)
    else if isContinuation (get 2) then (3, true)
    else (2, false)
  | 4 =>
    if !fits (get 0) (get 1) then (1, false)
    else if !isContinuation (get 2) then (2, false)
    else if isContinuation (get 3) then (4, true)
    else (3, false)
  | _ => (1, false)

def decode (bs : List UInt8) : Option String :=
  String.fromUTF8? ⟨bs.toArray⟩

-- At most `n` characters.
def replaceInvalid : Nat → List UInt8 → String
  | 0, _ | _, [] => ""
  | n + 1, bs    =>
    let (k, whole) := inspect bs
    (if whole then (decode (bs.take k)).getD "" else "\uFFFD") ++ replaceInvalid n (bs.drop k)

def decodeLossy (bs : List UInt8) : String :=
  match decode bs with
  | some s => s
  | none   => replaceInvalid bs.length bs

-- Nothing is lost of what can be decoded.
theorem decodeLossy_eq {bs : List UInt8} {s : String} (h : decode bs = some s) : decodeLossy bs = s := by
  rw [decodeLossy, h]

example : decodeLossy [0x61, 0xE2, 0x82, 0xF0, 0x9F, 0x98, 0x80, 0xFF] = "a\uFFFD😀\uFFFD" := by decide +kernel

end Utf8
