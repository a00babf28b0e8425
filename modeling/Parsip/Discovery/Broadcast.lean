import Parsip.Library.Text
import Parsip.Protocol.Basic

-- Where a scan sends its datagram to.

namespace Parsip

abbrev Ipv4Addr := U8Array 4

namespace Ipv4Addr

-- `Ipv4Addr::BROADCAST`
def broadcast : Ipv4Addr :=
  ⟨[255, 255, 255, 255], rfl⟩

def isLoopback (ip : Ipv4Addr) : Bool :=
  ip.head = 127

def isUnspecified (ip : Ipv4Addr) : Bool :=
  ip.toList = [0, 0, 0, 0]

-- A number of up to three digits, without zeros in front.
def readNumber (s : List Char) : Option UInt8 :=
  let n := Nat.ofDigitChars 10 s 0
  if s ≠ [] ∧ s.all Char.isDigit ∧ s.length ≤ 3 ∧ (s.head? = some '0' → s.length = 1) ∧ n < 256 then some (.ofNat n)
  else none

-- `parse::<Ipv4Addr>`
def parse (s : List Char) : Option Ipv4Addr :=
  match s.splitOn '.' with
  | [a, b, c, d] =>
    match readNumber a, readNumber b, readNumber c, readNumber d with
    | some a, some b, some c, some d => some ⟨[a, b, c, d], rfl⟩
    | _, _, _, _                     => none
  | _ => none

-- The broadcast address of the /24 network that an address is in.
def directed (ip : Ipv4Addr) : Ipv4Addr :=
  ⟨ip.toList.take 3 ++ [255], by simp⟩

end Ipv4Addr

namespace Discovery

open Ipv4Addr Text

-- `if !addrs.contains(&broadcast) { addrs.push(broadcast) }`
def push (addrs : List Ipv4Addr) (addr : Ipv4Addr) : List Ipv4Addr :=
  if addr ∈ addrs then addrs else addrs ++ [addr]

-- The loop over the lines of `/proc/net/fib_trie`, between two lines.
structure TrieLoop where
  currentLocal : Option Ipv4Addr
  addrs : List Ipv4Addr
deriving DecidableEq

namespace TrieLoop

-- The address on a line, if there is one that counts.
def address (trimmed : List Char) : Option Ipv4Addr :=
  (stripPrefix "|-- ".toList trimmed).or (stripPrefix "+-- ".toList trimmed) |>.bind fun s =>
    (parse <| trim s).filter fun ip => !ip.isLoopback && !ip.isUnspecified

def turn (l : TrieLoop) (line : List Char) : TrieLoop :=
  let trimmed := trim line
  let currentLocal := (address trimmed).or l.currentLocal
  if trimmed = "LOCAL".toList then ⟨none, currentLocal.elim l.addrs fun ip => push l.addrs ip.directed⟩
  else { l with currentLocal }

end TrieLoop

-- `fibTrie` is none if the file cannot be read, and `localIp` is the address that a socket towards 8.8.8.8 is
-- bound to, if there is one.
def collectBroadcastAddrs (fibTrie : Option (List Char)) (localIp : Option Ipv4Addr) : List Ipv4Addr :=
  let addrs := fibTrie.elim [broadcast] fun entries => ((lines entries).foldl TrieLoop.turn ⟨none, [broadcast]⟩).addrs
  if addrs.length = 1 then
    match localIp with
    | some ip => if ip.isLoopback then addrs else push addrs ip.directed
    | none    => addrs
  else addrs

end Discovery
end Parsip
