import Parsip.Discovery.Broadcast

-- What the kernel writes to `/proc/net/fib_trie`.

namespace Parsip

open Text

namespace FibTrie

def dotted : List UInt8 → List Char
  | []      => []
  | [b]     => (toString b.toNat).toList
  | b :: bs => (toString b.toNat).toList ++ '.' :: dotted bs

structure Word where
  chars : List Char
  solid : ∀ c ∈ chars, ¬isWhitespace c

-- `/32 host LOCAL`
structure Route where
  indent : Nat
  prefixLen : Nat
  scope : Word
  type : Word

structure Leaf where
  indent : Nat
  addr : Ipv4Addr
  routes : List Route
  reached : routes ≠ []

-- The numbers of an inner node are its prefix and what is said about its children.
inductive Item
  | table (name : Word)
  | node (indent : Nat) (addr : Ipv4Addr) (len bits full empty : Nat)
  | leaf (l : Leaf)

def Route.line (r : Route) : List Char :=
  List.replicate r.indent ' ' ++ '/' :: (toString r.prefixLen).toList ++ ' ' :: r.scope.chars ++ ' ' :: r.type.chars

def Item.lines : Item → List (List Char)
  | table name => [name.chars ++ [':']]
  | node indent addr len bits full empty =>
    let number n := ' ' :: (toString n).toList
    [List.replicate indent ' ' ++ "+-- ".toList ++ dotted addr.toList ++ '/' :: (toString len).toList ++ number bits ++
      number full ++ number empty]
  | leaf l => (List.replicate l.indent ' ' ++ "|-- ".toList ++ dotted l.addr.toList) :: l.routes.map Route.line

def text (items : List Item) : List Char :=
  items.flatMap Item.lines |>.flatMap (· ++ ['\n'])

-- The addresses of this host.
def Route.IsLocal (r : Route) : Prop :=
  r.prefixLen = 32 ∧ r.scope.chars = "host".toList ∧ r.type.chars = "LOCAL".toList

def Local (items : List Item) (ip : Ipv4Addr) : Prop :=
  ∃ l, .leaf l ∈ items ∧ l.addr = ip ∧ ∃ r ∈ l.routes, r.IsLocal

end FibTrie
end Parsip
