import Parsip.Discovery.FibTrie

-- Which networks a scan reaches.

namespace Parsip

open Text

namespace FibTrie

variable {items : List Item} {c : Char} {s s' line : List Char} {n : Nat}

-- Text without line breaks.
def Plain (s : List Char) : Prop :=
  ∀ c ∈ s, ¬isBreak c

namespace Plain

@[simp]
theorem nil : Plain [] :=
  nofun

@[simp]
theorem cons : Plain (c :: s) ↔ ¬isBreak c ∧ Plain s :=
  List.forall_mem_cons

@[simp]
theorem append : Plain (s ++ s') ↔ Plain s ∧ Plain s' :=
  List.forall_mem_append

@[simp]
theorem replicate : Plain (List.replicate n ' ') := by
  intro c hc
  cases List.eq_of_mem_replicate hc
  decide

@[simp]
theorem number : Plain (Nat.toDigits 10 n) := by
  intro c hc
  have hd := Nat.isDigit_of_mem_toDigits (by decide) (by decide) hc
  rw [isBreak, decide_eq_true_iff]
  rintro (rfl | rfl) <;> contradiction

@[simp]
theorem dotted {bs : List UInt8} : Plain (dotted bs) := by
  fun_induction FibTrie.dotted bs
  case case1 => exact nil
  case case2 => simp
  case case3 hi => simp [hi, isBreak]

@[simp]
theorem word {w : Word} : Plain w.chars := by
  intro c hc hb
  rw [isBreak, decide_eq_true_iff] at hb
  obtain rfl | rfl := hb <;> exact w.solid _ hc rfl

theorem route {r : Route} : Plain r.line := by
  simp [Route.line, isBreak]

theorem item {i : Item} (h : line ∈ i.lines) : Plain line := by
  cases i
  case table =>
    cases List.mem_singleton.mp h
    simp [isBreak]
  case node =>
    cases List.mem_singleton.mp h
    simp [isBreak]
  case leaf l =>
    obtain rfl | h := List.mem_cons.mp h
    case inl => simp [isBreak]
    case inr =>
      obtain ⟨r, _, rfl⟩ := List.mem_map.mp h
      exact route

end Plain

-- The text has the lines that have been written.
theorem lines_text : lines (text items) = items.flatMap Item.lines := by
  have hp : ∀ line ∈ items.flatMap Item.lines, Plain line := by
    intro line h
    obtain ⟨i, _, h⟩ := List.mem_flatMap.mp h
    exact .item h
  rw [text]
  generalize items.flatMap Item.lines = ls at hp
  induction ls
  case nil => rfl
  case cons line ls hi =>
    obtain ⟨hl, hp⟩ : Plain line ∧ ∀ line ∈ ls, Plain line := List.forall_mem_cons.mp hp
    rw [List.flatMap_cons, List.append_assoc, List.singleton_append, lines_append hl, hi hp]

theorem trim_ne (h : ¬isWhitespace c) (hc : c ≠ 'L') : trim (List.replicate n ' ' ++ c :: s) ≠ "LOCAL".toList := by
  obtain ⟨s', hs⟩ := @trim_cons s c h
  rw [trim_indent, hs]
  exact fun he => hc (List.cons.inj he).left

-- No line says `LOCAL` only.
theorem trim_line {i : Item} (h : line ∈ i.lines) : trim line ≠ "LOCAL".toList := by
  cases i
  case table name =>
    cases List.mem_singleton.mp h
    obtain ⟨s, hs⟩ := @trim_concat name.chars ':' (by decide)
    rw [hs, show "LOCAL".toList = "LOCA".toList ++ ['L'] from rfl]
    exact fun he => absurd (List.append_inj_right' he rfl) (by decide)
  case node =>
    cases List.mem_singleton.mp h
    simp only [List.append_assoc]
    exact trim_ne (c := '+') (by decide) (by decide)
  case leaf l =>
    obtain rfl | h := List.mem_cons.mp h
    case inl =>
      rw [List.append_assoc]
      exact trim_ne (c := '|') (by decide) (by decide)
    case inr =>
      obtain ⟨r, _, rfl⟩ := List.mem_map.mp h
      simp only [Route.line, List.append_assoc]
      exact trim_ne (c := '/') (by decide) (by decide)

end FibTrie

namespace Discovery

open Ipv4Addr FibTrie

variable {items : List Item} {localIp : Option Ipv4Addr} {addr : Ipv4Addr} {l : TrieLoop} {ls : List (List Char)}

theorem TrieLoop.foldl_turn (h : ∀ line ∈ ls, trim line ≠ "LOCAL".toList) : (ls.foldl turn l).addrs = l.addrs := by
  induction ls generalizing l
  case nil => rfl
  case cons line ls hi =>
    obtain ⟨hl, h⟩ : trim line ≠ _ ∧ ∀ line ∈ ls, trim line ≠ _ := List.forall_mem_cons.mp h
    rw [List.foldl_cons, hi h, turn, if_neg hl]

-- The address that the fallback adds.
def Fallback (localIp : Option Ipv4Addr) (addr : Ipv4Addr) : Prop :=
  ∃ ip, localIp = some ip ∧ ¬ip.isLoopback ∧ addr = ip.directed

-- Nothing is found in what the kernel writes, and then there is what the fallback finds.
theorem collectBroadcastAddrs_text :
    collectBroadcastAddrs (some <| text items) localIp = [broadcast] ∧ (∀ addr, Fallback localIp addr → addr = broadcast) ∨
    ∃ addr, Fallback localIp addr ∧ addr ≠ broadcast ∧
      collectBroadcastAddrs (some <| text items) localIp = [broadcast, addr] := by
  have hl : ∀ line ∈ lines (text items), trim line ≠ "LOCAL".toList := by
    intro line h
    rw [lines_text] at h
    obtain ⟨i, _, h⟩ := List.mem_flatMap.mp h
    exact trim_line h
  simp only [collectBroadcastAddrs, Option.elim_some, TrieLoop.foldl_turn hl, List.length_singleton, if_true]
  cases localIp
  case none => exact .inl ⟨rfl, fun _ ⟨_, h, _⟩ => nomatch h⟩
  case some ip =>
    cases hi : ip.isLoopback
    case true =>
      refine .inl ⟨by simp [hi], ?_⟩
      rintro _ ⟨_, h, hn, _⟩
      cases h
      contradiction
    case false =>
      have hf : Fallback (some ip) ip.directed := ⟨ip, rfl, by simp [hi], rfl⟩
      by_cases hb : ip.directed = broadcast
      case pos =>
        refine .inl ⟨by simp [hi, push, hb], ?_⟩
        rintro _ ⟨_, h, _, rfl⟩
        cases h
        exact hb
      case neg => exact .inr ⟨_, hf, hb, by simp [hi, push, hb]⟩

-- What the addresses are to be: the networks of all addresses of this host, and of no others. Where there is
-- nothing else, there may be the fallback.
structure Reaches (items : List Item) (localIp : Option Ipv4Addr) (addrs : List Ipv4Addr) : Prop where
  covers : ∀ ip, Local items ip → ¬ip.isLoopback → ip.directed ∈ addrs
  only : ∀ addr ∈ addrs, addr = broadcast ∨ (∃ ip, Local items ip ∧ addr = ip.directed) ∨
    Fallback localIp addr ∧ addrs = [broadcast, addr]
  nodup : addrs.Nodup

-- Since nothing is found, the only network that is reached is the one of the fallback.
theorem broadcastScan_reaches_iff : Reaches items localIp (collectBroadcastAddrs (some <| text items) localIp) ↔
    ∀ ip, Local items ip → ¬ip.isLoopback → ip.directed = broadcast ∨ Fallback localIp ip.directed := by
  obtain ⟨hc, hf⟩ | ⟨addr, hf, hb, hc⟩ := @collectBroadcastAddrs_text items localIp <;> rw [hc]
  case inl =>
    constructor
    case mp  => exact fun r ip hl hi => .inl <| List.mem_singleton.mp <| r.covers ip hl hi
    case mpr =>
      intro h
      refine ⟨fun ip hl hi => List.mem_singleton.mpr ?_, fun addr ha => ?_, List.nodup_singleton _⟩
      case refine_1 => exact (h ip hl hi).elim id (hf _)
      case refine_2 => exact .inl <| List.mem_singleton.mp ha
  case inr =>
    constructor
    case mp =>
      intro r ip hl hi
      obtain h | h := List.mem_cons.mp <| r.covers ip hl hi
      case inl => exact .inl h
      case inr => exact .inr <| List.mem_singleton.mp h ▸ hf
    case mpr =>
      intro h
      refine ⟨fun ip hl hi => ?_, fun addr' ha => ?_, by simp [Ne.symm hb]⟩
      case refine_1 =>
        obtain h | ⟨_, hs, _, hd⟩ := h ip hl hi
        case inl => exact h ▸ List.mem_cons_self ..
        case inr =>
          obtain ⟨_, hs', _, rfl⟩ := hf
          cases hs.symm.trans hs'
          exact hd ▸ List.mem_cons_of_mem _ (List.mem_singleton_self _)
      case refine_2 =>
        obtain h | h := List.mem_cons.mp ha
        case inl => exact .inl h
        case inr =>
          cases List.mem_singleton.mp h
          exact .inr <| .inr ⟨hf, rfl⟩

-- A host in two networks, of which the fallback knows one.
def localRoute : Route :=
  ⟨11, 32, ⟨"host".toList, List.any_eq_false.mp (by decide)⟩, ⟨"LOCAL".toList, List.any_eq_false.mp (by decide)⟩⟩

def twoHomed : List Item := [
  .table ⟨"Local".toList, List.any_eq_false.mp (by decide)⟩,
  .node 2 ⟨[0, 0, 0, 0], rfl⟩ 0 3 0 5,
  .leaf ⟨5, ⟨[10, 0, 0, 5], rfl⟩, [localRoute], nofun⟩,
  .leaf ⟨5, ⟨[192, 168, 0, 50], rfl⟩, [localRoute], nofun⟩
]

theorem twoHomed_not_reaches : ¬Reaches twoHomed (some ⟨[192, 168, 0, 50], rfl⟩)
    (collectBroadcastAddrs (some <| text twoHomed) (some ⟨[192, 168, 0, 50], rfl⟩)) := by
  intro r
  have hl : Local twoHomed ⟨[10, 0, 0, 5], rfl⟩ :=
    ⟨⟨5, ⟨[10, 0, 0, 5], rfl⟩, [localRoute], nofun⟩, by simp [twoHomed], rfl, localRoute, List.mem_singleton_self _,
      rfl, rfl, rfl⟩
  exact absurd (r.covers _ hl (by decide)) (by decide +kernel)

end Discovery
end Parsip

