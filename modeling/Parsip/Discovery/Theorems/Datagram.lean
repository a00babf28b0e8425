import Parsip.Discovery.Datagram
import Parsip.Protocol.Theorems.Message

-- Who is told about whom when datagrams are received.

namespace Parsip.Discovery

-- What a datagram says.
structure Announcement where
  isRequest : Bool
  tcpPort : UInt16
  peerId : PeerId
  nickname : String

namespace Announcement

-- It is read off the bytes that have been received.
def parse (received : Bytes) : Option Announcement :=
  if h : 40 ≤ received.length then
    if received.take 6 = magicRequest ∨ received.take 6 = magicResponse then some {
      isRequest := received.take 6 = magicRequest
      tcpPort   := .ofNat <| BigEndian.ofBytes <| (received.take 8).drop 6
      peerId    := ⟨(received.take 40).drop 8, by simp; omega⟩
      nickname  := if received.length > 40 then Utf8.decodeLossy (received.drop 40) else "Unknown" }
    else none
  else none

end Announcement

def answer (x : Discovery) (src : SocketAddr) (a : Announcement) : List Output :=
  if a.peerId ≠ x.myId then
    (if a.isRequest then [.sendTo x.response { src with port := discoveryPort }] else []) ++
      [.event <| .discovered a.peerId { src with port := a.tcpPort } a.nickname]
  else []

variable {x y : Discovery} {buf : Bytes} {amt : Nat} {src : SocketAddr}

theorem slice_take {lo hi : Nat} (h : amt ≤ buf.length) (hl : lo ≤ hi) (hh : hi ≤ amt) :
    slice buf lo hi = .ok (((buf.take amt).take hi).drop lo) := by
  rw [slice, if_pos ⟨hl, by omega⟩, List.take_take, Nat.min_eq_left hh]

theorem readArray_take {n off : Nat} (h : amt ≤ buf.length) (ho : off + n ≤ amt) :
    ∃ v : U8Array n, readArray n buf off = .ok v ∧ v.toList = ((buf.take amt).take (off + n)).drop off := by
  have hs := slice_take h (Nat.le_add_right off n) ho
  refine ⟨⟨((buf.take amt).take (off + n)).drop off, by simp; omega⟩, ?_, rfl⟩
  simp only [readArray, hs]
  exact dif_pos _

-- Only what has been received matters, and it is never read past its end.
theorem handle_eq (h : amt ≤ buf.length) :
    x.handle buf amt src = .ok ((Announcement.parse (buf.take amt)).elim [] (x.answer src)) := by
  have hl : (buf.take amt).length = amt := by simp [h]
  by_cases ha : 40 ≤ amt
  case neg =>
    rw [handle, if_neg ha, Announcement.parse, dif_neg (by rwa [hl])]
    rfl
  case pos =>
    have hm : slice buf 0 6 = .ok ((buf.take amt).take 6) := slice_take h (by omega) (by omega)
    obtain ⟨port, hp, hpl⟩ : ∃ v : U8Array 2, readArray 2 buf 6 = .ok v ∧ _ := readArray_take h (by omega)
    obtain ⟨id, hi, hil⟩ : ∃ v : U8Array 32, readArray 32 buf 8 = .ok v ∧ _ := readArray_take h (by omega)
    have hn : slice buf 40 amt = .ok ((buf.take amt).drop 40) := by
      rw [slice_take h ha (Nat.le_refl _), List.take_take, Nat.min_self]
    rw [handle, if_pos ha, Announcement.parse, dif_pos (by rwa [hl])]
    simp only [hm, hp, hi, hn, readU16, hl]
    have hid : (⟨⟨((buf.take amt).take 40).drop 8, by simp; omega⟩⟩ : PeerId) = ⟨id⟩ :=
      congrArg PeerId.mk <| Subtype.ext hil.symm
    simp only [bind, Except.bind, pure, Except.pure, Functor.map, Except.map, hpl, hid, PeerId.fromBytes]
    by_cases hk : (buf.take amt).take 6 = magicRequest ∨ (buf.take amt).take 6 = magicResponse
    case neg => simp [hk]
    case pos => by_cases hx : 40 < amt <;> by_cases he : (⟨id⟩ : PeerId) = x.myId <;> simp [answer, hk, hx, he]

theorem receive_eq {buf : Buffer} {datagram : Bytes} : (x.receive buf datagram src).snd =
    .ok ((Announcement.parse (datagram.take 1024)).elim [] (x.answer src)) := by
  have hb : (recvFrom buf datagram).fst.toList.length = 1024 := (recvFrom buf datagram).fst.property
  have ht : (recvFrom buf datagram).fst.toList.take (recvFrom buf datagram).snd = datagram.take 1024 :=
    List.take_left' <| by simp [recvFrom, Nat.min_comm]
  rw [← ht]
  exact handle_eq <| (Nat.min_le_right ..).trans_eq hb.symm

theorem length_payload {magic : Bytes} (hm : magic.length = 6) :
    (x.payload magic).length = 40 + (nameBytes x.myNickname).length := by
  simp [payload, hm, beBytes16, PeerId.toBytes]
  omega

theorem length_nameBytes_pos {s : String} (h : s ≠ "") : 0 < (nameBytes s).length := by
  refine List.length_pos_iff.mpr fun hb => h ?_
  have hs := fromUtf8_nameBytes s
  rw [hb] at hs
  exact Option.some.inj <| hs.symm.trans <| fromUtf8_nameBytes ""

-- What has been written is read off again.
theorem parse_payload {magic : Bytes} (hm : magic = magicRequest ∨ magic = magicResponse) (hn : x.myNickname ≠ "") :
    Announcement.parse (x.payload magic) = some ⟨magic = magicRequest, x.tcpListenPort, x.myId, x.myNickname⟩ := by
  have hl : magic.length = 6 := by rcases hm with rfl | rfl <;> rfl
  have hp : (beBytes16 x.tcpListenPort).length = 2 := BigEndian.length_toBytes
  have hi : x.myId.toBytes.length = 32 := x.myId.bytes.property
  have hn := length_nameBytes_pos hn
  have h₁ : (x.payload magic).take 6 = magic := by simp [payload, hl]
  have h₂ : ((x.payload magic).take 8).drop 6 = beBytes16 x.tcpListenPort := by simp [payload, List.take_append, hl, hp]
  have h₃ : ((x.payload magic).take 40).drop 8 = x.myId.toBytes := by
    simp [payload, List.take_append, List.drop_append, hl, hp, hi]
  have h₄ : (x.payload magic).drop 40 = nameBytes x.myNickname :=
    List.drop_left' <| by simp only [List.length_append, hl, hp, hi]
  have hport : UInt16.ofNat (BigEndian.ofBytes (beBytes16 x.tcpListenPort)) = x.tcpListenPort := by
    rw [beBytes16, BigEndian.ofBytes_toBytes x.tcpListenPort.toNat_lt, UInt16.ofNat_toNat]
  have hnick : Utf8.decodeLossy (nameBytes x.myNickname) = x.myNickname := Utf8.decodeLossy_eq <| fromUtf8_nameBytes _
  rw [Announcement.parse, dif_pos (by rw [length_payload hl]; omega), h₁, if_pos hm]
  simp only [h₂, h₃, h₄, hport, hnick, length_payload hl, gt_iff_lt, Nat.lt_add_right_iff_pos, hn, if_true]
  rfl

theorem parse_some {a : Announcement} {received : Bytes} (h : Announcement.parse received = some a) :
    40 ≤ received.length ∧ (a.isRequest = true ↔ received.take 6 = magicRequest) ∧
      a.peerId.toBytes = (received.take 40).drop 8 := by
  simp only [Announcement.parse] at h
  split at h
  case isFalse => contradiction
  case isTrue hl =>
    split at h <;> cases h
    exact ⟨hl, decide_eq_true_iff, rfl⟩

-- What a listener may do with what it has received, whoever has sent it: it answers requests of others only, and
-- reports others only.
inductive Allowed (x : Discovery) (src : SocketAddr) (received : Bytes) : List Output → Prop
  | silent : Allowed x src received []
  | reported {p addr nickname} (other : p ≠ x.myId) : Allowed x src received [.event <| .discovered p addr nickname]
  | answered {p addr nickname} (other : p ≠ x.myId) (long : 40 ≤ received.length) (request : received.take 6 = magicRequest)
    (sender : (received.take 40).drop 8 = p.toBytes) :
    Allowed x src received [.sendTo x.response { src with port := discoveryPort }, .event <| .discovered p addr nickname]

theorem allowed {received : Bytes} :
    x.Allowed src received ((Announcement.parse received).elim [] (x.answer src)) := by
  cases ha : Announcement.parse received
  case none => exact .silent
  case some a =>
    have ⟨hl, hr, hs⟩ := parse_some ha
    rw [Option.elim_some, answer]
    split
    case isFalse => exact .silent
    case isTrue ho =>
      split
      case isTrue hq => exact .answered ho hl (hr.mp hq) hs.symm
      case isFalse   => exact .reported ho

-- An answer is not a request, so nobody answers it.
theorem receive_response {buf : Buffer} {p : Bytes} {addr : SocketAddr} {outs : List Output}
    (h : (x.receive buf y.response src).snd = .ok outs) : .sendTo p addr ∉ outs := by
  rw [receive_eq] at h
  have ha := @allowed x src (y.response.take 1024)
  rw [Except.ok.inj h] at ha
  cases ha
  case silent | reported => simp
  case answered hr _ =>
    rw [List.take_take, response, payload] at hr
    simp [magicRequest, magicResponse] at hr

theorem mem_broadcastScan {target : SocketAddr} {datagram : Bytes} {fibTrie : Option (List Char)} {localIp : Option Ipv4Addr}
    (h : (datagram, target) ∈ x.broadcastScan fibTrie localIp) : datagram = x.request ∧ target.port = discoveryPort := by
  have ⟨_, _, he⟩ := List.mem_map.mp h
  cases he
  exact ⟨rfl, rfl⟩

-- Two peers that do not know of each other do after one request and its answer. No datagram makes a listener answer
-- or report itself, or look at what it has not received, and answers are not answered.
theorem exchange {b target : SocketAddr} {buf buf' : Buffer} {datagram : Bytes} {fibTrie : Option (List Char)}
    {localIp : Option Ipv4Addr} (hd : x.myId ≠ y.myId) (hx : x.myNickname ≠ "") (hy : y.myNickname ≠ "")
    (hs : (datagram, target) ∈ x.broadcastScan fibTrie localIp) (fx : datagram.length ≤ 1024)
    (fy : y.response.length ≤ 1024) :
    (y.receive buf datagram src).snd = .ok [
      .sendTo y.response { src with port := discoveryPort },
      .event <| .discovered x.myId { src with port := x.tcpListenPort } x.myNickname] ∧
    (x.receive buf' y.response b).snd = .ok [.event <| .discovered y.myId { b with port := y.tcpListenPort } y.myNickname] ∧
    ∀ (z : Discovery) src,
      (∀ buf datagram, ∃ outs, (z.receive buf datagram src).snd = .ok outs ∧ z.Allowed src (datagram.take 1024) outs) ∧
      (∀ {amt} {buf buf' : Bytes}, amt ≤ buf.length → amt ≤ buf'.length → buf.take amt = buf'.take amt →
        z.handle buf amt src = z.handle buf' amt src) ∧
      ∀ buf w outs p addr, (z.receive buf (response w) src).snd = .ok outs → .sendTo p addr ∉ outs := by
  refine ⟨?_, ?_, fun z src =>
    ⟨fun buf datagram => ⟨_, receive_eq, allowed⟩, fun h h' he => ?_, fun _ _ _ _ _ => receive_response⟩⟩
  case refine_1 =>
    obtain rfl := (mem_broadcastScan hs).left
    rw [receive_eq, List.take_of_length_le fx, request, parse_payload (.inl rfl) hx, Option.elim_some, answer, if_pos hd]
    rfl
  case refine_2 =>
    rw [receive_eq, List.take_of_length_le fy, response, parse_payload (.inr rfl) hy, Option.elim_some, answer, if_pos hd.symm]
    rfl
  case refine_3 => rw [handle_eq h, handle_eq h', he]

def laptop : Discovery :=
  ⟨9000, ⟨.replicate 32 1⟩, "laptop"⟩

def phone : Discovery :=
  ⟨9001, ⟨.replicate 32 2⟩, "phone"⟩

def lan (host : UInt8) (port : UInt16) : SocketAddr :=
  ⟨⟨[192, 168, 0, host], rfl⟩, port⟩

theorem exchange_laptop_phone :
    (phone.receive (.replicate 1024 0) laptop.request (lan 2 49152)).snd = .ok [
      .sendTo phone.response (lan 2 9090), .event <| .discovered laptop.myId (lan 2 9000) "laptop"] ∧
    (laptop.receive (.replicate 1024 7) phone.response (lan 3 9090)).snd = .ok [
      .event <| .discovered phone.myId (lan 3 9001) "phone"] := by
  have hs : (laptop.request, ⟨Ipv4Addr.broadcast, 9090⟩) ∈ laptop.broadcastScan none none := List.mem_singleton.mpr rfl
  have h := @exchange laptop phone (lan 2 49152) (lan 3 9090) _ (.replicate 1024 0) (.replicate 1024 7) _ _ _ (by decide)
    (by decide) (by decide) hs (by decide +kernel) (by decide +kernel)
  exact ⟨h.left, h.right.left⟩

end Parsip.Discovery
