import Parsip.Daemon.ReadLoop
import Parsip.Protocol.Theorems.Grammar
import Parsip.Protocol.Theorems.Machine

-- What gets from a stream to the event loop.

namespace Parsip

open LengthPrefixCodec

variable {s rest : Bytes} {fin : Option Error} {f : Frame} {m : Message} {fs : List Frame} {ms : List Message}

-- A frame that decodes to a message of the established phase.
def Accepted (f : Frame) (m : Message) : Prop :=
  f.Fits ∧ Message.tryFrom f = .ok m ∧ m.Established

-- The stream cut behind the longest prefix of such frames.
structure Splits (s : Bytes) (fs : List Frame) (ms : List Message) (rest : Bytes) : Prop where
  stream   : s = fs.flatMap encode ++ rest
  accepted : List.Forall₂ Accepted fs ms
  longest  : ∀ f m r, rest = encode f ++ r → ¬Accepted f m

theorem decode_some (h : (decode s fin).fst = .ok (some f)) : f.Fits ∧ s = encode f ++ (decode s fin).snd := by
  refine ⟨decode_fits h, ?_⟩
  have ⟨n, hn⟩ := framed_of_decode h
  obtain ⟨f', hd, he⟩ := hn.decode fin
  rw [hd] at h ⊢
  cases h
  rw [he, List.take_append_drop]

theorem readTurn_accepted (h : Accepted f m) : readTurn (.ok (some f)) = .message m := by
  simp only [readTurn, h.right.left, h.right.right, if_true]

-- Whatever the stream goes on with, the thread leaves its loop, and does not panic.
theorem readTurn_leave (h : ∀ f m r, s = encode f ++ r → ¬Accepted f m) :
    readTurn (decode s fin).fst = .leave := by
  cases hd : (decode s fin).fst
  case error => rfl
  case ok result =>
    cases result
    case none => rfl
    case some f =>
      obtain ⟨hf, hs⟩ := decode_some hd
      have hp : f.payload.length ≤ maxFrameSize := by
        simp only [Frame.Fits] at hf
        omega
      simp only [readTurn]
      cases ht : Message.tryFrom f
      case ok m => exact if_neg fun hm => h f m _ hs ⟨hf, ht, hm⟩
      case error e =>
        cases e
        case error => rfl
        case panic => exact absurd ht <| Machine.message_ne_panic hp

namespace Splits

theorem exist (s : Bytes) : ∃ fs ms rest, Splits s fs ms rest := by
  by_cases h : ∃ f m r, s = encode f ++ r ∧ Accepted f m
  case neg =>
    exact ⟨[], [], s, rfl, .nil, fun f m r hs ha => h ⟨f, m, r, hs, ha⟩⟩
  case pos =>
    obtain ⟨f, m, r, hs, ha⟩ := h
    have : r.length < s.length := by
      rw [hs, List.length_append, length_encode]
      omega
    obtain ⟨fs, ms, rest, sp⟩ := exist r
    refine ⟨f :: fs, m :: ms, rest, ?_, .cons ha sp.accepted, sp.longest⟩
    rw [hs, sp.stream, List.flatMap_cons, List.append_assoc]
termination_by s.length

end Splits

-- The thread hands on the messages in front of the first frame that is not one, and then leaves.
theorem startReadLoop_spec (peerId : PeerId) (fin : Option Error) (s : Bytes) :
    (∃ fs ms rest, Splits s fs ms rest) ∧ ∀ fs ms rest, Splits s fs ms rest → ∀ n,
      startReadLoop peerId fin n s = if fs.length < n then
        some <| ms.map (.send <| .message peerId ·) ++ [.send (.disconnected peerId), .onDisconnect]
      else none := by
  refine ⟨Splits.exist s, fun fs ms rest sp n => ?_⟩
  obtain ⟨rfl, ha, hl⟩ := sp
  induction ha generalizing n
  case nil =>
    cases n
    case zero => rfl
    case succ n =>
      simp only [List.flatMap_nil, List.nil_append, startReadLoop, readTurn_leave hl]
      rfl
  case cons f m fs ms ha _ hi =>
    cases n
    case zero => rfl
    case succ n =>
      have hd : decode ((f :: fs).flatMap encode ++ rest) fin = (.ok (some f), fs.flatMap encode ++ rest) := by
        rw [List.flatMap_cons, List.append_assoc, decode_encode ha.left]
      simp only [startReadLoop, hd, readTurn_accepted ha, hi]
      by_cases hn : fs.length < n <;> simp [hn]

end Parsip
