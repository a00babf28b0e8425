import Parsip.Connection.Reader
import Parsip.Daemon.History
import Parsip.Protocol.Theorems.Canonical
import Parsip.Protocol.Theorems.Stream

-- What becomes of the answer to a `ListResources` request.

namespace Parsip

open LengthPrefixCodec

-- The reader hands on what has been written if and only if it is within the limit.
theorem readTurn_written_iff {m : Message} {s : Source UInt8} (hm : m.Established) (h : Written m.toFrame s) :
    readTurn (decodeFrom s).fst = .message m ↔ m.toFrame.Fits := by
  have hd := decodeFrom_written_iff h
  constructor
  case mp =>
    intro ht
    match hr : (decodeFrom s).fst with
    | .error _ | .ok none => rw [hr] at ht; contradiction
    | .ok (some f) =>
      rw [hr] at ht
      simp only [readTurn] at ht
      split at ht
      case h_2 | h_3 => contradiction
      case h_1 m' hm' =>
        split at ht <;> cases ht
        -- The frame may have something behind the message, and is within the limit itself.
        have hf : f.Fits := decode_fits (decodeFrom_eq.left ▸ hr)
        have hp := congrArg List.length (Message.tryFrom_ok hm').right.left
        rw [List.length_append] at hp
        simp only [Frame.Fits, Message.toFrame] at hf ⊢
        omega
  case mpr =>
    intro hf
    rw [hd.mpr hf]
    simp only [readTurn, Message.tryFrom_toFrame_eq (.of_fits hf), if_pos hm]

namespace Daemon

variable {d : Daemon} {env : Env} {p : PeerId} {r : UInt32} {f : Frame} {s s' : Source UInt8}

def listing (d : Daemon) (r : UInt32) : Message :=
  .resourceList r d.store.listResources

-- The encoder knows no limit, neither for a frame nor for the answer that a daemon gives.
theorem written_decodes_iff (h : Written f s) (hl : Written (d.listing r).toFrame s') :
    ((decodeFrom s).fst = .ok (some f) ↔ f.Fits) ∧
      d.handleMessage env p (.listResources r) = (d, [.send p (d.listing r)]) ∧
      (readTurn (decodeFrom s').fst = .message (d.listing r) ↔ (d.listing r).toFrame.Fits) :=
  ⟨decodeFrom_written_iff h, rfl, readTurn_written_iff trivial hl⟩

theorem written_decodes_iff_fresh :
    let d := Monitor.fresh.daemon
    let s := Source.ofList <| encode (d.listing 1).toFrame
    ((decodeFrom s).fst = .ok (some (d.listing 1).toFrame) ↔ (d.listing 1).toFrame.Fits) ∧
      d.handleMessage (.fine 0) ⟨.replicate 32 1⟩ (.listResources 1) = (d, [.send ⟨.replicate 32 1⟩ (d.listing 1)]) ∧
      (readTurn (decodeFrom s).fst = .message (d.listing 1) ↔ (d.listing 1).toFrame.Fits) :=
  written_decodes_iff written_encode written_encode

-- 16 MiB of data and their type.
def oversized : Frame :=
  ⟨6, .replicate maxFrameSize 0⟩

theorem oversized_not_fits : ¬oversized.Fits := by
  have hl : oversized.payload.length = maxFrameSize := List.length_replicate ..
  rw [Frame.Fits, hl]
  omega

theorem oversized_not_decoded : Written oversized (.ofList <| encode oversized) ∧
    (decodeFrom <| .ofList <| encode oversized).fst ≠ .ok (some oversized) :=
  ⟨written_encode, fun h => oversized_not_fits <| (decodeFrom_written_iff written_encode).mp h⟩

end Daemon
end Parsip
