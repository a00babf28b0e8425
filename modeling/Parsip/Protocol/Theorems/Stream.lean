import Parsip.Protocol.Stream
import Parsip.Protocol.Theorems.Codec

namespace Parsip.LengthPrefixCodec

variable {f : Frame} {fs : List Frame} {s : Source UInt8} {bs : Bytes} {n : Nat}
variable {slices iov : List Bytes} {calls calls' : List (Except Error Nat)} {result : Except Error Unit}

theorem advance_flatten : (advance slices n).flatten = slices.flatten.drop n := by
  induction slices generalizing n
  case nil => simp [advance]
  case cons slice slices hi =>
    simp only [advance]
    split
    case isTrue h => simp [h]
    case isFalse h =>
      split
      case isTrue hl =>
        rw [List.flatten_cons, List.flatten_cons, List.drop_append_of_le_length (by omega)]
      case isFalse hl =>
        have hs : slice.drop n = [] := List.drop_eq_nil_of_le (by omega)
        rw [List.flatten_cons, List.flatten_cons, hi, List.drop_append, hs]

-- The stream has taken a part of the slices from their front, and all of them if the loop succeeds.
theorem writeLoop_spec {totalLen totalWritten : Nat} (hl : totalWritten + iov.flatten.length = totalLen)
    (h : writeLoop totalLen calls totalWritten iov = (result, bs, calls')) :
    bs <+: iov.flatten ∧ (result = .ok () → bs = iov.flatten) := by
  induction calls generalizing totalWritten iov bs result
  all_goals
    unfold writeLoop at h
    split at h
    case isFalse hn =>
      cases h
      have he : iov.flatten = [] := List.length_eq_zero_iff.mp <| by omega
      exact ⟨List.nil_prefix, fun _ => he.symm⟩
  case nil.isTrue => cases h; exact ⟨List.prefix_rfl, fun _ => rfl⟩
  case cons.isTrue call calls hi _ =>
    cases call
    case error e => cases h; exact ⟨List.nil_prefix, nofun⟩
    case ok n =>
      simp only at h
      split at h
      case isTrue => cases h; exact ⟨List.nil_prefix, nofun⟩
      case isFalse =>
        generalize hm : min n iov.flatten.length = m at h
        cases hw : writeLoop totalLen calls (totalWritten + m) (advance iov m)
        case mk result' r =>
          obtain ⟨written, calls''⟩ := r
          simp only [hw, Prod.mk.injEq] at h
          obtain ⟨rfl, rfl, rfl⟩ := h
          have hf : (advance iov m).flatten = iov.flatten.drop m := advance_flatten
          have ⟨hp, he⟩ := hi (by rw [hf, List.length_drop]; omega) hw
          rw [hf] at hp he
          have ht : iov.flatten.take m ++ iov.flatten.drop m = iov.flatten := List.take_append_drop ..
          have hp := List.prefix_append_right_inj (iov.flatten.take m) |>.mpr hp
          rw [ht] at hp
          exact ⟨hp, fun hr => by rw [he hr, ht]⟩

theorem encodeTo_spec (h : encodeTo calls f = (result, bs, calls')) :
    bs <+: encode f ∧ (result = .ok () → bs = encode f) := by
  have he : [beBytes32 (.ofNat (1 + f.payload.length)), [f.messageType], f.payload].flatten = encode f := by
    simp [encode]
  rw [← he]
  refine writeLoop_spec ?_ h
  rw [he, length_encode]
  omega

-- A stream that takes everything makes every `encode` succeed.
theorem encodeTo_nil : encodeTo [] f = (.ok (), encode f, []) := by
  simp only [encodeTo]
  unfold writeLoop
  rw [if_pos (by omega)]
  simp [encode]

theorem written_encode : Written f (.ofList <| encode f) :=
  ⟨[], [], by rw [encodeTo_nil, Source.content_ofList]⟩

theorem encodeAll_ok (h : encodeAll calls fs = (.ok (), bs)) : bs = fs.flatMap encode := by
  induction fs generalizing calls bs
  case nil => cases h; rfl
  case cons f fs hi =>
    simp only [encodeAll] at h
    split at h
    case h_2 => cases h
    case h_1 bytes calls' he =>
      have ⟨hr, hb⟩ := Prod.mk.inj h
      have ha : encodeAll calls' fs = (.ok (), (encodeAll calls' fs).snd) := Prod.ext hr rfl
      rw [← hb, List.flatMap_cons, (encodeTo_spec he).right rfl, hi ha]

-- The pieces make no difference to what is decoded and to what is left.
theorem decodeFrom_eq : (decodeFrom s).fst = (decode s.content none).fst ∧
    (decodeFrom s).snd.content = (decode s.content none).snd := by
  simp only [decodeFrom]
  unfold decode
  by_cases h4 : s.content.length < 4
  case pos =>
    rw [Source.readExact_eof h4, if_pos h4]
    exact ⟨rfl, rfl⟩
  case neg =>
    obtain ⟨hb, hc⟩ := Source.readExact_eq (s := s) (n := 4) (by omega)
    have hh : header (s.content.take 4) = header s.content :=
      header_eq_of_isPrefix (List.take_prefix ..) (by rw [List.length_take]; omega)
    cases hr : s.readExact 4
    case mk read s' =>
      rw [hr] at hb hc
      simp only at hb hc
      subst hb
      simp only [if_neg h4, hh]
      cases header s.content
      case error e => exact ⟨rfl, hc⟩
      case ok frameLength =>
        have hl : s'.content.length = s.content.length - 4 := by rw [hc, List.length_drop]
        by_cases hf : s.content.length < 4 + frameLength
        case pos =>
          simp only
          rw [Source.readExact_eof (by omega), if_pos hf]
          exact ⟨rfl, rfl⟩
        case neg =>
          obtain ⟨hb', hc'⟩ := Source.readExact_eq (s := s') (n := frameLength) (by omega)
          cases hr' : s'.readExact frameLength
          case mk read s'' =>
            rw [hr'] at hb' hc'
            simp only at hb' hc'
            subst hb'
            simp only [hr', if_neg hf, hc', hc, List.drop_drop, and_self]

theorem decodes_succ : decodes (n + 1) s = (decodeFrom s).fst :: decodes n (decodeFrom s).snd :=
  rfl

theorem decodes_nil (h : s.content = []) : decodes n s = .replicate n (.ok none) := by
  induction n generalizing s
  case zero => rfl
  case succ n hi =>
    have ⟨hd, hr⟩ := @decodeFrom_eq s
    rw [h] at hd hr
    rw [decodes_succ, hd, hi hr]
    rfl

theorem decodes_flatMap_encode (hf : ∀ f ∈ fs, f.Fits) (h : s.content = fs.flatMap encode) :
    decodes (fs.length + n) s = fs.map (.ok ∘ some) ++ .replicate n (.ok none) := by
  induction fs generalizing s
  case nil => simpa using decodes_nil h
  case cons f fs hi =>
    have ⟨hd, hr⟩ := @decodeFrom_eq s
    rw [h, List.flatMap_cons, decode_encode (hf f <| List.mem_cons_self ..)] at hd hr
    rw [List.length_cons, Nat.add_right_comm, decodes_succ, hd, hi (fun f' h' => hf f' <| List.mem_cons_of_mem _ h') hr]
    rfl

-- What has been written comes back frame by frame, however it was taken and however it is read.
theorem decodes_encodeAll (hf : ∀ f ∈ fs, f.Fits) (he : encodeAll calls fs = (.ok (), bs)) (hs : s.content = bs) :
    decodes (fs.length + n) s = fs.map (.ok ∘ some) ++ .replicate n (.ok none) :=
  decodes_flatMap_encode hf <| hs.trans <| encodeAll_ok he

-- A frame that looks like a header, written in three pieces and read in two.
def halting : Source UInt8 :=
  .data 0 [0] <| .interrupted <| .data 0 [5, 42, 0, 0, 0, 1] .eof

theorem decodes_encodeAll_halting : decodes 2 halting = [.ok <| some ⟨42, [0, 0, 0, 1]⟩, .ok none] := by
  have he : encodeAll [.ok 3, .ok 4] [⟨42, [0, 0, 0, 1]⟩] = (.ok (), halting.content) := by decide +kernel
  have hd := decodes_encodeAll (n := 1) (by decide) he rfl
  exact hd

-- What is decoded is within the limit, whatever the stream holds.
theorem decode_fits {fin : Option Error} (h : (decode bs fin).fst = .ok (some f)) : f.Fits := by
  unfold decode at h
  split at h
  case isTrue =>
    split at h
    case h_1 => cases h
    case h_2 => split at h <;> cases h
  case isFalse =>
    split at h
    case h_1 => contradiction
    case h_2 frameLength hh =>
      split at h <;> cases h
      case isFalse hl =>
        simp only [header] at hh
        split at hh
        case isTrue => contradiction
        case isFalse =>
          split at hh <;> cases hh
          case isFalse hm =>
            simp only [Frame.Fits, List.length_tail, List.length_take, List.length_drop]
            omega

-- The limit is the decoder's alone.
theorem decodeFrom_written_iff (h : Written f s) : (decodeFrom s).fst = .ok (some f) ↔ f.Fits := by
  obtain ⟨calls, calls', h⟩ := h
  have hs := (encodeTo_spec h).right rfl
  rw [decodeFrom_eq.left]
  constructor
  case mp  => exact decode_fits
  case mpr =>
    intro hf
    rw [hs, ← List.append_nil (encode f), decode_encode hf]

end Parsip.LengthPrefixCodec
