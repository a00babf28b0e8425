import Parsip.Protocol.Codec
import Parsip.Protocol.Theorems.Message

namespace Parsip.LengthPrefixCodec

variable {f : Frame} {s r acc : Bytes} {fin : Option Error}

theorem length_encode : (encode f).length = 4 + (1 + f.payload.length) := by
  simp [encode]
  omega

-- The length field of a frame, as long as the narrowing to 32 bits loses nothing.
theorem ofBytes_take_encode (h : 1 + f.payload.length < 2 ^ 32) :
    BigEndian.ofBytes ((encode f ++ r).take 4) = 1 + f.payload.length := by
  have ht : (encode f ++ r).take 4 = beBytes32 (.ofNat (1 + f.payload.length)) := by
    rw [encode, List.append_assoc, List.append_assoc]
    exact List.take_left' length_beBytes32
  rw [ht, beBytes32, UInt32.toNat_ofNat_of_lt' h]
  exact BigEndian.ofBytes_toBytes h

-- The header is decided by the first four bytes, whatever has been read after them.
theorem header_append (h : 4 ≤ s.length) : header (s ++ r) = header s := by
  rw [header, header, List.take_append_of_le_length h]

theorem header_eq_of_isPrefix (hp : s <+: acc) (h : 4 ≤ s.length) : header s = header acc := by
  have ⟨_, hr⟩ := hp
  rw [← hr, header_append h]

theorem header_encode (h : f.Fits) : header (encode f ++ r) = .ok (1 + f.payload.length) := by
  simp only [Frame.Fits, maxFrameSize] at h
  rw [header, ofBytes_take_encode (by omega), if_neg (by omega), if_neg (by rw [maxFrameSize]; omega)]

-- A frame over the limit is refused as soon as its header is there.
theorem header_encode_not_fits (h : ¬f.Fits) (hl : 1 + f.payload.length < 2 ^ 32) :
    ∃ e, header (encode f ++ r) = .error e := by
  simp only [Frame.Fits, Nat.not_le] at h
  exact ⟨_, by rw [header, ofBytes_take_encode hl, if_neg (by omega), if_pos h]⟩

theorem drop_encode :
    (encode f ++ r).drop 4 = f.messageType :: f.payload ++ r := by
  rw [encode, List.append_assoc, List.append_assoc]
  exact List.drop_left' length_beBytes32

-- The decoder takes exactly one frame off the stream.
theorem decode_encode (h : f.Fits) : decode (encode f ++ r) fin = (.ok (some f), r) := by
  have hl : (encode f ++ r).length = 4 + (1 + f.payload.length) + r.length := by
    rw [List.length_append, length_encode]
  have hd : (encode f ++ r).drop (4 + (1 + f.payload.length)) = r :=
    List.drop_left' length_encode
  unfold decode
  rw [if_neg (by omega), header_encode h]
  simp only [hd, drop_encode]
  rw [if_neg (by omega), Nat.add_comm 1]
  simp

theorem needs_encode (h : f.Fits) : needs (encode f ++ r) = 0 := by
  have hl : (encode f ++ r).length = 4 + (1 + f.payload.length) + r.length := by
    rw [List.length_append, length_encode]
  rw [needs, if_neg (by omega), header_encode h]
  simp only
  omega

-- While a frame is incomplete the decoder waits, and for no byte beyond the frame.
theorem needs_of_isPrefix (h : f.Fits) (hp : acc <+: encode f) :
    acc.length + needs acc ≤ (encode f).length ∧ (acc ≠ encode f → 0 < needs acc) := by
  have hl := length_encode (f := f)
  have hle := hp.length_le
  by_cases h4 : acc.length < 4
  case pos =>
    rw [needs, if_pos h4]
    omega
  case neg =>
    have hh : header acc = .ok (1 + f.payload.length) := by
      rw [header_eq_of_isPrefix hp (by omega), ← header_encode h (r := []), List.append_nil]
    rw [needs, if_neg h4, hh]
    refine ⟨by simp only; omega, fun hne => ?_⟩
    have hlt : acc.length ≠ (encode f).length := fun he => hne <| hp.eq_of_length he
    simp only
    omega

-- When the decoder can return, on a stream that goes on with `f`, all of `f` has been read.
theorem encode_prefix_of_needs (h : f.Fits) (hp : s <+: encode f ++ r) (hn : needs s = 0) :
    encode f <+: s := by
  have hl := length_encode (f := f)
  have h4 : ¬s.length < 4 := by
    intro h4
    rw [needs, if_pos h4] at hn
    omega
  have hh : header s = .ok (1 + f.payload.length) := by
    rw [header_eq_of_isPrefix hp (by omega), header_encode h]
  rw [needs, if_neg h4, hh] at hn
  simp only at hn
  exact List.prefix_of_prefix_length_le (List.prefix_append ..) hp (by omega)

-- On a stream that goes on with a frame over the limit, decoding ends in an error.
theorem decode_not_fits (h : ¬f.Fits) (hl : 1 + f.payload.length < 2 ^ 32)
    (hp : s <+: encode f ++ r) (hn : needs s = 0) : ∃ e, (decode s fin).fst = .error e := by
  have h4 : ¬s.length < 4 := by
    intro h4
    rw [needs, if_pos h4] at hn
    omega
  have ⟨e, he⟩ := header_encode_not_fits (r := r) h hl
  rw [← header_eq_of_isPrefix hp (by omega)] at he
  refine ⟨e, ?_⟩
  unfold decode
  rw [if_neg h4, he]

end Parsip.LengthPrefixCodec
