import Parsip.Protocol.Theorems.Stream

-- The streams that the decoder accepts.

namespace Parsip.LengthPrefixCodec

variable {s : Bytes} {src : Source UInt8} {n : Nat} {f : Frame} {fin : Option Error} {e : Error}

-- A length within the limits, and a body of that length.
def Framed (s : Bytes) (n : Nat) : Prop :=
  1 ≤ n ∧ n ≤ maxFrameSize ∧ BigEndian.toBytes 4 n <+: s ∧ 4 + n ≤ s.length

theorem ofBytes_take_iff (hn : n < 2 ^ 32) (h : 4 ≤ s.length) :
    BigEndian.ofBytes (s.take 4) = n ↔ BigEndian.toBytes 4 n <+: s := by
  have hl : (s.take 4).length = 4 := by rw [List.length_take, Nat.min_eq_left h]
  constructor
  case mp =>
    intro he
    have ht := @BigEndian.toBytes_ofBytes (s.take 4)
    rw [hl, he] at ht
    exact ht ▸ List.take_prefix ..
  case mpr =>
    intro ⟨r, hr⟩
    rw [← hr, List.take_left' BigEndian.length_toBytes]
    exact BigEndian.ofBytes_toBytes hn

theorem header_ok_iff (h : 4 ≤ s.length) :
    header s = .ok n ↔ 1 ≤ n ∧ n ≤ maxFrameSize ∧ BigEndian.toBytes 4 n <+: s := by
  have hm : maxFrameSize < 2 ^ 32 := by decide
  have hi : n ≤ maxFrameSize → (BigEndian.ofBytes (s.take 4) = n ↔ BigEndian.toBytes 4 n <+: s) :=
    fun hn => ofBytes_take_iff (Nat.lt_of_le_of_lt hn hm) h
  simp only [header]
  split
  case isTrue hz =>
    refine iff_of_false (by simp) ?_
    rintro ⟨h₁, h₂, hp⟩
    have := (hi h₂).mpr hp
    omega
  case isFalse hz =>
    split
    case isTrue hg =>
      refine iff_of_false (by simp) ?_
      rintro ⟨h₁, h₂, hp⟩
      have := (hi h₂).mpr hp
      omega
    case isFalse hg =>
      rw [Except.ok.injEq]
      constructor
      case mp =>
        intro he
        have h₂ : n ≤ maxFrameSize := by omega
        exact ⟨by omega, h₂, (hi h₂).mp he⟩
      case mpr =>
        rintro ⟨_, h₂, hp⟩
        exact (hi h₂).mpr hp

-- A frame of the grammar is decoded, and it is the one whose encoding the stream begins with.
theorem Framed.decode (fin : Option Error) (h : Framed s n) :
    ∃ f, decode s fin = (.ok (some f), s.drop (4 + n)) ∧ encode f = s.take (4 + n) := by
  obtain ⟨h₁, h₂, ⟨r, hr⟩, hl⟩ := h
  have h4 : 4 ≤ s.length := by omega
  have hh : header s = .ok n := (header_ok_iff h4).mpr ⟨h₁, h₂, r, hr⟩
  have hd : s.drop 4 = r := by rw [← hr, List.drop_left' BigEndian.length_toBytes]
  have hb : (r.take n).length = n := by
    rw [List.length_take, ← hd, List.length_drop]
    omega
  cases ht : r.take n
  case nil =>
    rw [ht] at hb
    exact absurd hb (by simp only [List.length_nil]; omega)
  case cons b bs =>
    rw [ht, List.length_cons] at hb
    refine ⟨⟨b, bs⟩, ?_, ?_⟩
    case refine_1 =>
      unfold LengthPrefixCodec.decode
      rw [if_neg (by omega), hh]
      simp only [hd, ht, List.headD_cons, List.tail_cons]
      rw [if_neg (by omega)]
    case refine_2 =>
      have hm : maxFrameSize < 2 ^ 32 := by decide
      have he : 1 + bs.length = n := by omega
      have ht' : s.take (4 + n) = BigEndian.toBytes 4 n ++ r.take n := by
        rw [← hr, List.take_append, BigEndian.length_toBytes, Nat.add_sub_cancel_left,
          List.take_of_length_le (by rw [BigEndian.length_toBytes]; omega)]
      rw [ht', ht, encode, he, beBytes32, UInt32.toNat_ofNat_of_lt' (by simp only [UInt32.size]; omega)]
      simp

theorem framed_of_decode (h : (decode s fin).fst = .ok (some f)) : ∃ n, Framed s n := by
  unfold decode at h
  split at h
  case isTrue =>
    split at h
    case h_1 => cases h
    case h_2 => split at h <;> cases h
  case isFalse h4 =>
    have h4 := Nat.not_lt.mp h4
    split at h
    case h_1 => contradiction
    case h_2 n hh =>
      split at h
      case isTrue => contradiction
      case isFalse hl =>
        have ⟨h₁, h₂, hp⟩ := (header_ok_iff h4).mp hh
        exact ⟨n, h₁, h₂, hp, Nat.not_lt.mp hl⟩

theorem decode_none_iff : (decode s none).fst = .ok none ↔ s.length < 4 := by
  unfold decode
  split
  case isTrue h => exact iff_of_true rfl h
  case isFalse h =>
    refine iff_of_false (fun hd => ?_) h
    split at hd
    case h_1 => contradiction
    case h_2 => split at hd <;> cases hd

-- The header alone decides about a length outside of the limits.
theorem header_error (hn : n < 2 ^ 32) (h : n = 0 ∨ maxFrameSize < n) (hp : BigEndian.toBytes 4 n <+: s) :
    ∃ e, header s = .error e := by
  have h4 : 4 ≤ s.length := by simpa using hp.length_le
  have he := (ofBytes_take_iff hn h4).mpr hp
  cases hh : header s
  case error e => exact ⟨e, rfl⟩
  case ok m =>
    have ⟨h₁, h₂, hp'⟩ := (header_ok_iff h4).mp hh
    have hm : maxFrameSize < 2 ^ 32 := by decide
    have := (ofBytes_take_iff (Nat.lt_of_le_of_lt h₂ hm) h4).mpr hp'
    omega

theorem decodeLogged_fst : (decodeLogged src).fst = decodeFrom src := by
  simp only [decodeLogged, decodeFrom]
  split
  case h_1 => rfl
  case h_2 =>
    split
    case h_1 => rfl
    case h_2 => split <;> rfl

theorem decodeLogged_error (h : src.readExact 4 = (some s, rest)) (he : header s = .error e) :
    decodeLogged src = ((.error e, rest), [.readExact 4]) := by
  simp only [decodeLogged, h, he]

-- The decoder accepts exactly what begins with a frame, and takes that frame off the stream. Nothing is
-- allocated for a length outside of the limits, as the log of the same decoder shows.
theorem decodeFrom_grammar (src : Source UInt8) :
    (decodeLogged src).fst = decodeFrom src ∧
    ((∃ f, (decodeFrom src).fst = .ok (some f)) ↔ ∃ n, Framed src.content n) ∧
    (∀ f n, (decodeFrom src).fst = .ok (some f) → Framed src.content n →
      (decodeFrom src).snd.content = src.content.drop (4 + n) ∧ encode f = src.content.take (4 + n)) ∧
    ((decodeFrom src).fst = .ok none ↔ src.content.length < 4) ∧
    ((∃ e, (decodeFrom src).fst = .error e) ↔ 4 ≤ src.content.length ∧ ¬∃ n, Framed src.content n) ∧
    ∀ n < 2 ^ 32, n = 0 ∨ maxFrameSize < n → BigEndian.toBytes 4 n <+: src.content →
      (∃ e, (decodeFrom src).fst = .error e) ∧ (decodeFrom src).snd.content = src.content.drop 4 ∧
        (decodeLogged src).snd = [.readExact 4] := by
  refine ⟨decodeLogged_fst, ?_⟩
  obtain ⟨hd, hr⟩ := @decodeFrom_eq src
  rw [hd, hr]
  have framed : (∃ f, (decode src.content none).fst = .ok (some f)) ↔ ∃ n, Framed src.content n := by
    refine ⟨fun ⟨f, h⟩ => framed_of_decode h, fun ⟨n, h⟩ => ?_⟩
    have ⟨f, hf, _⟩ := h.decode none
    exact ⟨f, congrArg Prod.fst hf⟩
  refine ⟨framed, fun f n h hn => ?_, decode_none_iff, ?_, fun n hn hb hp => ?_⟩
  case refine_1 =>
    obtain ⟨f', hf, he⟩ := hn.decode none
    rw [hf] at h ⊢
    cases h
    exact ⟨rfl, he⟩
  case refine_2 =>
    rw [← framed, ← Nat.not_lt, ← decode_none_iff]
    cases (decode src.content none).fst
    case error e => simp
    case ok f    => cases f <;> simp
  case refine_3 =>
    have h4 : 4 ≤ src.content.length := by simpa using hp.length_le
    have ⟨e, he⟩ := header_error hn hb hp
    refine ⟨⟨e, ?_⟩, ?_, ?_⟩
    case refine_1 | refine_2 =>
      unfold decode
      rw [if_neg (by omega), he]
    case refine_3 =>
      have hs := Source.readExact_eq h4
      have hh : header (src.content.take 4) = .error e := by
        rw [← he]
        exact header_eq_of_isPrefix (List.take_prefix ..) (by rw [List.length_take]; omega)
      rw [decodeLogged_error (Prod.ext hs.left rfl) hh]

end Parsip.LengthPrefixCodec
