import Parsip.Protocol.Encoding
import Parsip.Protocol.Theorems.Stream

-- Whatever the stream takes of each call, the loop in `encode` skips and repeats nothing.

namespace Parsip.LengthPrefixCodec.Encoding

open Transition

variable {f : Frame} {s s' : Encoding} {call : Except Error Nat} {ls : List (Except Error Nat)} {e : Error}

-- All that a call can lead to.
theorem step_cases (h : s.step call = some s') : s.result = none ∧
    ((∃ e, s' = { s with result := some (.error e) } ∧ Productive call = false) ∨
      ∃ n, call = .ok n ∧ 0 < n ∧ n ≤ s.iov.flatten.length ∧
        s'.totalLen = s.totalLen ∧ s'.totalWritten = s.totalWritten + n ∧
        s'.accepted = s.accepted ++ s.iov.flatten.take n ∧
        (s.totalWritten + n < s.totalLen ∧ s'.iov.flatten = s.iov.flatten.drop n ∧ s'.result = none ∨
          s.totalLen ≤ s.totalWritten + n ∧ s'.result = some (.ok ()))) := by
  cases call
  case error e =>
    simp only [step, Option.ite_none_left_eq_some, Bool.not_eq_true, Option.isSome_eq_false_iff,
      Option.isNone_iff_eq_none, Option.some.injEq] at h
    exact ⟨h.left, .inl ⟨e, h.right.symm, rfl⟩⟩
  case ok n =>
    simp only [step, Option.ite_none_left_eq_some, not_or, Bool.not_eq_true, Option.isSome_eq_false_iff,
      Option.isNone_iff_eq_none, Nat.not_lt] at h
    obtain ⟨⟨hr, hn⟩, h⟩ := h
    refine ⟨hr, ?_⟩
    split at h
    case isTrue hz =>
      cases h
      exact .inl ⟨_, rfl, by simp [Productive, hz]⟩
    case isFalse hz =>
      refine .inr ⟨n, rfl, Nat.pos_of_ne_zero hz, hn, ?_⟩
      split at h <;> cases h
      case isTrue hl  => exact ⟨rfl, rfl, rfl, .inl ⟨hl, advance_flatten, hr⟩⟩
      case isFalse hl => exact ⟨rfl, rfl, rfl, .inr ⟨Nat.not_lt.mp hl, rfl⟩⟩

-- While the loop runs, the stream has taken everything that the slices do not offer any more.
structure Underway (f : Frame) (s : Encoding) : Prop where
  total   : s.totalLen = (encode f).length
  written : s.totalWritten = s.accepted.length
  taken   : s.accepted <+: encode f
  running : s.result = none → s.accepted ++ s.iov.flatten = encode f ∧ s.totalWritten < s.totalLen
  ok      : s.result = some (.ok ()) → s.accepted = encode f
  error   : ∀ {e}, s.result = some (.error e) → s.accepted ≠ encode f

namespace Underway

theorem start : (start f).Underway f where
  total := by
    rw [length_encode]
    simp only [Encoding.start]
    omega
  written := rfl
  taken   := List.nil_prefix
  running _ := by
    refine ⟨by simp [Encoding.start, encode], ?_⟩
    simp only [Encoding.start]
    omega
  ok h    := nomatch h
  error h := nomatch h

theorem step (u : s.Underway f) (h : s.step call = some s') : s'.Underway f := by
  obtain ⟨hr, hc⟩ := step_cases h
  obtain ⟨ha, hl⟩ := u.running hr
  have hlen := congrArg List.length ha
  rw [List.length_append] at hlen
  obtain ⟨e, rfl, _⟩ | ⟨n, _, hn, hb, ht, hw, hs, hc⟩ := hc
  case inl =>
    refine ⟨u.total, u.written, u.taken, nofun, nofun, fun _ he => ?_⟩
    have := u.total
    have := u.written
    have := congrArg List.length he
    simp only at this
    omega
  case inr =>
    have hs' : s'.accepted ++ s.iov.flatten.drop n = encode f := by
      rw [hs, List.append_assoc, List.take_append_drop, ha]
    have hw' : s'.totalWritten = s'.accepted.length := by
      rw [hw, hs, List.length_append, List.length_take, Nat.min_eq_left hb, u.written]
    have total := ht.trans u.total
    obtain ⟨hl', hi, hr'⟩ | ⟨hl', hr'⟩ := hc
    case inl =>
      refine ⟨total, hw', ⟨_, hs'⟩, fun _ => ⟨hi ▸ hs', by omega⟩, ?_, ?_⟩ <;> simp [hr']
    case inr =>
      have hd : s.iov.flatten.drop n = [] := by
        apply List.drop_eq_nil_of_le
        have := u.total
        have := u.written
        omega
      rw [hd, List.append_nil] at hs'
      exact ⟨total, hw', ⟨[], by rw [hs', List.append_nil]⟩, by simp [hr'], fun _ => hs', by simp [hr']⟩

theorem reachable (r : Run (system f) (Encoding.start f) ls s) : s.Underway f :=
  r.preserves (fun _ => step) start

end Underway

-- Every call but the last one takes something.
theorem countP_productive (r : Run (system f) (start f) ls s) :
    ls.countP Productive ≤ s.accepted.length ∧ ls.length ≤ ls.countP Productive + 1 ∧
      (s.result = none → ls.length = ls.countP Productive) := by
  refine r.history (P := fun ls s => ls.countP Productive ≤ s.accepted.length ∧
    ls.length ≤ ls.countP Productive + 1 ∧ (s.result = none → ls.length = ls.countP Productive)) ?_ ?_
  case refine_1 => simp [start]
  case refine_2 =>
    rintro ls s call s' _ ⟨hc, _, hr⟩ h
    obtain ⟨hn, hs⟩ := step_cases h
    have hr := hr hn
    obtain ⟨e, rfl, hp⟩ | ⟨n, rfl, hn, hb, _, _, ha, _⟩ := hs
    case inl => simp [hp, hc, hr]
    case inr =>
      have hp : Productive (.ok n) = true := decide_eq_true hn
      simp only [List.countP_append, List.countP_singleton, hp, if_true, ha, List.length_append,
        List.length_take, List.length_singleton]
      omega

-- Until the loop has returned, the stream may fail, or take any part of what it is offered.
theorem enabled_iff : (∃ s', s.step call = some s') ↔
    s.result = none ∧ ∀ n, call = .ok n → n ≤ s.iov.flatten.length := by
  constructor
  case mp =>
    intro ⟨s', h⟩
    obtain ⟨hr, ⟨e, _, hp⟩ | ⟨n, rfl, _, hn, _⟩⟩ := step_cases h
    case inr => exact ⟨hr, fun _ h => Except.ok.inj h ▸ hn⟩
    case inl =>
      refine ⟨hr, fun n hc => ?_⟩
      subst hc
      exact Nat.le_trans (Nat.le_of_eq <| Nat.eq_zero_of_not_pos <| of_decide_eq_false hp) (Nat.zero_le _)
  case mpr =>
    intro ⟨hr, hn⟩
    cases call
    case error e => exact ⟨_, by simp only [step, hr, Option.isSome_none, Bool.false_eq_true, if_false]; rfl⟩
    case ok n =>
      have hn := Nat.not_lt.mpr (hn n rfl)
      simp only [step, hr, Option.isSome_none, Bool.false_eq_true, false_or, gt_iff_lt, hn, if_false]
      split
      case isTrue  => exact ⟨_, rfl⟩
      case isFalse => split <;> exact ⟨_, rfl⟩

-- The loop ends, and the stream has then taken the frame, or after an error a proper part of it.
theorem written_exactly (hf : 1 + f.payload.length < 2 ^ 32) (r : Run (system f) (start f) ls s) :
    ls.countP Productive ≤ 5 + f.payload.length ∧ ls.length ≤ ls.countP Productive + 1 ∧
    (∀ call, (∃ s', s.step call = some s') ↔ s.result = none ∧ ∀ n, call = .ok n → n ≤ s.iov.flatten.length) ∧
    (s.result = some (.ok ()) →
      s.accepted = BigEndian.toBytes 4 (1 + f.payload.length) ++ [f.messageType] ++ f.payload) ∧
    ∀ e, s.result = some (.error e) →
      s.accepted <+: BigEndian.toBytes 4 (1 + f.payload.length) ++ [f.messageType] ++ f.payload ∧
      s.accepted ≠ BigEndian.toBytes 4 (1 + f.payload.length) ++ [f.messageType] ++ f.payload := by
  have he : BigEndian.toBytes 4 (1 + f.payload.length) ++ [f.messageType] ++ f.payload = encode f := by
    rw [encode, beBytes32, UInt32.toNat_ofNat_of_lt' hf]
  have u := Underway.reachable r
  obtain ⟨hp, hl, _⟩ := countP_productive r
  have := u.taken.length_le
  rw [length_encode] at this
  rw [he]
  exact ⟨by omega, hl, fun _ => enabled_iff, u.ok, fun e h => ⟨u.taken, u.error h⟩⟩

-- A frame that is taken in three pieces, the first of which ends inside the header.
def short : Frame where
  messageType := 42
  payload := [7]

def written : Encoding :=
  ([.ok 3, .ok 2, .ok 1].foldlM step (start short)).getD (start short)

theorem written_exactly_short : written.accepted = BigEndian.toBytes 4 2 ++ [42] ++ [7] :=
  have r : Run (system short) (start short) [.ok 3, .ok 2, .ok 1] written :=
    .ofFn (rfl : [.ok 3, .ok 2, .ok 1].foldlM step (start short) = _)
  (written_exactly (by decide) r).right.right.right.left rfl

-- A call that takes `n` bytes of what is left.
theorem step_ok {n : Nat} (hr : s.result = none) (h₀ : 0 < n) (hn : n ≤ s.iov.flatten.length) :
    s.step (.ok n) = some (if s.totalWritten + n < s.totalLen then
      { s with
        totalWritten := s.totalWritten + n
        accepted     := s.accepted ++ s.iov.flatten.take n
        iov          := advance s.iov n }
    else
      { s with
        totalWritten := s.totalWritten + n
        accepted     := s.accepted ++ s.iov.flatten.take n
        result       := some (.ok ()) }) := by
  simp only [step, hr, Option.isSome_none, Bool.false_eq_true, false_or, gt_iff_lt, Nat.not_lt.mpr hn,
    Nat.ne_of_gt h₀, if_false]
  split <;> rfl

theorem writeLoop_run {calls calls' : List (Except Error Nat)} {result : Except Error Unit} {bs : Bytes}
    (hr : s.result = none) (hw : s.totalWritten < s.totalLen)
    (hl : s.totalWritten + s.iov.flatten.length = s.totalLen)
    (h : writeLoop s.totalLen calls s.totalWritten s.iov = (result, bs, calls')) :
    ∃ ls s', Run (system f) s ls s' ∧ s'.result = some result ∧ s'.accepted = s.accepted ++ bs := by
  induction calls generalizing s bs
  all_goals
    unfold writeLoop at h
    rw [if_pos hw] at h
  case nil =>
    cases h
    have hs := step_ok hr (show 0 < s.iov.flatten.length by omega) (Nat.le_refl _)
    rw [if_neg (by omega), List.take_length] at hs
    exact ⟨_, _, .single hs, rfl, rfl⟩
  case cons call calls hi =>
    cases call
    case error e =>
      cases h
      have hs : s.step (.error e) = some { s with result := some (.error e) } := by simp [step, hr]
      exact ⟨_, _, .single hs, rfl, (List.append_nil _).symm⟩
    case ok n =>
      simp only at h
      generalize hm : min n s.iov.flatten.length = m at h
      split at h
      case isTrue hz =>
        cases h
        have hs : s.step (.ok 0) = some { s with result := some <| .error ⟨.writeZero, "failed to write whole frame"⟩ } := by
          simp [step, hr]
        exact ⟨_, _, .single hs, rfl, (List.append_nil _).symm⟩
      case isFalse hz =>
        have hs := step_ok hr (Nat.pos_of_ne_zero hz) (show m ≤ s.iov.flatten.length by omega)
        cases hw' : writeLoop s.totalLen calls (s.totalWritten + m) (advance s.iov m)
        case mk result' rest =>
          obtain ⟨written, calls''⟩ := rest
          simp only [hw', Prod.mk.injEq] at h
          obtain ⟨rfl, rfl, rfl⟩ := h
          split at hs
          case isTrue ht =>
            have hf : (advance s.iov m).flatten.length = s.iov.flatten.length - m := by
              rw [advance_flatten, List.length_drop]
            obtain ⟨ls, s', r, hr', ha⟩ := @hi { s with
              totalWritten := s.totalWritten + m
              accepted     := s.accepted ++ s.iov.flatten.take m
              iov          := advance s.iov m } _ hr ht (by simp only [hf]; omega) hw'
            exact ⟨_, s', .step hs r, hr', by rw [ha, List.append_assoc]⟩
          case isFalse ht =>
            unfold writeLoop at hw'
            rw [if_neg ht] at hw'
            cases hw'
            exact ⟨_, _, .single hs, rfl, by rw [List.append_nil]⟩

-- The loop as one function runs through these calls.
theorem encodeTo_run {calls calls' : List (Except Error Nat)} {result : Except Error Unit} {bs : Bytes}
    (h : encodeTo calls f = (result, bs, calls')) :
    ∃ ls s, Run (system f) (start f) ls s ∧ s.result = some result ∧ s.accepted = bs := by
  have hl : (start f).iov.flatten = encode f := by simp [start, encode]
  refine writeLoop_run (s := start f) rfl ?_ ?_ h
  case refine_1 => simp only [start]; omega
  case refine_2 =>
    rw [hl, length_encode]
    simp only [start]
    omega

end Parsip.LengthPrefixCodec.Encoding
