import Mathlib.Algebra.GroupWithZero.Nat
import Parsip.Connection.Theorems.HandOff.Flow

namespace Parsip.HandOff

open Transition

variable [Crypto] {x : Setup} {s s' : State} {side : Side} {e r : Endpoint} {p q : Pipe UInt8}
variable {m : Message} {n : Nat} {label : Label} {ls : List Label}

namespace Setup

-- What an honest peer sends after its handshake: messages of the established phase, in frames that
-- the decoder lets pass.
def Fitting (x : Setup) : Prop :=
  ∀ side, ∀ m ∈ x.later side, m.Established ∧ m.toFrame.Fits

theorem Fitting.short (k : x.Fitting) : x.Short := by
  intro side m hm
  have := (k side m hm).right
  simp only [Frame.Fits, maxFrameSize] at this
  omega

-- The handshake has returned the other side's id, and everything the other side has sent is there.
def Done (x : Setup) (s : State) (side : Side) : Prop :=
  (s.endpoint side).handshake = .returned (.ok (x.identity side.other).peerId) ∧
    (s.endpoint side).delivered = x.later side.other

end Setup

theorem Sound.not_stopped (o : Sound x s) (k : x.Fitting) (side : Side) : (s.endpoint side).stopped = false := by
  by_contra hc
  have ⟨m, hm, hn⟩ := (o.calm side).halted <| Bool.not_eq_false _ ▸ hc
  exact hn <| k _ m hm

-- A state in which nothing can be done.
section Stuck

theorem stuck_pipe (side : Side) (t : x.system.Stuck s) : (s.pipe side).unsent = [] ∧ (s.pipe side).flight = [] := by
  constructor <;> by_contra hc
  case left =>
    have ⟨n, q, hq⟩ := Pipe.move_write_exists hc
    exact t (.write side n) (s.setPipe side q) (Option.map_eq_some_iff.mpr ⟨q, hq, rfl⟩)
  case right =>
    have ⟨n, q, hq⟩ := Pipe.move_deliver_exists hc
    exact t (.deliver side n) (s.setPipe side q) (Option.map_eq_some_iff.mpr ⟨q, hq, rfl⟩)

theorem stuck_read (t : x.system.Stuck s) (h : s.mayRead side 1 = true) :
    (s.pipe side.other).content = s.taken side := by
  have ha : (s.pipe side.other).arrived = [] := by
    by_contra hc
    have hl : 0 < 1 ∧ 1 ≤ (s.pipe side.other).arrived.length :=
      ⟨Nat.one_pos, List.length_pos_iff.mpr hc⟩
    refine t (.read side 1) (s.setPipe side.other { s.pipe side.other with
      taken := (s.pipe side.other).taken ++ (s.pipe side.other).arrived.take 1
      arrived := (s.pipe side.other).arrived.drop 1 }) ?_
    simp only [Setup.system, System.ofFn, Setup.step, h, if_true]
    exact Option.map_eq_some_iff.mpr ⟨_, if_pos hl, rfl⟩
  obtain ⟨hu, hf⟩ := stuck_pipe side.other t
  simp [Pipe.content, ha, hu, hf, State.taken]

theorem stuck_decode (t : x.system.Stuck s) (h : s.mayRead side 0 = true) :
    LengthPrefixCodec.needs (s.taken side) ≠ 0 := by
  intro hn
  have : ∃ s', x.step s (.decode side) = some s' := by
    simp only [Setup.step, h, hn, and_self, if_true]
    split <;> exact ⟨_, rfl⟩
  obtain ⟨s', hs⟩ := this
  exact t (.decode side) s' hs

omit [Crypto] in
theorem mayRead_handshake (hh : ∀ o, (s.endpoint side).handshake ≠ .returned o)
    (hu : (s.pipe side).unsent = []) (hn : n ≤ LengthPrefixCodec.needs (s.taken side)) :
    s.mayRead side n = true := by
  rw [State.mayRead]
  split
  case h_1 o h => exact absurd h (hh _)
  case h_2 o h => exact absurd h (hh _)
  case h_3     => simp [hu, hn]

omit [Crypto] in
theorem mayRead_loop {f : PeerId} (hh : (s.endpoint side).handshake = .returned (.ok f))
    (hs : (s.endpoint side).stopped = false) : s.mayRead side n = true := by
  simp [State.mayRead, hh, hs]

-- A handshake that waits has decoded all that the other side has sent.
theorem stuck_waiting (o : Sound x s) (t : x.system.Stuck s) (side : Side)
    (hh : ∀ o, (s.endpoint side).handshake ≠ .returned o) :
    x.consumed side.other (s.endpoint side) ++ x.remaining side.other (s.endpoint side.other) =
      x.script side.other := by
  have hu := (stuck_pipe side t).left
  have hn := stuck_decode t <| mayRead_handshake hh hu (Nat.zero_le _)
  have hc := stuck_read t <| mayRead_handshake hh hu (Nat.one_le_iff_ne_zero.mpr hn)
  have hs := ((o.calm side).idle hh).right.right
  have f := o.flow_other side
  have ⟨m, hm⟩ := exists_awaited (x := x) side.other hh
  obtain ⟨_, he⟩ | ⟨rest, hp, _⟩ := f.carries_awaited hs hm
  case inl => exact he
  case inr =>
    -- All of the awaited message is there, so it can be decoded.
    have ht : encode m <+: s.taken side := by
      rw [← hc, hp, List.flatMap_cons]
      exact List.prefix_append ..
    have := (f.exact hm).eq_of_length_le ht.length_le
    rw [State.taken, this, ← List.append_nil (encode m)] at hn
    exact absurd (LengthPrefixCodec.needs_encode (awaited_fits hm)) hn

theorem stuck_not_hello (o : Sound x s) (t : x.system.Stuck s) :
    (s.endpoint side).handshake ≠ .awaitHello := by
  intro hh
  have hw := congrArg List.length <| stuck_waiting o t side (by simp [hh])
  have hq := (o.calm side.other).queue.length_le
  simp only [Setup.consumed, hh, Setup.script, Setup.remaining] at hw
  split at hw <;> simp at hw <;> omega

theorem stuck_returned (o : Sound x s) (t : x.system.Stuck s) (side : Side) :
    (s.endpoint side).handshake = .returned (.ok (x.identity side.other).peerId) := by
  obtain hh | hh | hh := (o.calm side).phase
  case inl     => exact absurd hh <| stuck_not_hello o t
  case inr.inr => exact hh
  case inr.inl =>
    have hw := congrArg List.length <| stuck_waiting o t side (by simp [hh])
    have hq := (o.calm side.other).queue.length_le
    simp only [Setup.consumed, hh, Setup.script, Setup.remaining] at hw
    split at hw
    case h_1 h => exact absurd h <| stuck_not_hello o t
    case h_2   => simp at hw; omega

-- Only when all is done there is nothing left to do.
theorem done_of_stuck (k : x.Fitting) (o : Sound x s) (t : x.system.Stuck s) : x.Done s side := by
  have hh := stuck_returned o t side
  have hs := o.not_stopped k side
  have hc := stuck_read t <| mayRead_loop hh hs
  have hn := stuck_decode t <| mayRead_loop hh hs
  have ⟨transit, hp, hw⟩ := (o.flow_other side).transit hs
  refine ⟨hh, ?_⟩
  have hl : (s.endpoint side).delivered ++ transit ++ (s.endpoint side.other).queue =
      x.later side.other := by
    simpa [Setup.consumed, hh, Setup.script, Setup.remaining, stuck_returned o t side.other] using hw
  cases transit
  case cons m transit =>
    -- The next message is there, so it can be decoded.
    have hf := (k side.other m <| by rw [← hl]; simp).right
    rw [← hc, hp, List.flatMap_cons] at hn
    exact absurd (LengthPrefixCodec.needs_encode hf) hn
  case nil =>
    cases hq : (s.endpoint side.other).queue
    case nil => simpa [hq] using hl
    case cons m queue =>
      have hu := (stuck_pipe side.other t).left
      refine absurd ?_ (t (.send side.other) (((s.setEndpoint side.other
        { s.endpoint side.other with queue }).setPipe side.other
          { s.pipe side.other with unsent := encode m })))
      simp only [Setup.system, System.ofFn, Setup.step, stuck_returned o t side.other, hu, hq]
      rfl

end Stuck

-- The work that is left: bytes to move, messages to send and messages to decode.
section Weight

def size (m : Message) : Nat :=
  3 * (encode m).length + 1

namespace Setup

def potential (x : Setup) (s : State) (side : Side) : Nat :=
  (s.pipe side).weight + ((x.remaining side (s.endpoint side)).map size).sum +
    ((x.script side).length - (x.consumed side (s.endpoint side.other)).length)

def weight (x : Setup) (s : State) : Nat :=
  x.potential s .a + x.potential s .b

theorem weight_eq (side : Side) : x.weight s = x.potential s side + x.potential s side.other := by
  cases side
  case a => rfl
  case b => exact Nat.add_comm ..

end Setup

theorem consumed_length_le (side : Side) (o : Sound x s) (hs : (s.endpoint side).stopped = false) :
    (x.consumed side.other (s.endpoint side)).length ≤ (x.script side.other).length := by
  have ⟨transit, _, hw⟩ := (o.flow_other side).transit hs
  have := congrArg List.length hw
  simp only [List.length_append] at this
  omega

variable [LawfulCrypto]

-- A decoded frame is one less to decode, and an answer is paid for by the message it begins.
theorem weight_decode (o : Sound x s) (k : x.Fitting) (h : x.step s (.decode side) = some s') :
    x.weight s' < x.weight s := by
  have ⟨o', hc⟩ := o.decode k.short h
  have hl := consumed_length_le side o' <| o'.not_stopped k _
  rw [Setup.weight_eq side, Setup.weight_eq side]
  obtain ⟨hh, hu, rfl⟩ | ⟨hh, rfl⟩ | ⟨⟨f, hh⟩, ⟨m, rest, rfl⟩ | hs⟩ := hc
  case inl =>
    simp only [Setup.potential, State.answered, State.setPipe_self, State.setPipe_other,
      State.setPipe_endpoint, State.setEndpoint_self, State.setEndpoint_other,
      State.setEndpoint_pipe, Side.other_other] at hl ⊢
    simp [Setup.consumed, Setup.remaining, hh, Pipe.weight, hu, size] at hl ⊢
    omega
  case inr.inl =>
    simp only [Setup.potential, State.returned, State.setPipe_self, State.setPipe_of_other,
      State.setPipe_endpoint, State.setEndpoint_self, State.setEndpoint_other,
      State.setEndpoint_pipe, Side.other_other] at hl ⊢
    simp [Setup.consumed, Setup.remaining, hh, Pipe.weight] at hl ⊢
    omega
  case inr.inr.inl =>
    simp only [Setup.potential, State.handed, State.setPipe_self, State.setPipe_of_other,
      State.setPipe_endpoint, State.setEndpoint_self, State.setEndpoint_other,
      State.setEndpoint_pipe, Side.other_other] at hl ⊢
    simp [Setup.consumed, Setup.remaining, hh, Pipe.weight] at hl ⊢
    omega
  case inr.inr.inr =>
    rw [o'.not_stopped k side] at hs
    contradiction

theorem weight_step (o : Sound x s) (k : x.Fitting) (h : x.step s label = some s') :
    x.weight s' < x.weight s := by
  cases label
  case write side n | deliver side n =>
    have ⟨q, hq, h⟩ := Option.map_eq_some_iff.mp h
    subst h
    have := Pipe.move_weight hq
    rw [Setup.weight_eq side, Setup.weight_eq side]
    simp only [Setup.potential, State.setPipe_self, State.setPipe_other, State.setPipe_endpoint]
    omega
  case read side n =>
    have ⟨_, h⟩ := (Option.ite_none_right_eq_some ..).mp h
    have ⟨q, hq, h⟩ := Option.map_eq_some_iff.mp h
    subst h
    have := Pipe.move_weight hq
    rw [Setup.weight_eq side, Setup.weight_eq side]
    simp only [Setup.potential, State.setPipe_self, State.setPipe_of_other, State.setPipe_endpoint]
    omega
  case decode side => exact weight_decode o k h
  case send side =>
    simp only [Setup.step] at h
    split at h
    case h_2 => contradiction
    case h_1 _ f _ m queue hh hu hq =>
      cases h
      rw [Setup.weight_eq side, Setup.weight_eq side]
      simp only [Setup.potential, State.setPipe_self, State.setPipe_other, State.setPipe_endpoint,
        State.setEndpoint_self, State.setEndpoint_other, State.setEndpoint_pipe, Side.other_other]
      simp [Setup.consumed, Setup.remaining, hh, hq, Pipe.weight, hu, size]
      omega

end Weight

-- What is unread when the handshake returns: the messages that the other side has sent after it.
theorem unread_of_returned [LawfulCrypto] {result : Outcome PeerId} (o : Sound x s) (k : x.Fitting)
    (hh : ∀ o, (s.endpoint side).handshake ≠ .returned o) (h : x.step s (.decode side) = some s')
    (hr : (s'.endpoint side).handshake = .returned result) :
    s'.taken side = [] ∧ ∃ sent, sent ++ (s'.endpoint side.other).queue = x.later side.other ∧
      (s'.pipe side.other).content = sent.flatMap encode := by
  obtain ⟨o', hc⟩ := o.decode k.short h
  have hd := ((o.calm side).idle hh).right.left
  obtain ⟨_, _, rfl⟩ | ⟨_, rfl⟩ | ⟨⟨f, hf⟩, _⟩ := hc
  case inl         => simp [State.answered] at hr
  case inr.inr     => exact absurd hf (hh f)
  case inr.inl =>
    obtain ⟨sent, hp, hw⟩ := (o'.flow_other side).transit <| o'.not_stopped k _
    refine ⟨by simp [State.taken, State.returned], sent, ?_, hp⟩
    simp only [Setup.consumed, hr, Setup.script] at hw
    have hl : sent ++ x.remaining side.other ((s.returned x side).endpoint side.other) =
        x.later side.other := by
      simpa [State.returned, hd] using hw
    rw [Setup.remaining] at hl
    split at hl
    case h_1 h =>
      have hq := ((o'.calm side.other).idle <| by simp [h]).left
      rw [hq] at hl
      have := congrArg List.length hl
      simp at this
      omega
    case h_2 => exact hl

-- Two honest sides always come to an end, and in the end each has the other's id and has handed on
-- every message that the other has sent after its handshake, once and in order.
theorem handed_off [LawfulCrypto] (k : x.Fitting) :
    (∀ s, Reachable x.system s → x.system.Stuck s → ∀ side, x.Done s side) ∧
    (∀ s ls s', Reachable x.system s → Run x.system s ls s' → ls.length ≤ x.weight s) ∧
    (∀ s side result, Reachable x.system s → (s.endpoint side).handshake = .returned result →
      result = .ok (x.identity side.other).peerId) ∧
    (∀ s side s' result, Reachable x.system s → (∀ o, (s.endpoint side).handshake ≠ .returned o) →
      x.system.step s (.decode side) s' → (s'.endpoint side).handshake = .returned result →
      s'.taken side = [] ∧ ∃ sent, sent ++ (s'.endpoint side.other).queue = x.later side.other ∧
        (s'.pipe side.other).content = sent.flatMap encode) ∧
    ∀ s side, Reachable x.system s → (s.endpoint side).delivered <+: x.later side.other := by
  have sound {s : State} (r : Reachable x.system s) : Sound x s := .reachable k.short r
  refine ⟨fun _ r t _ => done_of_stuck k (sound r) t, fun s ls s' r run => ?_,
    fun s side result r hh => ?_, fun s side s' result r hh h hr => unread_of_returned (sound r) k hh h hr,
    fun s side r => ((sound r).calm side).delivered⟩
  case refine_1 =>
    exact run.length_le (P := Sound x) (fun o h => ⟨o.step k.short h, weight_step o k h⟩) (sound r)
  case refine_2 =>
    obtain h | h | h := ((sound r).calm side).phase <;> rw [hh] at h <;> cases h
    rfl

-- Two peers with one message to send.
abbrev greeting : @Setup Crypto.transparent :=
  letI := Crypto.transparent
  { identity | .a => .ofSeed (.replicate 32 1) | .b => .ofSeed (.replicate 32 2)
    nonce _ := .replicate 32 3
    later | .a => [.listResources 1] | .b => [] }

omit [Crypto] in
theorem handed_off_greeting :
    let _ := Crypto.transparent
    ∀ s, Reachable greeting.system s → greeting.system.Stuck s →
      (s.endpoint .b).delivered = [.listResources 1] := by
  have hk : @Setup.Fitting Crypto.transparent greeting := by
    rintro (_ | _) m hm
    case a => exact List.mem_singleton.mp hm ▸ ⟨trivial, by decide⟩
    case b => contradiction
  have ⟨h, _⟩ := @handed_off Crypto.transparent greeting Crypto.transparent_lawful hk
  exact fun s r t => (h s r t .b).right

-- A message in a frame over the limit is never handed on.
theorem not_delivered [LawfulCrypto] (k : x.Short) (r : Reachable x.system s)
    (hf : ¬m.toFrame.Fits) : m ∉ (s.endpoint side).delivered :=
  fun hm => hf (((Sound.reachable k r).calm side).taken m hm).right

def zeros (n : Nat) : Message :=
  .resourceChunk 1 ⟨.replicate 32 0⟩ 0 (.replicate n 0)

omit [Crypto] in
theorem length_zeros : (zeros n).toFrame.payload.length = 44 + n := by
  simp [zeros, Message.toFrame, Message.payload]
  omega

-- A peer that sends 16 MiB of data in one chunk.
abbrev oversized : @Setup Crypto.transparent :=
  letI := Crypto.transparent
  { identity | .a => .ofSeed (.replicate 32 1) | .b => .ofSeed (.replicate 32 2)
    nonce _ := .replicate 32 3
    later | .a => [zeros maxFrameSize] | .b => [] }

omit [Crypto] in
theorem oversized_not_delivered :
    let _ := Crypto.transparent
    ∀ s, Reachable oversized.system s → (s.endpoint .b).delivered ≠ oversized.later .a := by
  intro _ s r hd
  have hk : oversized.Short := by
    rintro (_ | _) m hm
    case a =>
      rw [List.mem_singleton.mp hm, length_zeros, maxFrameSize]
      omega
    case b => contradiction
  have hf : ¬(zeros maxFrameSize).toFrame.Fits := by
    rw [Frame.Fits, length_zeros]
    omega
  exact @not_delivered Crypto.transparent oversized s .b _ Crypto.transparent_lawful hk r hf
    (hd ▸ List.mem_singleton_self _)

end Parsip.HandOff
