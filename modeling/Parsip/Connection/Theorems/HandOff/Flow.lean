import Parsip.Connection.HandOff
import Parsip.Protocol.Theorems.Codec

namespace Parsip.HandOff

open Transition

variable {s s' : State} {side : Side} {e r r' : Endpoint} {p q : Pipe UInt8} {m : Message} {n : Nat}

namespace State

@[simp]
theorem setPipe_self : (s.setPipe side p).pipe side = p :=
  Function.update_self ..

@[simp]
theorem setPipe_other : (s.setPipe side p).pipe side.other = s.pipe side.other :=
  Function.update_of_ne Side.other_ne ..

@[simp]
theorem setPipe_of_other : (s.setPipe side.other p).pipe side = s.pipe side :=
  Function.update_of_ne Side.other_ne.symm ..

@[simp]
theorem setEndpoint_self : (s.setEndpoint side e).endpoint side = e :=
  Function.update_self ..

@[simp]
theorem setEndpoint_other : (s.setEndpoint side e).endpoint side.other = s.endpoint side.other :=
  Function.update_of_ne Side.other_ne ..

@[simp] theorem setPipe_endpoint : (s.setPipe side p).endpoint = s.endpoint := rfl
@[simp] theorem setEndpoint_pipe : (s.setEndpoint side e).pipe = s.pipe := rfl

end State

theorem mayRead_cases (h : s.mayRead side n = true) :
    (∃ o, (s.endpoint side).handshake = .returned (.ok o) ∧ (s.endpoint side).stopped = false) ∨
    ((∀ o, (s.endpoint side).handshake ≠ .returned o) ∧ (s.pipe side).unsent = [] ∧
      n ≤ LengthPrefixCodec.needs (s.taken side)) := by
  simp only [State.mayRead] at h
  split at h
  case h_1 o ho => exact .inl ⟨o, ho, by simpa using h⟩
  case h_2      => contradiction
  case h_3 hok herr =>
    refine .inr ⟨fun o ho => ?_, by simpa using h⟩
    cases o
    case error => exact herr _ ho
    case ok    => exact hok _ ho

variable [Crypto] {x : Setup} {label : Label} {ls : List Label}

namespace Setup

def proof (x : Setup) (side : Side) : Message :=
  .helloProof <| (x.identity side).sign (x.nonce side.other).toList

-- All that a side sends.
def script (x : Setup) (side : Side) : List Message :=
  [x.hello side, x.proof side] ++ x.later side

-- What a side in state `e` has not yet begun to send.
def remaining (x : Setup) (side : Side) (e : Endpoint) : List Message :=
  match e.handshake with
  | .awaitHello => x.proof side :: e.queue
  | _           => e.queue

-- What the other side, in state `r`, has decoded of it.
def consumed (x : Setup) (side : Side) (r : Endpoint) : List Message :=
  match r.handshake with
  | .awaitHello   => []
  | .awaitProof _ => [x.hello side]
  | .returned _   => [x.hello side, x.proof side] ++ r.delivered

-- The message a handshake waits for.
def awaited (x : Setup) (side : Side) (r : Endpoint) : Option Message :=
  match r.handshake with
  | .awaitHello   => some <| x.hello side
  | .awaitProof _ => some <| x.proof side
  | .returned _   => none

end Setup

-- The stream from a side in state `e` to the other one in state `r`.
structure Flow (x : Setup) (side : Side) (e r : Endpoint) (p : Pipe UInt8) : Prop where
  transit : r.stopped = false → ∃ transit, p.Carries encode transit ∧
    x.consumed side r ++ transit ++ x.remaining side e = x.script side
  exact : ∀ {m}, x.awaited side r = some m → p.taken <+: encode m

-- One end of the connection, at `side`.
structure Calm (x : Setup) (side : Side) (e : Endpoint) : Prop where
  phase : e.handshake = .awaitHello ∨ e.handshake = .awaitProof (x.identity side.other).publicKey ∨
    e.handshake = .returned (.ok (x.identity side.other).peerId)
  idle : (∀ o, e.handshake ≠ .returned o) → e.queue = x.later side ∧ e.delivered = [] ∧
    e.stopped = false
  queue : e.queue <:+ x.later side
  delivered : e.delivered <+: x.later side.other
  taken : ∀ m ∈ e.delivered, m.Established ∧ m.toFrame.Fits
  halted : e.stopped = true → ∃ m ∈ x.later side.other, ¬(m.Established ∧ m.toFrame.Fits)

structure Sound (x : Setup) (s : State) : Prop where
  calm : ∀ side, Calm x side (s.endpoint side)
  flow : ∀ side, Flow x side (s.endpoint side) (s.endpoint side.other) (s.pipe side)

theorem hello_fits : (x.hello side).toFrame.Fits := by
  simp [Setup.hello, Handshake.hello, Frame.Fits, Message.toFrame, Message.payload, maxFrameSize]

theorem proof_fits : (x.proof side).toFrame.Fits := by
  simp [Setup.proof, Frame.Fits, Message.toFrame, Message.payload, maxFrameSize]

theorem awaited_fits (h : x.awaited side r = some m) : m.toFrame.Fits := by
  simp only [Setup.awaited] at h
  split at h <;> cases h
  case h_1 => exact hello_fits
  case h_2 => exact proof_fits

theorem exists_awaited (side : Side) (h : ∀ o, r.handshake ≠ .returned o) : ∃ m, x.awaited side r = some m := by
  cases hh : r.handshake
  case awaitHello => exact ⟨x.hello side, by rw [Setup.awaited, hh]⟩
  case awaitProof => exact ⟨x.proof side, by rw [Setup.awaited, hh]⟩
  case returned o => exact absurd hh (h o)

namespace Flow

-- The stream goes on with the message that the handshake waits for.
theorem carries_awaited (f : Flow x side e r p) (hs : r.stopped = false)
    (h : x.awaited side r = some m) : (p.content = [] ∧
      x.consumed side r ++ x.remaining side e = x.script side) ∨
    ∃ rest, p.Carries encode (m :: rest) ∧
      x.consumed side r ++ m :: rest ++ x.remaining side e = x.script side := by
  have ⟨transit, hc, he⟩ := f.transit hs
  cases transit
  case nil => exact .inl ⟨hc, by simpa using he⟩
  case cons m' rest =>
    refine .inr ⟨rest, ?_⟩
    suffices m' = m from this ▸ ⟨hc, he⟩
    simp only [Setup.awaited, Setup.consumed, Setup.script] at h he
    split at h <;> cases h <;> rename_i hh <;> simp [hh] at he
    case h_1 => exact he.left
    case h_2 => exact he.left

theorem write (f : Flow x side e r p) (h : p.move (.write n) = some q) : Flow x side e r q where
  transit hs :=
    have ⟨transit, hc, he⟩ := f.transit hs
    ⟨transit, hc.move h, he⟩
  exact := by
    simp only [Pipe.move, Option.ite_none_right_eq_some, Option.some.injEq] at h
    rw [← h.right]
    exact f.exact

theorem deliver (f : Flow x side e r p) (h : p.move (.deliver n) = some q) : Flow x side e r q where
  transit hs :=
    have ⟨transit, hc, he⟩ := f.transit hs
    ⟨transit, hc.move h, he⟩
  exact := by
    simp only [Pipe.move, Option.ite_none_right_eq_some, Option.some.injEq] at h
    rw [← h.right]
    exact f.exact

-- `read_exact` does not run into the next frame.
theorem read (f : Flow x side e r p) (h : p.move (.read n) = some q) (hs : r.stopped = false)
    (hn : x.awaited side r ≠ none → n ≤ LengthPrefixCodec.needs p.taken) : Flow x side e r q where
  transit hs :=
    have ⟨transit, hc, he⟩ := f.transit hs
    ⟨transit, hc.move h, he⟩
  exact {m} hm := by
    have hn := hn (by simp [hm])
    have ⟨hl, ht⟩ := Pipe.taken_of_move h
    have hle := (LengthPrefixCodec.needs_of_isPrefix (awaited_fits hm) (f.exact hm)).left
    have hq : q.taken <+: p.content := Pipe.move_content h ▸ Pipe.taken_isPrefix
    obtain ⟨he, _⟩ | ⟨rest, hc, _⟩ := f.carries_awaited hs hm
    case inl =>
      rw [he, List.prefix_nil] at hq
      exact hq ▸ List.nil_prefix
    case inr =>
      rw [hc, List.flatMap_cons] at hq
      refine List.prefix_of_prefix_length_le hq (List.prefix_append ..) ?_
      rw [ht, List.length_append, List.length_take]
      exact Nat.le_trans (by omega) hle

-- When the handshake's `decode` can return, the frame is there and no byte more.
theorem decode_awaited (f : Flow x side e r p) (hs : r.stopped = false)
    (hm : x.awaited side r = some m) (hn : LengthPrefixCodec.needs p.taken = 0) :
    p.taken = encode m ∧ ∃ rest, p.Carries encode (m :: rest) ∧
      x.consumed side r ++ m :: rest ++ x.remaining side e = x.script side := by
  have hw := (LengthPrefixCodec.needs_of_isPrefix (awaited_fits hm) (f.exact hm)).right
  obtain ⟨he, _⟩ | ⟨rest, hc⟩ := f.carries_awaited hs hm
  case inl =>
    have ht : p.taken = [] := List.prefix_nil.mp <| he ▸ Pipe.taken_isPrefix
    rw [ht] at hn
    contradiction
  case inr =>
    refine ⟨?_, rest, hc⟩
    by_contra hne
    exact absurd hn (hw hne).ne'

theorem consume {rest : Bytes} {transit : List Message} (ht : p.taken = encode m ++ rest)
    (hp : p.Carries encode (m :: transit))
    (hw : x.consumed side r ++ m :: transit ++ x.remaining side e = x.script side)
    (hc : x.consumed side r' = x.consumed side r ++ [m])
    (he : ∀ {m'}, x.awaited side r' = some m' → rest <+: encode m') :
    Flow x side e r' { p with taken := rest } where
  transit _ := ⟨transit, hp.consume ht, by simpa [hc] using hw⟩
  exact     := he

theorem emit {e' : Endpoint} (f : Flow x side e r p) (hu : p.unsent = [])
    (hr : x.remaining side e = m :: x.remaining side e') :
    Flow x side e' r { p with unsent := encode m } where
  transit hs := by
    have ⟨transit, hp, hw⟩ := f.transit hs
    exact ⟨transit ++ [m], hp.load hu, by simpa [hr] using hw⟩
  exact := f.exact

theorem sender {e' : Endpoint} (f : Flow x side e r p)
    (hr : x.remaining side e = x.remaining side e') : Flow x side e' r p where
  transit hs := hr ▸ f.transit hs
  exact := f.exact

end Flow

-- What the narrowing of a frame's length to 32 bits can carry.
def Setup.Short (x : Setup) : Prop :=
  ∀ side, ∀ m ∈ x.later side, 1 + m.toFrame.payload.length < 2 ^ 32

-- When the read loop's `decode` can return, it is with the next message, unless the frame is over
-- the limit.
theorem Flow.decode_later {o : Outcome PeerId} (f : Flow x side e r p) (k : x.Short)
    (hs : r.stopped = false) (hh : r.handshake = .returned o)
    (hn : LengthPrefixCodec.needs p.taken = 0) : ∃ m transit, p.Carries encode (m :: transit) ∧
      x.consumed side r ++ m :: transit ++ x.remaining side e = x.script side ∧
      m ∈ x.later side ∧ r.delivered ++ [m] <+: x.later side ∧
      (m.toFrame.Fits ∧ (∃ rest, p.taken = encode m ++ rest ∧
        LengthPrefixCodec.decode p.taken none = (.ok (some m.toFrame), rest)) ∨
      ¬m.toFrame.Fits ∧ ∃ err, (LengthPrefixCodec.decode p.taken none).fst = .error err) := by
  have ⟨transit, hc, he⟩ := f.transit hs
  have ht : p.taken <+: p.content := Pipe.taken_isPrefix
  cases transit
  case nil =>
    rw [hc, List.flatMap_nil, List.prefix_nil] at ht
    rw [ht] at hn
    contradiction
  case cons m transit =>
    rw [hc, List.flatMap_cons] at ht
    have hl : r.delivered ++ m :: transit ++ x.remaining side e = x.later side := by
      simpa [Setup.consumed, hh, Setup.script] using he
    have hm : m ∈ x.later side := by
      rw [← hl]
      simp
    refine ⟨m, transit, hc, he, hm, ⟨transit ++ x.remaining side e, by simpa using hl⟩, ?_⟩
    by_cases hf : m.toFrame.Fits
    case pos =>
      have ⟨rest, hr⟩ := LengthPrefixCodec.encode_prefix_of_needs hf ht hn
      exact .inl ⟨hf, rest, hr.symm, hr ▸ LengthPrefixCodec.decode_encode hf⟩
    case neg =>
      exact .inr ⟨hf, LengthPrefixCodec.decode_not_fits hf (k side m hm) ht hn⟩

-- The three ways in which a side can go on after a frame.
namespace State

-- It answers the Hello of the other side.
def answered (x : Setup) (s : State) (side : Side) : State :=
  (s.setPipe side.other { s.pipe side.other with taken := [] })
    |>.setEndpoint side { s.endpoint side with
      handshake := .awaitProof (x.identity side.other).publicKey }
    |>.setPipe side { s.pipe side with unsent := encode (x.proof side) }

-- It returns from the handshake.
def returned (x : Setup) (s : State) (side : Side) : State :=
  (s.setPipe side.other { s.pipe side.other with taken := [] })
    |>.setEndpoint side { s.endpoint side with
      handshake := .returned <| .ok (x.identity side.other).peerId }

-- It hands on a message.
def handed (s : State) (side : Side) (m : Message) (rest : Bytes) : State :=
  (s.setPipe side.other { s.pipe side.other with taken := rest })
    |>.setEndpoint side { s.endpoint side with
      delivered := (s.endpoint side).delivered ++ [m] }

-- It leaves the read loop.
def left (s : State) (side : Side) (rest : Bytes) : State :=
  (s.setPipe side.other { s.pipe side.other with taken := rest })
    |>.setEndpoint side { s.endpoint side with stopped := true }

end State

-- Both directions, as one of the two sides sees them.
theorem Sound.of_sides (side : Side) (c : Calm x side (s.endpoint side))
    (c' : Calm x side.other (s.endpoint side.other))
    (f : Flow x side (s.endpoint side) (s.endpoint side.other) (s.pipe side))
    (f' : Flow x side.other (s.endpoint side.other) (s.endpoint side) (s.pipe side.other)) :
    Sound x s where
  calm side' := by
    obtain rfl | rfl := Side.eq_or_eq_other side side'
    case inl => exact c
    case inr => exact c'
  flow side' := by
    obtain rfl | rfl := Side.eq_or_eq_other side side'
    case inl => exact f
    case inr => rwa [Side.other_other]

theorem Sound.flow_other (o : Sound x s) (side : Side) :
    Flow x side.other (s.endpoint side.other) (s.endpoint side) (s.pipe side.other) := by
  have f := o.flow side.other
  rwa [Side.other_other] at f

theorem Sound.init : Sound x x.init where
  calm side := {
    phase     := .inl rfl
    idle _    := ⟨rfl, rfl, rfl⟩
    queue     := List.suffix_rfl
    delivered := List.nil_prefix
    taken     := nofun
    halted    := nofun
  }
  flow side := {
    transit _ := ⟨[x.hello side], by simp [Pipe.Carries, Pipe.content, Pipe.empty, Setup.init], rfl⟩
    exact _   := List.nil_prefix
  }

section Step

variable [LawfulCrypto]

-- The handshake on the message that it waits for.
theorem resume_awaited (c : Calm x side e) (h : x.awaited side.other e = some m) :
    (e.handshake = .awaitHello ∧ m = x.hello side.other ∧
      e.handshake.resume (x.identity side) (x.nonce side) (.ok <| some m.toFrame) =
        (.awaitProof (x.identity side.other).publicKey, some <| x.proof side)) ∨
    (e.handshake = .awaitProof (x.identity side.other).publicKey ∧ m = x.proof side.other ∧
      e.handshake.resume (x.identity side) (x.nonce side) (.ok <| some m.toFrame) =
        (.returned <| .ok (x.identity side.other).peerId, none)) := by
  obtain hh | hh | hh := c.phase <;> simp only [Setup.awaited, hh] at h <;> cases h
  case inl =>
    refine .inl ⟨hh, rfl, ?_⟩
    have ht : Message.tryFrom (x.hello side.other).toFrame = .ok (x.hello side.other) :=
      Message.tryFrom_toFrame_eq trivial
    have hk : Crypto.isKey (x.identity side.other).publicKey = true :=
      LawfulCrypto.isKey_verifyingKey _
    rw [hh, Handshake.resume, ht]
    simp only [Setup.hello, Handshake.hello, hk, if_true]
    rfl
  case inr.inl =>
    refine .inr ⟨hh, rfl, ?_⟩
    have ht : Message.tryFrom (x.proof side.other).toFrame = .ok (x.proof side.other) :=
      Message.tryFrom_toFrame_eq trivial
    have hv : Crypto.verify (x.identity side.other).publicKey (x.nonce side).toList
        ((x.identity side.other).sign (x.nonce side).toList) = true :=
      LawfulCrypto.verify_sign ..
    rw [hh, Handshake.resume, ht]
    simp only [Setup.proof, Side.other_other, hv, if_true, (x.identity side.other).derived]
    rfl

namespace Sound

-- A frame of the handshake has come.
theorem handshake (o : Sound x s) (hs : ∀ o, (s.endpoint side).handshake ≠ .returned o)
    (hu : (s.pipe side).unsent = []) (hn : LengthPrefixCodec.needs (s.taken side) = 0) :
    ∃ result s', LengthPrefixCodec.decode (s.taken side) none = (result, []) ∧
      x.handshake (s.setPipe side.other { s.pipe side.other with taken := [] }) side result = s' ∧
      Sound x s' ∧
      ((s.endpoint side).handshake = .awaitHello ∧ s' = s.answered x side ∨
        (s.endpoint side).handshake = .awaitProof (x.identity side.other).publicKey ∧
        s' = s.returned x side) := by
  have c := o.calm side
  have ⟨hq, hd, ht⟩ := c.idle hs
  have ⟨m, hm⟩ := exists_awaited (x := x) side.other hs
  have ⟨he, transit, hp, hw⟩ := (o.flow_other side).decode_awaited ht hm hn
  have hdec : LengthPrefixCodec.decode (s.taken side) none = (.ok (some m.toFrame), []) := by
    rw [State.taken, he, ← List.append_nil (encode m)]
    exact LengthPrefixCodec.decode_encode (awaited_fits hm)
  obtain ⟨hh, hm, hr⟩ | ⟨hh, hm, hr⟩ := resume_awaited c hm
  case inl =>
    refine ⟨_, s.answered x side, hdec, by simp [Setup.handshake, hr, State.answered], ?_,
      .inl ⟨hh, rfl⟩⟩
    refine .of_sides side ?_ ?_ ?_ ?_ <;>
      simp only [State.answered, State.setPipe_self, State.setPipe_other, State.setPipe_endpoint,
        State.setEndpoint_self, State.setEndpoint_other, State.setEndpoint_pipe]
    · exact ⟨.inr <| .inl rfl, fun _ => ⟨hq, hd, ht⟩, c.queue, c.delivered, c.taken, c.halted⟩
    · exact o.calm side.other
    · exact (o.flow side).emit hu <| by simp [Setup.remaining, hh]
    · refine .consume (m := m) (by simp [he]) hp hw ?_ fun _ => List.nil_prefix
      simp [Setup.consumed, hh, hm]
  case inr =>
    refine ⟨_, s.returned x side, hdec, by simp [Setup.handshake, hr, State.returned], ?_,
      .inr ⟨hh, rfl⟩⟩
    refine .of_sides side ?_ ?_ ?_ ?_ <;>
      simp only [State.returned, State.setPipe_self, State.setPipe_of_other, State.setPipe_endpoint,
        State.setEndpoint_self, State.setEndpoint_other, State.setEndpoint_pipe]
    · exact ⟨.inr <| .inr rfl, fun h => absurd rfl (h _), c.queue, c.delivered, c.taken, c.halted⟩
    · exact o.calm side.other
    · exact (o.flow side).sender <| by simp [Setup.remaining, hh]
    · refine .consume (m := m) (by simp [he]) hp hw ?_ fun _ => List.nil_prefix
      simp [Setup.consumed, hh, hm, hd]

omit [LawfulCrypto] in
-- A turn of the read loop.
theorem readLoop {f : Outcome PeerId} (o : Sound x s) (k : x.Short)
    (hh : (s.endpoint side).handshake = .returned f) (hs : (s.endpoint side).stopped = false)
    (hn : LengthPrefixCodec.needs (s.taken side) = 0) :
    ∃ s', Setup.readLoop (s.setPipe side.other { s.pipe side.other with
        taken := (LengthPrefixCodec.decode (s.taken side) none).snd }) side
      (LengthPrefixCodec.decode (s.taken side) none).fst = s' ∧ Sound x s' ∧
      ((∃ m rest, s' = s.handed side m rest) ∨
        (s'.endpoint side).stopped = true) := by
  have c := o.calm side
  have ⟨m, transit, hp, hw, hm, hl, hd⟩ := (o.flow_other side).decode_later k hs hh hn
  -- A reader that leaves its loop has met a message that it does not take.
  have stop (hb : ¬(m.Established ∧ m.toFrame.Fits)) {rest : Bytes} :
      Sound x (s.left side rest) := by
    refine .of_sides side ?_ ?_ ?_ ?_ <;>
      simp only [State.left, State.setPipe_self, State.setPipe_of_other, State.setPipe_endpoint,
        State.setEndpoint_self, State.setEndpoint_other, State.setEndpoint_pipe]
    · exact ⟨c.phase, fun h => absurd hh (h _), c.queue, c.delivered, c.taken, fun _ => ⟨m, hm, hb⟩⟩
    · exact o.calm side.other
    · exact (o.flow side).sender rfl
    · exact ⟨nofun, fun h => by simp [Setup.awaited, hh] at h⟩
  obtain ⟨hf, rest, ht, hd⟩ | ⟨hf, e, hd⟩ := hd
  case inr =>
    refine ⟨s.left side (LengthPrefixCodec.decode (s.taken side) none).snd, ?_,
      stop fun h => hf h.right, .inr <| by simp [State.left]⟩
    simp only [State.taken, Setup.readLoop, hd, show readTurn (.error e) = .leave from rfl]
    rfl
  case inl =>
    have hr : readTurn (.ok <| some m.toFrame) = if m.Established then .message m else .leave := by
      rw [readTurn, Message.tryFrom_toFrame_eq (.of_fits hf)]
    simp only [State.taken, Setup.readLoop, hd, hr]
    by_cases he : m.Established
    case neg =>
      simp only [he, if_false]
      exact ⟨s.left side rest, rfl, stop fun h => he h.left, .inr <| by simp [State.left]⟩
    case pos =>
      simp only [he, if_true]
      refine ⟨s.handed side m rest, rfl, ?_, .inl ⟨m, rest, rfl⟩⟩
      refine .of_sides side ?_ ?_ ?_ ?_ <;>
        simp only [State.handed, State.setPipe_self, State.setPipe_of_other, State.setPipe_endpoint,
          State.setEndpoint_self, State.setEndpoint_other, State.setEndpoint_pipe]
      · refine ⟨c.phase, fun h => absurd hh (h _), c.queue, hl, fun m' hm' => ?_, fun h => ?_⟩
        · obtain hm' | hm' := List.mem_append.mp hm'
          case inl => exact c.taken m' hm'
          case inr => exact List.mem_singleton.mp hm' ▸ ⟨he, hf⟩
        · rw [hs] at h
          contradiction
      · exact o.calm side.other
      · exact (o.flow side).sender rfl
      · refine .consume ht hp hw ?_ fun h => by simp [Setup.awaited, hh] at h
        simp [Setup.consumed, hh]

-- What a decoded frame leads to.
theorem decode (o : Sound x s) (k : x.Short) (h : x.step s (.decode side) = some s') : Sound x s' ∧
    ((s.endpoint side).handshake = .awaitHello ∧ (s.pipe side).unsent = [] ∧ s' = s.answered x side ∨
    (s.endpoint side).handshake = .awaitProof (x.identity side.other).publicKey ∧
      s' = s.returned x side ∨
    (∃ f, (s.endpoint side).handshake = .returned f) ∧
      ((∃ m rest, s' = s.handed side m rest) ∨ (s'.endpoint side).stopped = true)) := by
  simp only [Setup.step, Option.ite_none_right_eq_some] at h
  obtain ⟨⟨hr, hn⟩, h⟩ := h
  obtain ⟨f, hh, hs⟩ | ⟨hh, hu, _⟩ := mayRead_cases hr
  case inl =>
    simp only [State.setPipe_endpoint, hh, Option.some.injEq] at h
    have ⟨_, hs', ho, hc⟩ := o.readLoop k hh hs hn
    cases h.symm.trans hs'
    exact ⟨ho, .inr <| .inr ⟨⟨_, hh⟩, hc⟩⟩
  case inr =>
    have ⟨result, _, hd, hs', ho, hc⟩ := o.handshake hh hu hn
    simp only [State.setPipe_endpoint, hd] at h
    cases (Option.some.inj h).symm.trans hs'
    obtain ⟨hh, hs⟩ | hc := hc
    case inl => exact ⟨ho, .inl ⟨hh, hu, hs⟩⟩
    case inr => exact ⟨ho, .inr <| .inl hc⟩

omit [LawfulCrypto] in
theorem read (o : Sound x s) (hr : s.mayRead side n = true)
    (h : (s.pipe side.other).move (.read n) = some q) : Sound x (s.setPipe side.other q) := by
  have f : Flow x side.other (s.endpoint side.other) (s.endpoint side) q := by
    obtain ⟨f, hf, hs⟩ | ⟨hh, _, hn⟩ := mayRead_cases hr
    case inl => exact (o.flow_other side).read h hs fun h => by simp [Setup.awaited, hf] at h
    case inr => exact (o.flow_other side).read h ((o.calm side).idle hh).right.right fun _ => hn
  refine .of_sides side (o.calm side) (o.calm side.other) ?_ ?_
  · simpa using o.flow side
  · simpa using f

theorem step (o : Sound x s) (k : x.Short) (h : x.step s label = some s') : Sound x s' := by
  cases label
  case write side n =>
    have ⟨q, hq, h⟩ := Option.map_eq_some_iff.mp h
    subst h
    refine .of_sides side (o.calm side) (o.calm side.other) ?_ ?_
    · simpa using (o.flow side).write hq
    · simpa using o.flow_other side
  case deliver side n =>
    have ⟨q, hq, h⟩ := Option.map_eq_some_iff.mp h
    subst h
    refine .of_sides side (o.calm side) (o.calm side.other) ?_ ?_
    · simpa using (o.flow side).deliver hq
    · simpa using o.flow_other side
  case read side n =>
    have ⟨hr, h⟩ := (Option.ite_none_right_eq_some ..).mp h
    have ⟨q, hq, h⟩ := Option.map_eq_some_iff.mp h
    exact h ▸ o.read hr hq
  case decode side => exact (o.decode k h).left
  case send side =>
    simp only [Setup.step] at h
    split at h
    case h_2 => contradiction
    case h_1 _ f _ m queue hh hu hq =>
      cases h
      have c := o.calm side
      refine .of_sides side ?_ ?_ ?_ ?_ <;>
        simp only [State.setPipe_self, State.setPipe_other, State.setPipe_endpoint,
          State.setEndpoint_self, State.setEndpoint_other, State.setEndpoint_pipe]
      · exact ⟨c.phase, fun h => absurd hh (h _), (List.suffix_cons ..).trans (hq ▸ c.queue),
          c.delivered, c.taken, c.halted⟩
      · exact o.calm side.other
      · exact (o.flow side).emit hu <| by simp [Setup.remaining, hh, hq]
      · exact ⟨(o.flow_other side).transit, (o.flow_other side).exact⟩

theorem reachable (k : x.Short) (r : Reachable x.system s) : Sound x s := by
  refine Invariant.reachable ⟨?_, fun o h => o.step k h⟩ r
  rintro _ rfl
  exact init

end Sound
end Step

end Parsip.HandOff
