import Parsip.Connection.Sessions
import Parsip.Protocol.Theorems.Message

namespace Parsip.Sessions

open Transition

variable [Crypto] {α : Type} {x : Setup α} {s s' : State α} {t u : Session α} {a : α} {i j : Nat}
variable {result : Except Error (Option Frame)} {k : PublicKey} {n : Nonce} {label : Label α}

namespace Setup

-- `a` has a session with this nonce that got the Hello of `t`.
def Vouched (x : Setup α) (s : State α) (t : Session α) (a : α) (nonce : Nonce) : Prop :=
  ∃ u ∈ s.sessions, u.owner = a ∧ u.nonce = nonce ∧
    u.received = some (x.publicKey t.owner, t.nonce)

-- A session that ends with the id of an honest peer has talked to a session of that peer.
def Agreement (x : Setup α) (s : State α) : Prop :=
  ∀ t ∈ s.sessions, ∀ a, a ≠ t.owner → t.handshake = .returned (.ok (x.identity a).peerId) →
    ∃ u ∈ s.sessions, u.owner = a ∧ u.received = some (x.publicKey t.owner, t.nonce) ∧
      t.received = some (x.publicKey a, u.nonce)

-- A condition on the Hello that a session is about to answer. First, when its nonce is that of a
-- session that waits for the proof of the one who answers, then the Hello is the one of that session
-- and that session has the Hello of this one. Second, when it names a peer that has already signed
-- the nonce of this session, then it comes from a session that did so for the Hello of this one.
def Careful (x : Setup α) (s : State α) : Label α → Prop
  | .start ..          => True
  | .deliver i result  => ∀ u k n, s.sessions[i]? = some u → answers u result = some (k, n) →
    (∀ t ∈ s.sessions, ∀ n', t.nonce = n → t.owner ≠ u.owner →
      t.handshake = .awaitProof (x.publicKey u.owner) →
      t.received = some (x.publicKey u.owner, n') →
      k = x.publicKey t.owner ∧ u.nonce = n' ∨ x.Vouched s t u.owner n') ∧
    ∀ a, a ≠ u.owner → k = x.publicKey a → (a, u.nonce.toList) ∈ s.signed → x.Vouched s u a n

end Setup

-- What a session does with the result of a read.
theorem resume_cases (u : Session α) (result : Except Error (Option Frame)) :
    (u.handshake = .awaitHello ∧ ∃ k n, answers u result = some (k, n) ∧
      helloOf result = some (k, n) ∧
      (u.handshake.resume (x.identity u.owner) u.nonce result).fst = .awaitProof k) ∨
    (∃ k signature, u.handshake = .awaitProof k ∧ answers u result = none ∧
      proofOf result = some signature ∧ Crypto.verify k u.nonce.toList signature = true ∧
      (u.handshake.resume (x.identity u.owner) u.nonce result).fst =
        .returned (.ok <| .fromPublicKey k)) ∨
    (answers u result = none ∧ ∃ f,
      (u.handshake.resume (x.identity u.owner) u.nonce result).fst = .returned (.error f)) ∨
    (answers u result = none ∧ ∃ o, u.handshake = .returned o ∧
      (u.handshake.resume (x.identity u.owner) u.nonce result).fst = .returned o) := by
  cases hh : u.handshake
  case awaitHello =>
    match result with
    | .error e        => exact .inr <| .inr <| .inl ⟨by simp [answers, hh, helloOf], _, rfl⟩
    | .ok none        => exact .inr <| .inr <| .inl ⟨by simp [answers, hh, helloOf], _, rfl⟩
    | .ok (some frame) =>
      simp only [answers, hh, helloOf, Handshake.resume]
      cases hm : Message.tryFrom frame
      case error f => exact .inr <| .inr <| .inl ⟨rfl, f, rfl⟩
      case ok m =>
        cases m
        case hello k n =>
          by_cases hk : Crypto.isKey k
          case pos => exact .inl ⟨trivial, k, n, by simp [hk], rfl, by simp [hk]⟩
          case neg => exact .inr <| .inr <| .inl ⟨by simp [hk], _, by simp only [hk]; rfl⟩
        all_goals exact .inr <| .inr <| .inl ⟨rfl, _, rfl⟩
  case awaitProof k =>
    match result with
    | .error e        => exact .inr <| .inr <| .inl ⟨by simp [answers, hh], _, rfl⟩
    | .ok none        => exact .inr <| .inr <| .inl ⟨by simp [answers, hh], _, rfl⟩
    | .ok (some frame) =>
      simp only [answers, hh, proofOf, Handshake.resume]
      cases hm : Message.tryFrom frame
      case error f => exact .inr <| .inr <| .inl ⟨trivial, f, rfl⟩
      case ok m =>
        cases m
        case helloProof signature =>
          by_cases hv : Crypto.verify k u.nonce.toList signature
          case pos => exact .inr <| .inl ⟨k, signature, rfl, trivial, rfl, hv, by simp [hv]⟩
          case neg => exact .inr <| .inr <| .inl ⟨trivial, _, by simp only [hv]; rfl⟩
        all_goals exact .inr <| .inr <| .inl ⟨trivial, _, rfl⟩
  case returned o => exact .inr <| .inr <| .inr ⟨by simp [answers, hh], o, rfl, rfl⟩

-- What the sessions know of their peers.
structure Known (x : Setup α) (s : State α) : Prop where
  waiting : ∀ {t}, t ∈ s.sessions → t.handshake = .awaitHello → t.received = none
  keyed : ∀ {t k}, t ∈ s.sessions → t.handshake = .awaitProof k → ∃ n, t.received = some (k, n)
  named : ∀ {t p}, t ∈ s.sessions → t.handshake = .returned (.ok p) →
    ∃ k n, t.received = some (k, n) ∧ p = .fromPublicKey k

-- The session that a step replaces, in the list after the step.
theorem mem_deliver (ht : t ∈ (x.deliver s i u result).sessions) :
    t ∈ s.sessions ∨ t = x.resumed u result :=
  List.mem_or_eq_of_mem_set ht

namespace Known

theorem init : Known x .init where
  waiting := nofun
  keyed   := nofun
  named   := nofun

theorem resumed_waiting : (x.resumed u result).handshake ≠ .awaitHello := by
  obtain ⟨_, _, _, _, _, h⟩ | ⟨_, _, _, _, _, _, h⟩ | ⟨_, _, h⟩ | ⟨_, _, _, h⟩ :=
    resume_cases (x := x) u result <;>
  simp [Setup.resumed, h]

theorem resumed_keyed (hk : (x.resumed u result).handshake = .awaitProof k) :
    u.handshake = .awaitHello ∧ ∃ n, answers u result = some (k, n) ∧
      (x.resumed u result).received = some (k, n) := by
  simp only [Setup.resumed] at hk ⊢
  obtain ⟨hh, k', n, ha, hr, h⟩ | ⟨_, _, _, _, _, _, h⟩ | ⟨_, _, h⟩ | ⟨_, _, _, h⟩ :=
    resume_cases (x := x) u result <;> rw [h] at hk <;> cases hk
  exact ⟨hh, n, ha, by rw [if_pos hh, hr]⟩

theorem resumed_named {p : PeerId} (hp : (x.resumed u result).handshake = .returned (.ok p)) :
    (x.resumed u result).received = u.received ∧ answers u result = none ∧
    (u.handshake = .returned (.ok p) ∨ ∃ k signature, p = .fromPublicKey k ∧
      u.handshake = .awaitProof k ∧ proofOf result = some signature ∧
      Crypto.verify k u.nonce.toList signature = true) := by
  simp only [Setup.resumed] at hp ⊢
  obtain ⟨_, _, _, _, _, h⟩ | ⟨k, signature, hh, ha, hs, hv, h⟩ | ⟨_, _, h⟩ | ⟨ha, o, hh, h⟩ :=
    resume_cases (x := x) u result <;> rw [h] at hp <;> cases hp
  case inr.inl =>
    exact ⟨by rw [if_neg (by simp [hh])], ha, .inr ⟨k, signature, rfl, hh, hs, hv⟩⟩
  case inr.inr.inr => exact ⟨by rw [if_neg (by simp [hh])], ha, .inl hh⟩

theorem step (w : Known x s) (h : x.Step s label s') : Known x s' := by
  cases h
  case start nonce owner _ =>
    have hm : ∀ {t}, t ∈ s.sessions ++ [⟨owner, nonce, .awaitHello, none⟩] →
        t ∈ s.sessions ∨ t = ⟨owner, nonce, .awaitHello, none⟩ := by
      simp
    constructor
    case waiting =>
      intro t ht hw
      obtain ht | rfl := hm ht
      case inl => exact w.waiting ht hw
      case inr => rfl
    case keyed =>
      intro t k ht hk
      obtain ht | rfl := hm ht
      case inl => exact w.keyed ht hk
      case inr => contradiction
    case named =>
      intro t p ht hp
      obtain ht | rfl := hm ht
      case inl => exact w.named ht hp
      case inr => contradiction
  case deliver i u result hi _ =>
    have hu := List.mem_of_getElem? hi
    constructor
    case waiting =>
      intro t ht hw
      obtain ht | rfl := mem_deliver ht
      case inl => exact w.waiting ht hw
      case inr => exact absurd hw resumed_waiting
    case keyed =>
      intro t k ht hk
      obtain ht | rfl := mem_deliver ht
      case inl => exact w.keyed ht hk
      case inr =>
        have ⟨_, n, _, hr⟩ := resumed_keyed hk
        exact ⟨n, hr⟩
    case named =>
      intro t p ht hp
      obtain ht | rfl := mem_deliver ht
      case inl => exact w.named ht hp
      case inr =>
        have ⟨hr, _, hc⟩ := resumed_named hp
        obtain hh | ⟨k, _, hp, hh, _⟩ := hc
        case inl =>
          have ⟨k, n, he, hp⟩ := w.named hu hh
          exact ⟨k, n, hr.trans he, hp⟩
        case inr =>
          have ⟨n, he⟩ := w.keyed hu hh
          exact ⟨k, n, hr.trans he, hp⟩

theorem reachable (r : Reachable x.system s) : Known x s := by
  refine Invariant.reachable ⟨?_, fun w h => w.step h⟩ r
  rintro _ rfl
  exact init

end Known

theorem mem_of_getElem?_set (result) (hi : s.sessions[i]? = some u) (ht : t ∈ s.sessions) :
    t ∈ (x.deliver s i u result).sessions ∨ t = u := by
  have ⟨j, hj⟩ := List.mem_iff_getElem?.mp ht
  by_cases h : i = j
  case pos => exact .inr <| Option.some.inj <| (h ▸ hj).symm.trans hi
  case neg =>
    refine .inl <| List.mem_iff_getElem?.mpr ⟨j, ?_⟩
    rw [Setup.deliver, List.getElem?_set_ne h, hj]

theorem resumed_mem (hi : s.sessions[i]? = some u) :
    x.resumed u result ∈ (x.deliver s i u result).sessions := by
  have ⟨hlt, _⟩ := List.getElem?_eq_some_iff.mp hi
  exact List.mem_iff_getElem?.mpr ⟨i, by simp [Setup.deliver, hlt]⟩

-- A session keeps the Hello it has got.
theorem Known.vouched {n' : Nonce} (w : Known x s) (h : x.Step s label s')
    (v : x.Vouched s t a n') : x.Vouched s' t a n' := by
  obtain ⟨u, hu, ho, hn, hr⟩ := v
  cases h
  case start => exact ⟨u, List.mem_append_left _ hu, ho, hn, hr⟩
  case deliver i u' result hi _ =>
    obtain hm | rfl := mem_of_getElem?_set (x := x) result hi hu
    case inl => exact ⟨u, hm, ho, hn, hr⟩
    case inr =>
      refine ⟨_, resumed_mem hi, ho, hn, ?_⟩
      rw [Setup.resumed, if_neg, hr]
      intro hh
      rw [w.waiting hu hh] at hr
      contradiction

theorem Setup.fromPublicKey (x : Setup α) (a : α) :
    (x.identity a).peerId = .fromPublicKey (x.publicKey a) :=
  (x.identity a).derived

-- Nobody has a signature that lets a session take its peer for someone else.
structure Safe (x : Setup α) (s : State α) : Prop where
  exposed : ∀ {t a n}, t ∈ s.sessions → a ≠ t.owner →
    t.handshake = .awaitProof (x.publicKey a) → t.received = some (x.publicKey a, n) →
    (a, t.nonce.toList) ∈ s.signed → x.Vouched s t a n
  agreed : ∀ {t a}, t ∈ s.sessions → a ≠ t.owner →
    t.handshake = .returned (.ok (x.identity a).peerId) →
    ∃ n, t.received = some (x.publicKey a, n) ∧ x.Vouched s t a n

namespace Safe

theorem init : Safe x .init where
  exposed := nofun
  agreed  := nofun

theorem mem_signed (h : (a, n.toList) ∈ (x.deliver s i u result).signed) :
    (a, n.toList) ∈ s.signed ∨ a = u.owner ∧ ∃ k, answers u result = some (k, n) := by
  simp only [Setup.deliver, List.mem_append, Option.mem_toList, Option.map_eq_some_iff,
    Prod.mk.injEq] at h
  obtain h | ⟨⟨k, n'⟩, ha, ho, hn⟩ := h
  case inl => exact .inl h
  case inr =>
    have : n' = n := Subtype.ext hn
    exact .inr ⟨ho.symm, k, this ▸ ha⟩

theorem start {owner : α} (f : Safe x s) (w : Known x s) (hn : Setup.Unused s n) :
    Safe x { s with sessions := s.sessions ++ [⟨owner, n, .awaitHello, none⟩] } := by
  have hm : ∀ {t}, t ∈ s.sessions ++ [⟨owner, n, .awaitHello, none⟩] →
      t ∈ s.sessions ∨ t = ⟨owner, n, .awaitHello, none⟩ := by
    simp
  constructor
  case exposed =>
    intro t a n' ht ha hh hr hs
    obtain ht | rfl := hm ht
    case inl => exact w.vouched (.start hn) <| f.exposed ht ha hh hr hs
    case inr => contradiction
  case agreed =>
    intro t a ht ha hh
    obtain ht | rfl := hm ht
    case inl =>
      have ⟨n', hr, v⟩ := f.agreed ht ha hh
      exact ⟨n', hr, w.vouched (.start hn) v⟩
    case inr => contradiction

theorem deliver
    (hsha : ∀ k k' : PublicKey, Crypto.sha256 k.toList = Crypto.sha256 k'.toList → k = k')
    (f : Safe x s) (w : Known x s) (hi : s.sessions[i]? = some u) (hu : x.Unforged s u result)
    (hc : x.Careful s (.deliver i result)) : Safe x (x.deliver s i u result) := by
  have hm := List.mem_of_getElem? hi
  have hv {t a n} : x.Vouched s t a n → x.Vouched (x.deliver s i u result) t a n :=
    w.vouched (.deliver hi hu)
  constructor
  case exposed =>
    intro t a n ht ha hh hr hs
    obtain hs | ⟨rfl, k, hk⟩ := mem_signed hs <;> obtain ht | rfl := mem_deliver ht
    case inl.inl => exact hv <| f.exposed ht ha hh hr hs
    case inl.inr =>
      -- The session answers a Hello of `a`.
      have ⟨_, n', hk, hr'⟩ := Known.resumed_keyed hh
      cases hr'.symm.trans hr
      exact hv <| (hc u _ _ hi hk).right a ha rfl hs
    case inr.inl =>
      -- Another session waits for the signature of the one that answers.
      obtain ⟨rfl, rfl⟩ | v := (hc u _ _ hi hk).left t ht n rfl ha.symm hh hr
      case inr => exact hv v
      case inl =>
        refine ⟨_, resumed_mem hi, rfl, rfl, ?_⟩
        have hr' := resume_cases (x := x) u result
        rw [hk] at hr'
        obtain ⟨hh, k, n, hk, hr', _⟩ | ⟨_, _, _, hn, _⟩ | ⟨hn, _⟩ | ⟨hn, _⟩ := hr'
        case inl =>
          cases hk
          rw [Setup.resumed, if_pos hh, hr']
        all_goals contradiction
    case inr.inr => exact absurd rfl ha
  case agreed =>
    intro t a ht ha hh
    obtain ht | rfl := mem_deliver ht
    case inl =>
      have ⟨n, hr, v⟩ := f.agreed ht ha hh
      exact ⟨n, hr, hv v⟩
    case inr =>
      have ⟨hr, _, hp⟩ := Known.resumed_named hh
      rw [hr]
      obtain hh | ⟨k, signature, hp, hh, hs, hk⟩ := hp
      case inl =>
        have ⟨n, hr, v⟩ := f.agreed hm ha hh
        exact ⟨n, hr, hv v⟩
      case inr =>
        have : x.publicKey a = k := hsha _ _ <| congrArg PeerId.bytes <| (x.fromPublicKey a).symm.trans hp
        subst this
        have ⟨n, hr⟩ := w.keyed hm hh
        have v : x.Vouched s u a n := f.exposed hm ha hh hr <| hu a signature hh hs hk
        exact ⟨n, hr, hv v⟩

theorem reachable
    (hsha : ∀ k k' : PublicKey, Crypto.sha256 k.toList = Crypto.sha256 k'.toList → k = k')
    (r : Reachable (x.system.restrict x.Careful) s) : Safe x s := by
  refine Invariant.relative (fun r => Known.reachable r.of_restrict) ?_ (fun w f h => ?_) r
  case refine_1 => rintro _ rfl; exact init
  case refine_2 =>
    obtain ⟨h, hc⟩ := h
    cases h
    case start hn      => exact f.start w hn
    case deliver hi hu => exact f.deliver hsha w hi hu hc

theorem agreement (f : Safe x s) : x.Agreement s := by
  intro t ht a ha hh
  have ⟨n, hr, u, hu, ho, hn, hr'⟩ := f.agreed ht ha hh
  exact ⟨u, hu, ho, hr', hn ▸ hr⟩

end Safe

-- The Hello that a session answers.
theorem resumed_of_answers (h : answers u result = some (k, n)) :
    (x.resumed u result).handshake = .awaitProof k ∧
    (x.resumed u result).received = some (k, n) := by
  have hr := resume_cases (x := x) u result
  rw [h] at hr
  obtain ⟨hh, k, n, hk, hr, h⟩ | ⟨_, _, _, hn, _⟩ | ⟨hn, _⟩ | ⟨hn, _⟩ := hr
  case inl =>
    cases hk
    exact ⟨h, by rw [Setup.resumed, if_pos hh, hr]⟩
  all_goals contradiction

theorem mem_signed_of_answers (h : answers u result = some (k, n)) :
    (u.owner, n.toList) ∈ (x.deliver s i u result).signed := by
  simp [Setup.deliver, h]

section Attack

variable [LawfulCrypto]

-- A signature of a waiting session's nonce makes the session take its peer for the signer.
theorem impersonated (ht : t ∈ s.sessions) (ha : a ≠ t.owner)
    (hh : t.handshake = .awaitProof (x.publicKey a)) (hr : t.received = some (x.publicKey a, n))
    (hs : (a, t.nonce.toList) ∈ s.signed) (hv : ¬x.Vouched s t a n) :
    ∃ label s', x.Step s label s' ∧ ¬x.Agreement s' := by
  have ⟨j, hj⟩ := List.mem_iff_getElem?.mp ht
  let proof := (x.identity a).sign t.nonce.toList
  let result : Except Error (Option Frame) := .ok <| some <| Message.toFrame <| .helloProof proof
  have hm : Message.tryFrom (Message.toFrame (.helloProof proof)) = .ok (.helloProof proof) :=
    Message.tryFrom_toFrame_eq trivial
  have hp : (x.resumed t result).handshake = .returned (.ok (x.identity a).peerId) := by
    have hv : Crypto.verify (x.publicKey a) t.nonce.toList proof = true :=
      LawfulCrypto.verify_sign ..
    rw [Setup.resumed, hh, Handshake.resume, hm, x.fromPublicKey]
    simp only [hv, if_true]
  have hu : x.Unforged s t result := by
    intro b signature hb _ _
    rw [hh] at hb
    have : a = b := x.distinct a b <| by
      rw [x.fromPublicKey, x.fromPublicKey, Handshake.awaitProof.inj hb]
    exact this ▸ hs
  refine ⟨.deliver j result, x.deliver s j t result, .deliver hj hu, fun g => hv ?_⟩
  have ⟨v, hm, ho, hr', hn⟩ := g _ (resumed_mem hj) a ha hp
  obtain hm | rfl := mem_deliver hm
  case inr => exact absurd ho.symm ha
  case inl =>
    refine ⟨v, hm, ho, ?_, hr'⟩
    rw [Setup.resumed, if_neg (by simp [hh]), hr] at hn
    exact (Prod.mk.inj <| Option.some.inj hn).right.symm

-- After a step that is not careful one more step is enough.
theorem careless (h : x.Step s label s') (hc : ¬x.Careful s label) :
    ∃ label' s'', x.Step s' label' s'' ∧ ¬x.Agreement s'' := by
  cases h
  case start => exact absurd trivial hc
  case deliver i u result hi hu =>
    simp only [Setup.Careful, not_forall] at hc
    obtain ⟨u', k, n, hi', hk, hc⟩ := hc
    cases hi.symm.trans hi'
    have ⟨hh, hr⟩ := resumed_of_answers (x := x) hk
    obtain hc | hc := not_and_or.mp hc <;> simp only [not_forall] at hc
    case inl =>
      obtain ⟨t, ht, n', rfl, ho, hh', hr', hc⟩ := hc
      have ⟨hk', hv⟩ := not_or.mp hc
      obtain ht' | rfl := mem_of_getElem?_set (x := x) result hi ht
      case inr => exact absurd rfl ho
      refine impersonated ht' ho.symm hh' hr' (mem_signed_of_answers hk) ?_
      rintro ⟨v, hm, hvo, hvn, hvr⟩
      obtain hm | rfl := mem_deliver hm
      case inl => exact hv ⟨v, hm, hvo, hvn, hvr⟩
      case inr =>
        rw [hr] at hvr
        exact hk' ⟨(Prod.mk.inj <| Option.some.inj hvr).left, hvn⟩
    case inr =>
      obtain ⟨a, ha, rfl, hs, hv⟩ := hc
      refine impersonated (resumed_mem hi) ha hh hr (List.mem_append_left _ hs) ?_
      rintro ⟨v, hm, hvo, hvn, hvr⟩
      obtain hm | rfl := mem_deliver hm
      case inl => exact hv ⟨v, hm, hvo, hvn, hvr⟩
      case inr => exact ha hvo.symm

-- As long as all answers are careful, whoever is named at the end of a handshake has taken part in
-- it. After any other answer the attacker can pass for a peer that has not.
theorem agreement_of_careful
    (hsha : ∀ k k' : PublicKey, Crypto.sha256 k.toList = Crypto.sha256 k'.toList → k = k') :
    (∀ s, Reachable (x.system.restrict x.Careful) s → x.Agreement s) ∧
    ∀ s label s', Reachable x.system s → x.system.step s label s' → ¬x.Careful s label →
      ∃ label' s'', x.system.step s' label' s'' ∧ ¬x.Agreement s'' where
  left _ r       := (Safe.reachable hsha r).agreement
  right _ _ _ _  := careless

end Attack

-- Two honest peers, and a third party that answers the one and connects to the other.
abbrev relay : @Setup Crypto.transparent Bool :=
  letI := Crypto.transparent
  { identity a := .ofSeed <| .replicate 32 (if a then 9 else 1), distinct := by decide }

abbrev relay.deliver (s : State Bool) (i : Nat) (u : Session Bool) (m : Message) : State Bool :=
  @Setup.deliver Crypto.transparent Bool relay s i u (.ok <| some m.toFrame)

-- The session of `false`, before and after it has got a Hello in the name of `true`.
abbrev relay.victim (received : Option (PublicKey × Nonce)) : Session Bool :=
  ⟨false, .replicate 32 8, received.elim .awaitHello (.awaitProof ·.fst), received⟩

abbrev relay.helper : Session Bool :=
  ⟨true, .replicate 32 7, .awaitHello, none⟩

-- The third party names `true` to `false`, and itself, but with the nonce of `false`, to `true`. The
-- proof that `true` makes for it then convinces `false`.
def relayed₀ : State Bool :=
  ⟨[relay.victim none, relay.helper], []⟩

def relayed₁ : State Bool :=
  relay.deliver relayed₀ 0 (relay.victim none) (.hello (.replicate 32 9) (.replicate 32 7))

def relayed₂ : State Bool :=
  relay.deliver relayed₁ 1 relay.helper (.hello (.replicate 32 5) (.replicate 32 8))

def relayed₃ : State Bool :=
  relay.deliver relayed₂ 0 (relay.victim <| some (.replicate 32 9, .replicate 32 7))
    (.helloProof <| Crypto.pad 64 <| List.replicate 32 9 ++ List.replicate 32 8)

-- When the third party only passes on what the two say to each other, `false` ends with the id of `true`.
def met₂ : State Bool :=
  relay.deliver relayed₁ 1 relay.helper (.hello (.replicate 32 1) (.replicate 32 8))

def met₃ : State Bool :=
  relay.deliver met₂ 0 (relay.victim <| some (.replicate 32 9, .replicate 32 7))
    (.helloProof <| Crypto.pad 64 <| List.replicate 32 9 ++ List.replicate 32 8)

omit [Crypto] in
theorem relayed₁_eq : relayed₁ = ⟨[relay.victim <| some (.replicate 32 9, .replicate 32 7), relay.helper],
    [(false, List.replicate 32 7)]⟩ := by
  decide

omit [Crypto] in
theorem relayed₁_careful : Reachable (@Setup.system Crypto.transparent Bool relay |>.restrict <|
    @Setup.Careful Crypto.transparent Bool relay) relayed₁ := by
  let _ := Crypto.transparent
  have r : Reachable (relay.system.restrict relay.Careful) ⟨[relay.victim none], []⟩ :=
    .step (.init rfl) ⟨.start nofun, trivial⟩
  have r₀ : Reachable (relay.system.restrict relay.Careful) relayed₀ := by
    refine .step r ⟨.start ?_, trivial⟩
    rintro t (_ | ⟨_, ⟨⟩⟩)
    exact ⟨by decide, nofun⟩
  refine .step r₀ ⟨.deliver rfl nofun, fun u k n _ _ => ⟨fun t ht _ _ _ hh => ?_, fun _ _ _ => nofun⟩⟩
  obtain _ | ⟨_, _ | ⟨_, ⟨⟩⟩⟩ := ht <;> contradiction

omit [Crypto] in
theorem met_careful : Reachable (@Setup.system Crypto.transparent Bool relay |>.restrict <|
    @Setup.Careful Crypto.transparent Bool relay) met₃ := by
  let _ := Crypto.transparent
  have r₂ : Reachable (relay.system.restrict relay.Careful) met₂ := by
    refine .step relayed₁_careful ⟨.deliver rfl nofun, fun u k n hi hk => ?_⟩
    rw [relayed₁_eq] at hi ⊢
    cases hi
    have hk' : answers relay.helper (.ok <| some <| Message.toFrame <| .hello (.replicate 32 1) (.replicate 32 8)) =
        some (.replicate 32 1, .replicate 32 8) := by decide
    cases hk'.symm.trans hk
    refine ⟨fun t ht n' _ ho _ hr => ?_, fun a ha _ _ => ?_⟩
    case refine_1 =>
      obtain _ | ⟨_, _ | ⟨_, ⟨⟩⟩⟩ := ht
      case head      => cases hr; exact .inl ⟨rfl, rfl⟩
      case tail.head => contradiction
    case refine_2 =>
      cases a
      case true  => contradiction
      case false => exact ⟨_, .head _, rfl, rfl, rfl⟩
  refine .step r₂ ⟨.deliver rfl fun a _ ha _ _ => ?_, fun u k n hi hk => ?_⟩
  case refine_1 =>
    cases a
    case false => exact absurd ha (by decide)
    case true  => exact .tail _ (.head _)
  case refine_2 => cases hi; contradiction

omit [Crypto] in
theorem agreement_of_careful_relay :
    let _ := Crypto.transparent
    ((∀ s, Reachable (relay.system.restrict relay.Careful) s → relay.Agreement s) ∧
      ∀ s label s', Reachable relay.system s → relay.system.step s label s' → ¬relay.Careful s label →
        ∃ label' s'', relay.system.step s' label' s'' ∧ ¬relay.Agreement s'') ∧
    Reachable (relay.system.restrict relay.Careful) met₃ ∧
    met₃.sessions.any (·.handshake = .returned (.ok (relay.identity true).peerId)) ∧ relay.Agreement met₃ := by
  let _ := Crypto.transparent
  have h := @agreement_of_careful Crypto.transparent Bool relay Crypto.transparent_lawful
    Crypto.transparent_sha256_injective
  exact ⟨h, met_careful, by decide, h.left _ met_careful⟩

omit [Crypto] in
theorem relay_disagrees : Reachable (@Setup.system Crypto.transparent Bool relay) relayed₃ ∧
    ¬@Setup.Agreement Crypto.transparent Bool relay relayed₃ := by
  constructor
  case right =>
    intro g
    have ⟨u, hu, _, hr, _⟩ := g _ (.head _) true (by decide) (by decide)
    obtain _ | ⟨_, _ | ⟨_, ⟨⟩⟩⟩ := hu <;> exact absurd hr (by decide)
  case left =>
    let _ := Crypto.transparent
    have r₁ : Reachable relay.system relayed₁ := relayed₁_careful.of_restrict
    have r₂ : Reachable relay.system relayed₂ := .step r₁ <| .deliver rfl nofun
    refine .step r₂ <| .deliver rfl fun a _ ha _ _ => ?_
    cases a
    case false => exact absurd ha (by decide)
    case true  => exact .tail _ (.head _)

end Parsip.Sessions
