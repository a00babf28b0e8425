import Parsip.Daemon.Theorems.Readers
import Parsip.Network.Mesh

-- Frames go over a connection to the peer that they are meant for.

namespace Parsip

open Transition

-- The call has found a connection.
def Sending.At (x : Sending) (c : ConnId) : Prop :=
  x.phase = .fetch c ∨ x.phase = .push c

def UploadThread.At (t : UploadThread) (c : ConnId) : Prop :=
  ∃ m, t.phase = .fetch c m ∨ t.phase = .push c m

namespace Socket

variable {sk : Socket} {dir dir' : Direction} {ms : List Message} {phase : EndPhase}

@[simp] theorem setInbox_party : (sk.setInbox dir ms).party = sk.party := rfl
@[simp] theorem setInbox_phase : (sk.setInbox dir ms).phase = sk.phase := rfl
@[simp] theorem setInbox_dead : (sk.setInbox dir ms).dead = sk.dead := rfl
@[simp] theorem setPhase_party : (sk.setPhase dir phase).party = sk.party := rfl
@[simp] theorem setPhase_inbox : (sk.setPhase dir phase).inbox = sk.inbox := rfl

@[simp]
theorem setInbox_inbox : (sk.setInbox dir ms).inbox dir' = if dir' = dir then ms else sk.inbox dir' :=
  Function.update_apply ..

theorem dead_iff : sk.dead = true ↔ sk.cut = true ∨ ∃ dir, sk.phase dir = .gone := by
  simp only [dead, Bool.or_eq_true, decide_eq_true_eq, or_assoc]
  refine or_congr_right ⟨fun h => h.elim (⟨_, ·⟩) (⟨_, ·⟩), fun ⟨dir, h⟩ => ?_⟩
  cases dir
  case incoming => exact .inr h
  case outgoing => exact .inl h

theorem dead_setPhase_of_dead (h : sk.phase dir ≠ .gone) (hd : sk.dead = true) : (sk.setPhase dir phase).dead = true := by
  refine dead_iff.mpr <| (dead_iff.mp hd).imp_right fun ⟨dir', hg⟩ => ⟨dir', ?_⟩
  have hne : dir' ≠ dir := fun he => h (he ▸ hg)
  exact (Function.update_of_ne hne ..).trans hg

theorem dead_setPhase : (sk.setPhase dir .gone).dead = true :=
  dead_iff.mpr <| .inr ⟨dir, Function.update_self ..⟩

end Socket

@[simp]
theorem Direction.other_other {dir : Direction} : dir.other.other = dir := by
  cases dir <;> rfl

namespace Station

variable {a : PeerId} {party party' : Nat → Direction → Option PeerId} {st st' : Station} {l : Node.Label}
variable {«from» : Option ConnId} {fx : List Effect}

-- `party` says which daemons the ends of TCP connections belong to.
structure Routed (a : PeerId) (party : Nat → Direction → Option PeerId) (st : Station) : Prop where
  attended : st.node.Attended
  socket   : ∀ {c k dir}, st.socket c = some (k, dir) →
    party k dir = some a ∧ ∃ p, st.node.remote c = some p ∧ party k dir.other = some p
  sending  : ∀ {x c}, x ∈ st.sending → x.At c → st.node.remote c = some x.target
  uploads  : ∀ {t c}, t ∈ st.uploads → t.At c → st.node.remote c = some t.upload.target

namespace Routed

theorem mono (k : st.Routed a party) (h : ∀ {k dir p}, party k dir = some p → party' k dir = some p) :
    st.Routed a party' where
  attended := k.attended
  sending  := k.sending
  uploads  := k.uploads
  socket hs :=
    have ⟨ha, p, hp, hr⟩ := k.socket hs
    ⟨h ha, p, hp, h hr⟩

-- The daemon takes a step or stays where it is, and whatever finds a connection finds one of its peer.
theorem move [Crypto] (k : st.Routed a party) (hn : st'.node = st.node ∨ ∃ l, st.node.step a l = some st'.node)
    (hs : st'.socket = st.socket)
    (hx : ∀ x ∈ st'.sending, x ∈ st.sending ∨ ∀ c, x.At c → st.node.remote c = some x.target)
    (hu : ∀ t ∈ st'.uploads, t ∈ st.uploads ∨ ∀ c, t.At c → st.node.remote c = some t.upload.target) :
    st'.Routed a party := by
  have ⟨k', hr⟩ : st'.node.Attended ∧ ∀ {c p}, st.node.remote c = some p → st'.node.remote c = some p := by
    obtain hn | ⟨l, hn⟩ := hn
    case inl => rw [hn]; exact ⟨k.attended, id⟩
    case inr => exact k.attended.step hn
  constructor
  case attended => exact k'
  case socket =>
    intro c n dir h
    have ⟨ha, p, hp, ho⟩ := k.socket (hs ▸ h)
    exact ⟨ha, p, hr hp, ho⟩
  case sending =>
    intro x c hm hc
    obtain h | h := hx x hm
    case inl => exact hr <| k.sending h hc
    case inr => exact hr <| h c hc
  case uploads =>
    intro t c hm hc
    obtain h | h := hu t hm
    case inl => exact hr <| k.uploads h hc
    case inr => exact hr <| h c hc

-- The connections at which calls and threads are, are registered or have been so.
theorem next {x y : Sending} (k : st.Routed a party) (hx : x ∈ st.sending) (h : x.next st.tables = some y) :
    y.message = x.message ∧ y.target = x.target ∧ ∀ c, y.At c → st.node.remote c = some y.target := by
  simp only [Sending.next] at h
  split at h
  case h_3 => contradiction
  case h_1 =>
    obtain ⟨c, hc, rfl⟩ := Option.map_eq_some_iff.mp h
    refine ⟨rfl, rfl, fun c' hc' => ?_⟩
    obtain hc' | hc' := hc' <;> cases hc'
    exact k.attended.indexed hc
  case h_2 c hp =>
    have hc := k.sending hx <| .inl hp
    split at h <;> cases h
    refine ⟨rfl, rfl, fun c' hc' => ?_⟩
    obtain hc' | hc' := hc' <;> cases hc'
    exact hc

theorem lookUp {t t' : UploadThread} (k : st.Routed a party) (h : t.lookUp st.tables = some t') :
    t' = { t with phase := t'.phase } ∧ ∀ c, t'.At c → st.node.remote c = some t'.upload.target := by
  simp only [UploadThread.lookUp] at h
  split at h <;> cases h
  refine ⟨rfl, fun c ⟨m, hc⟩ => ?_⟩
  simp only at hc
  cases hl : st.tables.peerIndex.lookup t.upload.target <;> rw [hl] at hc <;> simp at hc
  exact k.attended.indexed <| hc.left ▸ hl

theorem fetch {t t' : UploadThread} (k : st.Routed a party) (ht : t ∈ st.uploads) (h : t.fetch st.tables = some t') :
    t' = { t with phase := t'.phase } ∧ ∀ c, t'.At c → st.node.remote c = some t'.upload.target := by
  simp only [UploadThread.fetch] at h
  split at h <;> cases h
  case h_1 c' m hp =>
    have hc' := k.uploads ht ⟨m, .inl hp⟩
    refine ⟨rfl, fun c ⟨m, hc⟩ => ?_⟩
    simp only at hc
    split at hc <;> simp at hc
    exact hc.left ▸ hc'

end Routed

-- What the event loop sets off leaves the rest of the station alone.
structure Performs (st st' : Station) : Prop where
  node     : st'.node = st.node
  channels : st'.channels = st.channels
  socket   : st'.socket = st.socket
  sending  : ∀ x ∈ st'.sending, x ∈ st.sending ∨ x.phase = .lookUp
  uploads  : ∀ t ∈ st'.uploads, t ∈ st.uploads ∨ t.phase = .read

theorem performs : st.Performs (fx.foldl (perform «from») st) := by
  induction fx generalizing st
  case nil => exact ⟨rfl, rfl, rfl, fun _ => .inl, fun _ => .inl⟩
  case cons f fx hi =>
    have h := @hi (st.perform «from» f)
    have ⟨hn, hc, hs, hx, hu⟩ : st.Performs (st.perform «from» f) := by
      cases f
      case respond | connect | scanTimer => exact ⟨rfl, rfl, rfl, fun _ => .inl, fun _ => .inl⟩
      case send =>
        refine ⟨rfl, rfl, rfl, fun x hx => ?_, fun _ => .inl⟩
        exact (List.mem_append.mp hx).imp_right fun h => by rw [List.mem_singleton.mp h]
      case upload =>
        refine ⟨rfl, rfl, rfl, fun _ => .inl, fun t ht => ?_⟩
        exact (List.mem_append.mp ht).imp_right fun h => by rw [List.mem_singleton.mp h]; rfl
    constructor
    case node     => exact h.node.trans hn
    case channels => exact h.channels.trans hc
    case socket   => exact h.socket.trans hs
    case sending  => exact fun x hm => (h.sending x hm).elim (hx x) .inr
    case uploads  => exact fun t hm => (h.uploads t hm).elim (hu t) .inr

-- What the event loop finds, and what it leaves.
theorem handle_eq [Crypto] {env : Env} (h : st.handle env = some st') : ∃ q events d fx, st.sending = [] ∧
    st.node.events = q :: events ∧
    st.daemon.handleEvent env q.event = .ok (d, fx) ∧
    st' = fx.foldl (perform q.from) { st with
      node     := { st.node with daemon := d, events, effects := st.node.effects ++ fx }
      channels := st.channels ++ q.event.channel.toList } := by
  simp only [handle] at h
  split at h
  case h_2 => contradiction
  case h_1 q events node hs he hn =>
    simp only [Node.handle, he] at hn
    split at hn <;> cases hn
    case h_1 d fx hd =>
      refine ⟨q, events, d, fx, hs, he, hd, ?_⟩
      rw [← Option.some.inj h, List.drop_left]

end Station

namespace Mesh

-- What a step does.
inductive Takes [Crypto] (s : Mesh) : Label → Mesh → Prop
  | move {l a l' node} (other : ∀ a env, l ≠ .handle a env) (handle : ∀ env, l' ≠ .handle env)
    (read : ∀ c result, l' ≠ .read c result) (step : (s.station a).node.step a l' = some node) : Takes s l (s.setStation a { s.station a with node })
  | timer {a i r node} (timers : (s.station a).timers[i]? = some r)
    (step : (s.station a).node.step a (.post (.scanTimeout r)) = some node) :
    Takes s (.timer a i) (s.setStation a { s.station a with node, timers := (s.station a).timers.eraseIdx i })
  | dialled {a i r result node} (dials : (s.station a).dials[i]? = some r)
    (step : (s.station a).node.step a (.post (.connectResult r result)) = some node) :
    Takes s (.dialled a i result) (s.setStation a { s.station a with node, dials := (s.station a).dials.eraseIdx i })
  | handle {a env st} (step : (s.station a).handle env = some st) : Takes s (.handle a env) (s.setStation a st)
  | send {a x xs} (sending : (s.station a).sending = x :: xs) :
    Takes s (.send a) (s.setStation a { s.station a with sending := (x.next (s.station a).tables).toList ++ xs })
  | push {a closed x xs c s₁} (sending : (s.station a).sending = x :: xs) (phase : x.phase = .push c)
    (put : s.put a c x.message closed = some s₁) :
    Takes s (.push a closed) (s₁.setStation a { s₁.station a with sending := xs })
  | read {a i result t t'} (uploads : (s.station a).uploads[i]? = some t) (step : t.read result = some t') :
    Takes s (.read a i result) (s.setStation a ((s.station a).setUpload i t'))
  | lookUp {a i t t'} (uploads : (s.station a).uploads[i]? = some t) (step : t.lookUp (s.station a).tables = some t') :
    Takes s (.lookUp a i) (s.setStation a ((s.station a).setUpload i t'))
  | fetch {a i t t'} (uploads : (s.station a).uploads[i]? = some t) (step : t.fetch (s.station a).tables = some t') :
    Takes s (.fetch a i) (s.setStation a ((s.station a).setUpload i t'))
  | forward {a i closed t c m s₁} (uploads : (s.station a).uploads[i]? = some t) (phase : t.phase = .push c m)
    (put : s.put a c m closed = some s₁) :
    Takes s (.forward a i closed) (s₁.setStation a <| (s₁.station a).setUpload i <|
      if closed then { t with phase := .ended } else t.next m)
  | dial {a b} : Takes s (.dial a b) { s with sockets := s.sockets ++ [.dial a b] }
  | register {k dir sk node c} (sockets : s.sockets[k]? = some sk) (phase : sk.phase dir = .handshake)
    (step : (s.station (sk.party dir)).node.step (sk.party dir) (.register ⟨sk.party dir.other, dir, ()⟩) = some node)
    (ok : ((s.station (sk.party dir)).node.manager.insertConnection ⟨sk.party dir.other, dir, ()⟩ (sk.party dir)).fst = .ok c) :
    Takes s (.register k dir) (s.setStation (sk.party dir) { s.station (sk.party dir) with
      node, socket := Function.update (s.station (sk.party dir)).socket c (k, dir) } |>.setSocket k (sk.setPhase dir .reading))
  | refuse {k dir sk node} (sockets : s.sockets[k]? = some sk)
    (step : (s.station (sk.party dir)).node.step (sk.party dir) (.register ⟨sk.party dir.other, dir, ()⟩) = some node) :
    Takes s (.register k dir) (s.setStation (sk.party dir) { s.station (sk.party dir) with node }
      |>.setSocket k (sk.setPhase dir .gone))
  | wear {l k sk sk'} (other : ∀ a env, l ≠ .handle a env) (sockets : s.sockets[k]? = some sk)
    (party : sk'.party = sk.party) (inbox : sk'.inbox = sk.inbox) (dead : sk.dead = true → sk'.dead = true) : Takes s l (s.setSocket k sk')
  | lose {k dir sk} (sockets : s.sockets[k]? = some sk) (dead : sk.dead = true) :
    Takes s (.lose k dir) (s.setSocket k (sk.setInbox dir []))
  | deliver {a c k dir sk m ms node} (ends : s.end a c = some (k, dir, sk)) (inbox : sk.inbox dir = m :: ms)
    (fits : m.toFrame.Fits) (step : (s.station a).node.step a (.read c (.ok (some m.toFrame))) = some node) :
    Takes s (.deliver a c) (s.setStation a { s.station a with node } |>.setSocket k (sk.setInbox dir ms))
  | leave {a c result k dir sk node} (ends : s.end a c = some (k, dir, sk)) (turn : readTurn result = .leave)
    (step : (s.station a).node.step a (.read c result) = some node) :
    Takes s (.leave a c result) (s.setStation a { s.station a with node } |>.setSocket k (sk.setPhase dir .gone))

variable {s s₁ s' : Mesh} {l : Label} {a b p : PeerId} {c : ConnId} {k : Nat} {dir : Direction} {sk : Socket}
variable {st : Station} {m : Message} {closed : Bool}

@[simp]
theorem setStation_station : (s.setStation a st).station b = if b = a then st else s.station b :=
  Function.update_apply ..

theorem end_eq : s.end a c = some (k, dir, sk) ↔ (s.station a).socket c = some (k, dir) ∧ s.sockets[k]? = some sk := by
  simp only [«end», Option.bind_eq_some_iff, Option.map_eq_some_iff]
  constructor
  case mp =>
    rintro ⟨⟨_, _⟩, hs, _, hk, he⟩
    cases he
    exact ⟨hs, hk⟩
  case mpr => exact fun ⟨hs, hk⟩ => ⟨_, hs, _, hk, rfl⟩

theorem put_cases (h : s.put a c m closed = some s') : ∃ k dir sk, s.end a c = some (k, dir, sk) ∧
    (closed = true ∧ sk.dead = true ∧ s' = s ∨
      closed = false ∧ s' = s.setSocket k (sk.setInbox dir.other (sk.inbox dir.other ++ [m]))) := by
  simp only [put] at h
  split at h
  case h_2 => contradiction
  case h_1 k dir sk he =>
    refine ⟨k, dir, sk, he, ?_⟩
    split at h
    case isFalse hc => exact .inr ⟨Bool.eq_false_iff.mpr hc, (Option.some.inj h).symm⟩
    case isTrue hc =>
      split at h <;> cases h
      case isTrue hd => exact .inl ⟨hc, hd, rfl⟩

theorem put_station (h : s.put a c m closed = some s') : s'.station = s.station := by
  obtain ⟨_, _, _, _, ⟨_, _, rfl⟩ | ⟨_, rfl⟩⟩ := put_cases h <;> rfl

theorem put_closed (h : s.put a c m true = some s') : s' = s := by
  obtain ⟨_, _, _, _, ⟨_, _, rfl⟩ | ⟨hc, _⟩⟩ := put_cases h
  case inl => rfl
  case inr => contradiction

theorem move_eq [Crypto] {l : Node.Label} (h : s.move a l = some s') :
    ∃ node, (s.station a).node.step a l = some node ∧ s' = s.setStation a { s.station a with node } := by
  have ⟨node, hn, h⟩ := Option.map_eq_some_iff.mp h
  exact ⟨node, hn, h.symm⟩

theorem move_setStation [Crypto] {l : Node.Label} (h : (s.setStation a st).move a l = some s') :
    ∃ node, st.node.step a l = some node ∧ s' = s.setStation a { st with node } := by
  obtain ⟨node, hn, rfl⟩ := move_eq h
  simp only [setStation, Function.update_self] at hn
  exact ⟨node, hn, by simp [setStation]⟩

theorem takes [Crypto] (h : s.step l = some s') : s.Takes l s' := by
  cases l
  case post a e =>
    cases e <;> try contradiction
    all_goals
      have ⟨node, hn, h⟩ := move_eq h
      subst h
      exact .move (fun _ _ => Label.noConfusion) (fun _ => Node.Label.noConfusion) (fun _ _ => Node.Label.noConfusion) hn
  case writer | detached | announce | remove =>
    have ⟨node, hn, h⟩ := move_eq h
    subst h
    exact .move (fun _ _ => Label.noConfusion) (fun _ => Node.Label.noConfusion) (fun _ _ => Node.Label.noConfusion) hn
  case handle =>
    have ⟨st, hs, h⟩ := Option.map_eq_some_iff.mp h
    exact h ▸ .handle hs
  case send =>
    simp only [step] at h
    split at h <;> cases h
    case h_3 hs => exact .send hs
  case push =>
    simp only [step] at h
    split at h
    case h_2 => contradiction
    case h_1 hs =>
      have ⟨s₁, hp, h⟩ := Option.map_eq_some_iff.mp h
      exact h ▸ .push hs rfl hp
  case timer =>
    have ⟨r, hr, h⟩ := Option.bind_eq_some_iff.mp h
    have ⟨node, hn, h⟩ := move_setStation h
    exact h ▸ .timer hr hn
  case dialled =>
    have ⟨r, hr, h⟩ := Option.bind_eq_some_iff.mp h
    have ⟨node, hn, h⟩ := move_setStation h
    exact h ▸ .dialled hr hn
  case read =>
    have ⟨t, ht, h⟩ := Option.bind_eq_some_iff.mp h
    have ⟨t', hr, h⟩ := Option.map_eq_some_iff.mp h
    exact h ▸ .read ht hr
  case lookUp =>
    have ⟨t, ht, h⟩ := Option.bind_eq_some_iff.mp h
    have ⟨t', hr, h⟩ := Option.map_eq_some_iff.mp h
    exact h ▸ .lookUp ht hr
  case fetch =>
    have ⟨t, ht, h⟩ := Option.bind_eq_some_iff.mp h
    have ⟨t', hr, h⟩ := Option.map_eq_some_iff.mp h
    exact h ▸ .fetch ht hr
  case forward =>
    have ⟨t, ht, h⟩ := Option.bind_eq_some_iff.mp h
    simp only [forward] at h
    split at h
    case h_2 => contradiction
    case h_1 hp =>
      have ⟨s₁, hs, h⟩ := Option.map_eq_some_iff.mp h
      exact h ▸ .forward ht hp hs
  case dial =>
    simp only [step] at h
    split at h <;> cases h
    exact .dial
  case register =>
    have ⟨sk, hk, h⟩ := Option.bind_eq_some_iff.mp h
    split at h
    case isFalse => contradiction
    case isTrue hp =>
      have ⟨node, hn, h⟩ := Option.map_eq_some_iff.mp h
      split at h
      case h_1 hc => exact h ▸ .register hk hp hn hc
      case h_2    => exact h ▸ .refuse hk hn
  case giveUp =>
    have ⟨sk, hk, h⟩ := Option.bind_eq_some_iff.mp h
    split at h <;> cases h
    exact .wear (fun _ _ => Label.noConfusion) hk rfl rfl fun _ => Socket.dead_setPhase
  case cut =>
    have ⟨sk, hk, h⟩ := Option.map_eq_some_iff.mp h
    exact h ▸ .wear (fun _ _ => Label.noConfusion) hk rfl rfl fun _ => rfl
  case lose =>
    have ⟨sk, hk, h⟩ := Option.bind_eq_some_iff.mp h
    split at h <;> cases h
    case isTrue hd => exact .lose hk hd
  case deliver =>
    simp only [step, deliver] at h
    split at h
    case h_2 => contradiction
    case h_1 he =>
      split at h
      case h_2 => contradiction
      case h_1 hi =>
        split at h
        case isFalse => contradiction
        case isTrue hf =>
          have ⟨s₁, hm, h⟩ := Option.map_eq_some_iff.mp h
          have ⟨node, hn, hs⟩ := move_eq hm
          subst h hs
          exact .deliver he hi hf hn
  case leave =>
    simp only [step, leave] at h
    split at h
    case h_2 => contradiction
    case h_1 he =>
      split at h
      case isFalse => contradiction
      case isTrue ht =>
        have ⟨s₁, hm, h⟩ := Option.map_eq_some_iff.mp h
        have ⟨node, hn, hs⟩ := move_eq hm
        subst h hs
        exact .leave he ht hn

def party (s : Mesh) (k : Nat) (dir : Direction) : Option PeerId :=
  s.sockets[k]?.map (·.party dir)

def Routed (s : Mesh) : Prop :=
  ∀ a, (s.station a).Routed a s.party

theorem party_setSocket {sk' : Socket} (h : s.sockets[k]? = some sk) (hp : sk'.party = sk.party) :
    (s.setSocket k sk').party = s.party := by
  funext k' dir
  simp only [party, setSocket, List.getElem?_set]
  by_cases hk : k = k'
  case neg => rw [if_neg hk]
  case pos =>
    subst hk
    rw [if_pos rfl, if_pos (List.getElem?_eq_some_iff.mp h).choose, h]
    exact congrArg some <| congrFun hp dir

namespace Routed

theorem init (h : s.Initial) : s.Routed := by
  intro a
  obtain ⟨node, hn, he⟩ := h.left a
  rw [he]
  exact ⟨.init hn, fun h => absurd h (by simp [Station.new]), fun h => absurd h List.not_mem_nil, fun h => absurd h List.not_mem_nil⟩

theorem setStation (r : s.Routed) (h : st.Routed a s.party) : (s.setStation a st).Routed := by
  intro b
  show (Function.update s.station a st b).Routed b s.party
  by_cases hb : b = a
  case neg => rw [Function.update_of_ne hb]; exact r b
  case pos => subst hb; rwa [Function.update_self]

theorem setSocket {sk' : Socket} (r : s.Routed) (h : s.sockets[k]? = some sk) (hp : sk'.party = sk.party) :
    (s.setSocket k sk').Routed :=
  fun a => party_setSocket h hp ▸ r a

theorem put (r : s.Routed) (h : s.put a c m closed = some s') : s'.Routed := by
  obtain ⟨k, dir, sk, he, ⟨_, _, rfl⟩ | ⟨_, rfl⟩⟩ := put_cases h
  case inl => exact r
  case inr => exact r.setSocket (end_eq.mp he).right rfl

variable [Crypto]

-- The step of a daemon that sends nothing.
theorem move {node : Node} {l : Node.Label} {timers dials : List UInt32} (r : s.Routed)
    (h : (s.station a).node.step a l = some node) :
    (s.setStation a { s.station a with node, timers, dials }).Routed :=
  r.setStation <| (r a).move (.inr ⟨l, h⟩) rfl (fun _ => .inl) fun _ => .inl

theorem upload {i : Nat} {t : UploadThread} (r : s.Routed)
    (h : ∀ c, t.At c → (s.station a).node.remote c = some t.upload.target) :
    (s.setStation a ((s.station a).setUpload i t)).Routed := by
  refine r.setStation <| (r a).move (.inl rfl) rfl (fun _ => .inl) fun t' ht => ?_
  obtain ht | rfl := List.mem_or_eq_of_mem_set ht
  case inl => exact .inl ht
  case inr => exact .inr h

theorem step (r : s.Routed) (h : s.Takes l s') : s'.Routed := by
  cases h
  case move hn _ => exact r.move hn
  case timer hn | dialled hn => exact r.move hn
  case handle a env st h =>
    obtain ⟨q, events, d, fx, hs, he, hd, rfl⟩ := Station.handle_eq h
    have p := @Station.performs { s.station a with
      node     := { (s.station a).node with daemon := d, events, effects := (s.station a).node.effects ++ fx }
      channels := (s.station a).channels ++ q.event.channel.toList } q.from fx
    refine r.setStation <| (r a).move (.inr ⟨.handle env, ?_⟩) p.socket (fun x hx => ?_) fun t ht => ?_
    case refine_1 => rw [p.node]; simp only [Node.step, Node.handle, he, hd]
    case refine_2 =>
      refine (p.sending x hx).imp_right fun hp c hc => ?_
      obtain hc | hc := hc <;> rw [hp] at hc <;> contradiction
    case refine_3 =>
      refine (p.uploads t ht).imp_right fun hp c hc => ?_
      obtain ⟨_, hc | hc⟩ := hc <;> rw [hp] at hc <;> contradiction
  case send a x xs hs =>
    refine r.setStation <| (r a).move (.inl rfl) rfl (fun y hy => ?_) fun _ => .inl
    rw [hs]
    obtain hy | hy := List.mem_append.mp hy
    case inr => exact .inl <| List.mem_cons_of_mem _ hy
    case inl =>
      have hx : x ∈ (s.station a).sending := hs ▸ List.mem_cons_self
      exact .inr ((r a).next hx (Option.mem_toList.mp hy)).right.right
  case push a closed x xs c s₁ hs hp h =>
    have he := put_station h
    replace r := r.put h
    refine r.setStation <| (r a).move (.inl rfl) rfl (fun y hy => .inl ?_) fun _ => .inl
    rw [he, hs]
    exact List.mem_cons_of_mem _ hy
  case read a i result t t' ht h =>
    refine r.upload fun c hc => ?_
    obtain ⟨m, hc⟩ := hc
    simp only [UploadThread.read] at h
    split at h
    case h_3 => contradiction
    case h_1 => cases h; simp at hc
    case h_2 => split at h <;> [skip; split at h] <;> cases h <;> simp at hc
  case lookUp ht h => exact r.upload ((r _).lookUp h).right
  case fetch ht h  => exact r.upload ((r _).fetch (List.mem_of_getElem? ht) h).right
  case forward a i closed t c m s₁ ht hp h =>
    refine (r.put h).upload fun c hc => ?_
    obtain ⟨m, hc⟩ := hc
    cases closed <;> simp [UploadThread.next] at hc
    split at hc <;> simp at hc
  case dial a b =>
    refine fun a' => (r a').mono fun {k dir p} hk => ?_
    obtain ⟨sk, hs, hp⟩ := Option.map_eq_some_iff.mp hk
    have hl := (List.getElem?_eq_some_iff.mp hs).choose
    exact Option.map_eq_some_iff.mpr ⟨sk, (List.getElem?_append_left hl).trans hs, hp⟩
  case register k dir sk node c hk _ hn hc =>
    refine .setSocket (r.setStation ?_) hk rfl
    have r' : Station.Routed _ s.party { s.station (sk.party dir) with node } :=
      (r (sk.party dir)).move (.inr ⟨_, hn⟩) rfl (fun _ => .inl) fun _ => .inl
    refine ⟨r'.attended, fun {c' k' dir'} hs => ?_, r'.sending, r'.uploads⟩
    by_cases he : c' = c
    case neg => exact r'.socket <| (Function.update_of_ne he ..).symm.trans hs
    case pos =>
      subst he
      cases (Function.update_self ..).symm.trans hs
      have hp {dir'} : s.party k dir' = some (sk.party dir') := by rw [party, hk]; rfl
      refine ⟨hp, sk.party dir.other, ?_, hp⟩
      simp only [Node.step] at hn
      split at hn <;> cases hn
      exact Node.remote_register hc
  case refuse k dir sk node hk hn => exact (r.move hn).setSocket hk rfl
  case wear hk hp _ _ _ => exact r.setSocket hk hp
  case lose hk _      => exact r.setSocket hk rfl
  case deliver he _ _ hn => exact (r.move hn).setSocket (end_eq.mp he).right rfl
  case leave he _ hn     => exact (r.move hn).setSocket (end_eq.mp he).right rfl

end Routed
end Mesh
end Parsip
