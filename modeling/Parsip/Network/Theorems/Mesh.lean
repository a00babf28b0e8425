import Parsip.Daemon.Theorems.Answers
import Parsip.Network.Theorems.Mesh.Routing
import Parsip.Protocol.Theorems.Message

-- When no request is left hanging.

namespace Parsip

open Transition

-- A daemon whose client waits, and the id of the request.
abbrev Ticket :=
  PeerId × UInt32

-- The request that a message from `a` to `b` is part of. Chunks are not, but the thread that sends them.
def Message.ticket (a b : PeerId) : Message → Option Ticket
  | .listResources r | .downloadResource r _ => some (a, r)
  | .resourceList r _ | .resourceEnd r _     => some (b, r)
  | _                                        => none

def PeerEvent.ticket (a : PeerId) : PeerEvent → Option Ticket
  | .message p m                        => m.ticket p a
  | .scanTimeout r | .connectResult r _ => some (a, r)
  | _                                   => none

def Effect.ticket (a : PeerId) : Effect → Option Ticket
  | .send target m              => m.ticket a target
  | .upload target r _ _        => some (target, r)
  | .connect _ r | .scanTimer r => some (a, r)
  | .respond ..                 => none

def UploadThread.ticket (t : UploadThread) : Ticket :=
  (t.upload.target, t.upload.requestId)

namespace Station

variable {a : PeerId} {st st' : Station} {q : Ticket} {«from» : Option ConnId} {f : Effect} {fx : List Effect}

-- Something is under way for a request.
inductive Holds (a : PeerId) (st : Station) (q : Ticket) : Prop
  | event {e} (mem : e ∈ st.node.events) (ticket : e.event.ticket a = some q)
  | sending {x} (mem : x ∈ st.sending) (ticket : x.message.ticket a x.target = some q)
  | upload {t} (mem : t ∈ st.uploads) (running : t.phase ≠ .ended) (ticket : t.ticket = q)
  | timer {r} (mem : r ∈ st.timers) (ticket : (a, r) = q)
  | dial {r} (mem : r ∈ st.dials) (ticket : (a, r) = q)

-- No event is queued, and no thread of the daemon has anything left to do but to read from connections.
structure Rests (st : Station) : Prop where
  events  : st.node.events = []
  sending : st.sending = []
  uploads : ∀ t ∈ st.uploads, t.phase = .ended
  timers  : st.timers = []
  dials   : st.dials = []

theorem Rests.not_holds (h : st.Rests) : ¬st.Holds a q := by
  intro hq
  cases hq
  case event hm _     => rw [h.events] at hm; contradiction
  case sending hm _   => rw [h.sending] at hm; contradiction
  case timer hm _     => rw [h.timers] at hm; contradiction
  case dial hm _      => rw [h.dials] at hm; contradiction
  case upload hm hp _ => exact hp <| h.uploads _ hm

theorem Holds.mono (h : st.Holds a q) (he : ∀ e ∈ st.node.events, e ∈ st'.node.events)
    (hx : ∀ x ∈ st.sending, x ∈ st'.sending) (hu : ∀ t ∈ st.uploads, t ∈ st'.uploads)
    (ht : ∀ r ∈ st.timers, r ∈ st'.timers) (hd : ∀ r ∈ st.dials, r ∈ st'.dials) : st'.Holds a q := by
  cases h
  case event hm h     => exact .event (he _ hm) h
  case sending hm h   => exact .sending (hx _ hm) h
  case upload hm hp h => exact .upload (hu _ hm) hp h
  case timer hm h     => exact .timer (ht _ hm) h
  case dial hm h      => exact .dial (hd _ hm) h

-- One of some timers or dials becomes an event.
theorem mem_eraseIdx {rs : List UInt32} {i : Nat} {r r' : UInt32} (h : rs[i]? = some r) (hm : r' ∈ rs) :
    r' = r ∨ r' ∈ rs.eraseIdx i := by
  have ⟨hi, hr⟩ := List.getElem?_eq_some_iff.mp h
  exact List.mem_cons.mp <| (hr ▸ List.getElem_cons_eraseIdx_perm hi).mem_iff.mpr hm

theorem Holds.fire {e : QueuedEvent} {r : UInt32} (h : st.Holds a q) (hn : st'.node.events = st.node.events ++ [e])
    (he : e.event.ticket a = some (a, r)) (ht : ∀ r' ∈ st.timers, r' = r ∨ r' ∈ st'.timers)
    (hd : ∀ r' ∈ st.dials, r' = r ∨ r' ∈ st'.dials) (hx : st'.sending = st.sending) (hu : st'.uploads = st.uploads) :
    st'.Holds a q := by
  have hm : e ∈ st'.node.events := hn ▸ List.mem_append_right _ (List.mem_singleton.mpr rfl)
  cases h
  case event hm h     => exact .event (hn ▸ List.mem_append_left _ hm) h
  case sending hm h   => exact .sending (hx ▸ hm) h
  case upload hm hp h => exact .upload (hu ▸ hm) hp h
  case timer ht' h =>
    obtain rfl | ht' := ht _ ht'
    case inl => exact .event hm (h ▸ he)
    case inr => exact .timer ht' h
  case dial hd' h =>
    obtain rfl | hd' := hd _ hd'
    case inl => exact .event hm (h ▸ he)
    case inr => exact .dial hd' h

-- The first call in the event loop goes on.
theorem Holds.pop {x : Sending} {xs ys : List Sending} (h : st.Holds a q) (hs : st.sending = x :: xs)
    (hx : ∀ y ∈ xs, y ∈ ys) : Holds a { st with sending := ys } q ∨ x.message.ticket a x.target = some q := by
  cases h
  case event hm h     => exact .inl <| .event hm h
  case upload hm hp h => exact .inl <| .upload hm hp h
  case timer hm h     => exact .inl <| .timer hm h
  case dial hm h      => exact .inl <| .dial hm h
  case sending y hm h =>
    rw [hs] at hm
    obtain rfl | hm := List.mem_cons.mp hm
    case inl => exact .inr h
    case inr => exact .inl <| .sending (hx _ hm) h

theorem Holds.setUpload {P : Prop} {i : Nat} {t t' : UploadThread} (h : st.Holds a q) (ht : st.uploads[i]? = some t)
    (hq : t.ticket = q → t'.ticket = q ∧ t'.phase ≠ .ended ∨ P) : (st.setUpload i t').Holds a q ∨ P := by
  cases h
  case event hm h   => exact .inl <| .event hm h
  case sending hm h => exact .inl <| .sending hm h
  case timer hm h   => exact .inl <| .timer hm h
  case dial hm h    => exact .inl <| .dial hm h
  case upload t₁ hm hp h =>
    obtain ⟨j, hj, hm⟩ := List.mem_iff_getElem.mp hm
    by_cases he : i = j
    case neg => exact .inl <| .upload (List.mem_iff_getElem?.mpr ⟨j, by rw [List.getElem?_set_ne he, List.getElem?_eq_getElem hj, hm]⟩) hp h
    case pos =>
      subst he
      obtain rfl : t₁ = t := by
        rw [List.getElem?_eq_getElem hj, hm] at ht
        exact Option.some.inj ht
      exact (hq h).imp_left fun ⟨hq, hp⟩ => .upload (List.mem_set hj _) hp hq

theorem Holds.perform (h : st.Holds a q ∨ f.ticket a = some q) : (st.perform «from» f).Holds a q := by
  obtain h | h := h
  case inl =>
    cases h
    case event hm ht    => cases f <;> exact .event hm ht
    case upload hm hp ht =>
      cases f <;> first | exact .upload hm hp ht | exact .upload (List.mem_append_left _ hm) hp ht
    case sending hm ht =>
      cases f <;> first | exact .sending hm ht | exact .sending (List.mem_append_left _ hm) ht
    case timer hm ht =>
      cases f <;> first | exact .timer hm ht | exact .timer (List.mem_append_left _ hm) ht
    case dial hm ht =>
      cases f <;> first | exact .dial hm ht | exact .dial (List.mem_append_left _ hm) ht
  case inr =>
    have hm {α} {xs : List α} {x : α} : x ∈ xs ++ [x] := List.mem_append_right _ <| List.mem_singleton.mpr rfl
    cases f <;> try contradiction
    case send      => exact .sending hm h
    case connect   => exact .dial hm (Option.some.inj h)
    case scanTimer => exact .timer hm (Option.some.inj h)
    case upload    => exact .upload hm (by simp [UploadThread.start]) (Option.some.inj h)

theorem Holds.performs (h : st.Holds a q ∨ ∃ f ∈ fx, f.ticket a = some q) :
    (fx.foldl (Station.perform «from») st).Holds a q := by
  induction fx generalizing st
  case nil => exact h.resolve_right fun ⟨_, hm, _⟩ => absurd hm List.not_mem_nil
  case cons f fx hi =>
    refine hi ?_
    obtain h | ⟨f', hm, ht⟩ := h
    case inl => exact .inl <| .perform <| .inl h
    case inr =>
      obtain rfl | hm := List.mem_cons.mp hm
      case inl => exact .inl <| .perform <| .inr ht
      case inr => exact .inr ⟨f', hm, ht⟩

end Station

namespace Mesh

-- A client waits.
def Waits (s : Mesh) (q : Ticket) : Prop :=
  (s.station q.fst).daemon.reqTracker.get q.snd ≠ none

inductive Holds (s : Mesh) (q : Ticket) : Prop
  | station {a} (holds : (s.station a).Holds a q)
  | socket {k : Nat} {dir} {sk : Socket} {m : Message} (sockets : s.sockets[k]? = some sk) (mem : m ∈ sk.inbox dir)
    (ticket : m.ticket (sk.party dir.other) (sk.party dir) = some q)

-- The end of a connection between `a` and `p` is still to be handled by `a`.
inductive Closes (s : Mesh) (a p : PeerId) : Prop
  | event {e} (mem : e ∈ (s.station a).node.events) (event : e.event = .disconnected p)
  | reader {c reader k dir sk} (lookup : (s.station a).node.readers.lookup c = some reader) (peerId : reader.peerId = p)
    (phase : reader.phase = .reading) (ends : s.end a c = some (k, dir, sk)) (dead : sk.dead = true)

-- It is going to answer the request, which is for a download.
def Ends (s : Mesh) (q : Ticket) : Prop :=
  ∃ t, (s.station q.fst).daemon.transferMgr.transfers.lookup q.snd = some t ∧ s.Closes q.fst t.peerId

-- Nothing else needs to be under way for the request.
def Spares (s : Mesh) (q : Ticket) : Prop :=
  s.Waits q → s.Ends q

-- What an event is about is taken care of, and a request does not take the id of another one.
def Heeds (s : Mesh) (a : PeerId) (env : Env) : PeerEvent → Prop
  | .message p (.downloadResource r id) => (s.station a).daemon.store.getPath id = none → s.Spares (p, r)
  | .message _ (.resourceEnd r id)      =>
    let d := (s.station a).daemon
    ¬(d.downloadMgr.Completes d.storage env.io id ∧ ∃ t, d.transferMgr.transfers.lookup r = some t) → s.Spares (a, r)
  | .controlRequest cmd _               =>
    let d := (s.station a).daemon
    d.Registers env cmd → d.reqTracker.get d.reqTracker.nextId = none
  | _ => True

-- What fails or gets lost, nobody waits for.
def Harmless (s : Mesh) : Label → Prop
  | .handle a env       => ∀ e events, (s.station a).node.events = e :: events → s.Heeds a env e.event
  | .send a             => ∀ x xs q, (s.station a).sending = x :: xs → x.next (s.station a).tables = none →
    x.message.ticket a x.target = some q → s.Spares q
  | .push a closed      => ∀ x xs q, (s.station a).sending = x :: xs → closed = true →
    x.message.ticket a x.target = some q → s.Spares q
  | .read a i result    => ∀ t e, (s.station a).uploads[i]? = some t → result = .error e → s.Spares t.ticket
  | .lookUp a i         => ∀ t, (s.station a).uploads[i]? = some t →
    t.lookUp (s.station a).tables = some { t with phase := .ended } → s.Spares t.ticket
  | .fetch a i          => ∀ t, (s.station a).uploads[i]? = some t →
    t.fetch (s.station a).tables = some { t with phase := .ended } → s.Spares t.ticket
  | .forward a i closed => ∀ t, (s.station a).uploads[i]? = some t → closed = true → s.Spares t.ticket
  | .lose k dir         => ∀ sk m q, s.sockets[k]? = some sk → m ∈ sk.inbox dir →
    m.ticket (sk.party dir.other) (sk.party dir) = some q → s.Spares q
  | _ => True

-- Nothing is on its way, and who has not left a connection reads from one that lives.
structure Quiescent (s : Mesh) : Prop where
  rests   : ∀ a, (s.station a).Rests
  frames  : ∀ sk ∈ s.sockets, ∀ dir, sk.inbox dir = []
  readers : ∀ {a c reader}, (s.station a).node.readers.lookup c = some reader →
    reader.phase = .ended ∨ reader.phase = .reading ∧ ∀ {k dir sk}, s.end a c = some (k, dir, sk) → sk.dead = false

-- No request is pending, and every client has been answered.
structure Settled (s : Mesh) : Prop where
  pending  : ∀ a r, (s.station a).daemon.reqTracker.get r = none
  answered : ∀ a, ∀ c ∈ (s.station a).channels, Daemon.Answered (s.station a).node.effects c

variable {s s₁ s' : Mesh} {l : Label} {a b p : PeerId} {c : ConnId} {k : Nat} {dir : Direction} {sk sk' : Socket}
variable {st : Station} {m : Message} {closed : Bool} {q : Ticket} {es : List QueuedEvent}

namespace Quiescent

theorem not_holds (h : s.Quiescent) : ¬s.Holds q := by
  intro hq
  cases hq
  case station hq       => exact (h.rests _).not_holds hq
  case socket hk hm _ => rw [h.frames _ (List.mem_of_getElem? hk)] at hm; contradiction

theorem not_ends (h : s.Quiescent) : ¬s.Ends q := by
  rintro ⟨_, _, hc⟩
  cases hc
  case event hm _ => rw [(h.rests _).events] at hm; contradiction
  case reader hl _ hp ho hd =>
    obtain he | ⟨_, hn⟩ := h.readers hl
    case inl => rw [hp] at he; contradiction
    case inr => rw [hn ho] at hd; contradiction

end Quiescent

-- What stays while the event loop does not take an event.
structure Grows (s s' : Mesh) : Prop where
  reqTracker  : ∀ a, (s'.station a).daemon.reqTracker = (s.station a).daemon.reqTracker
  transferMgr : ∀ a, (s'.station a).daemon.transferMgr = (s.station a).daemon.transferMgr
  effects     : ∀ a, (s'.station a).node.effects = (s.station a).node.effects
  channels    : ∀ a, (s'.station a).channels = (s.station a).channels
  closes      : ∀ {a p}, s.Closes a p → s'.Closes a p

namespace Grows

theorem trans (g : s.Grows s₁) (g' : s₁.Grows s') : s.Grows s' where
  reqTracker a  := (g'.reqTracker a).trans (g.reqTracker a)
  transferMgr a := (g'.transferMgr a).trans (g.transferMgr a)
  effects a     := (g'.effects a).trans (g.effects a)
  channels a    := (g'.channels a).trans (g.channels a)
  closes h      := g'.closes (g.closes h)

theorem waits (g : s.Grows s') (h : s'.Waits q) : s.Waits q := by
  rwa [Waits, g.reqTracker] at h

theorem ends (g : s.Grows s') (h : s.Ends q) : s'.Ends q := by
  obtain ⟨t, ht, hc⟩ := h
  exact ⟨t, g.transferMgr q.fst ▸ ht, g.closes hc⟩

-- A daemon goes on, and the connections that have readers keep their ends.
theorem setStation (ha : (s.station a).node.Adds st.node es) (hc : st.channels = (s.station a).channels)
    (hs : ∀ {c p x}, (s.station a).node.remote c = some p → (s.station a).socket c = some x → st.socket c = some x) :
    s.Grows (s.setStation a st) := by
  have other {b} (hb : b ≠ a) : (s.setStation a st).station b = s.station b := Function.update_of_ne hb ..
  have self : (s.setStation a st).station a = st := Function.update_self ..
  constructor
  case reqTracker | transferMgr | effects | channels =>
    intro b
    by_cases hb : b = a
    case neg => rw [other hb]
    case pos =>
      subst hb
      rw [self]
      first | exact ha.reqTracker | exact ha.transferMgr | exact ha.effects | exact hc
  case closes =>
    intro b p h
    by_cases hb : b = a
    case neg =>
      cases h
      case event hm he => exact .event (other hb ▸ hm) he
      case reader hl hp hr ho hd =>
        have ho := end_eq.mp ho
        rw [← other hb] at hl ho
        exact .reader hl hp hr (end_eq.mpr ho) hd
    case pos =>
      subst hb
      cases h
      case event hm he =>
        refine .event ?_ he
        rw [self, ha.events]
        exact List.mem_append_left _ hm
      case reader c reader k dir sk hl hp hr ho hd =>
        obtain ⟨reader', hl', hp', hr'⟩ | ⟨e, hm, he⟩ := ha.readers hl hr
        case inr =>
          refine .event ?_ (hp ▸ he)
          rw [self, ha.events]
          exact List.mem_append_right _ hm
        case inl =>
          obtain ⟨hs', hk⟩ := end_eq.mp ho
          have hs' := hs (by rw [Node.remote, hl]; rfl) hs'
          rw [← self] at hl' hs'
          exact .reader hl' (hp'.trans hp) hr' (end_eq.mpr ⟨hs', hk⟩) hd

theorem setSocket (hk : s.sockets[k]? = some sk) (hd : sk.dead = true → sk'.dead = true) : s.Grows (s.setSocket k sk') := by
  refine ⟨fun _ => rfl, fun _ => rfl, fun _ => rfl, fun _ => rfl, fun h => ?_⟩
  cases h
  case event hm he => exact .event hm he
  case reader k' dir sk₁ hl hp hr ho hd' =>
    obtain ⟨hs, hk'⟩ := end_eq.mp ho
    by_cases he : k = k'
    case neg => exact .reader hl hp hr (end_eq.mpr ⟨hs, (List.getElem?_set_ne he).trans hk'⟩) hd'
    case pos =>
      subst he
      cases hk.symm.trans hk'
      have hl' := (List.getElem?_eq_some_iff.mp hk).choose
      exact .reader hl hp hr (end_eq.mpr ⟨hs, List.getElem?_set_self hl'⟩) (hd hd')

theorem setBoth (ha : (s.station a).node.Adds st.node es) (hc : st.channels = (s.station a).channels)
    (hs : ∀ {c p x}, (s.station a).node.remote c = some p → (s.station a).socket c = some x → st.socket c = some x)
    (hk : s.sockets[k]? = some sk) (hd : sk.dead = true → sk'.dead = true) :
    s.Grows (s.setStation a st |>.setSocket k sk') :=
  (setStation ha hc hs).trans <| setSocket (s := s.setStation a st) hk hd

theorem put (h : s.put a c m closed = some s') : s.Grows s' := by
  obtain ⟨k, dir, sk, he, ⟨_, _, rfl⟩ | ⟨_, rfl⟩⟩ := put_cases h
  case inl => exact ⟨fun _ => rfl, fun _ => rfl, fun _ => rfl, fun _ => rfl, id⟩
  case inr => exact setSocket (end_eq.mp he).right id

theorem dial : s.Grows { s with sockets := s.sockets ++ [.dial a b] } := by
  refine ⟨fun _ => rfl, fun _ => rfl, fun _ => rfl, fun _ => rfl, fun h => ?_⟩
  cases h
  case event hm he => exact .event hm he
  case reader hl hp hr ho hd =>
    obtain ⟨hs, hk⟩ := end_eq.mp ho
    have hl' := (List.getElem?_eq_some_iff.mp hk).choose
    exact .reader hl hp hr (end_eq.mpr ⟨hs, (List.getElem?_append_left hl').trans hk⟩) hd

end Grows

-- What a reader makes of a frame that a daemon has sent.
theorem readTurn_toFrame (h : m.toFrame.Fits) :
    readTurn (.ok (some m.toFrame)) = if m.Established then .message m else .leave := by
  simp only [readTurn, Message.tryFrom_toFrame_eq (.of_fits h)]

section

variable [Crypto] {node : Node} {result : Except Error (Option Frame)}

-- A reader takes a message or leaves, and tells of it.
theorem read_adds (h : (s.station a).node.step a (.read c result) = some node) (hr : readTurn result ≠ .panic) :
    ∃ es, (s.station a).node.Adds node es := by
  cases ht : readTurn result
  case panic   => exact absurd ht hr
  case message => have ⟨_, _, ha⟩ := Node.Adds.message h ht; exact ⟨_, ha⟩
  case leave   => have ⟨_, _, ha⟩ := Node.Adds.leave h ht; exact ⟨_, ha⟩

theorem Takes.grows (h : s.Takes l s') (r : s.Routed) (hl : ∀ a env, l ≠ .handle a env) : s.Grows s' := by
  cases h
  case handle => exact absurd rfl <| hl _ _
  case move a _ _ hh hr hn _ =>
    have ⟨_, ha⟩ := Node.Adds.other (r a).attended hn hh hr
    exact .setStation ha rfl fun _ => id
  case timer hn | dialled hn => exact .setStation (.post hn) rfl fun _ => id
  case send | read | lookUp | fetch => exact .setStation .refl rfl fun _ => id
  case push hp | forward hp => exact (Grows.put hp).trans <| .setStation .refl rfl fun _ => id
  case dial => exact .dial
  case register k dir sk node c hk hp hn hc =>
    have ⟨_, ha⟩ := Node.Adds.other (r _).attended hn (fun _ => Node.Label.noConfusion) fun _ _ => Node.Label.noConfusion
    refine .setBoth ha rfl (fun {c' p x} hr hx => ?_) hk <| Socket.dead_setPhase_of_dead (by simp [hp])
    have hne : c' ≠ c := Node.insertConnection_ok hc ▸ Nat.ne_of_lt ((r _).attended.below hr)
    exact (Function.update_of_ne hne ..).trans hx
  case refuse hk hn =>
    have ⟨_, ha⟩ := Node.Adds.other (r _).attended hn (fun _ => Node.Label.noConfusion) fun _ _ => Node.Label.noConfusion
    exact .setBoth ha rfl (fun _ => id) hk fun _ => Socket.dead_setPhase
  case wear hk _ _ hd _ => exact .setSocket hk hd
  case lose hk _ => exact .setSocket hk id
  case deliver ho _ hf hn =>
    have ⟨_, ha⟩ := read_adds hn <| by rw [readTurn_toFrame hf]; split <;> simp
    exact .setBoth ha rfl (fun _ => id) (end_eq.mp ho).right id
  case leave ho ht hn =>
    have ⟨_, ha⟩ := read_adds hn <| by rw [ht]; simp
    exact .setBoth ha rfl (fun _ => id) (end_eq.mp ho).right fun _ => Socket.dead_setPhase

omit [Crypto]

theorem Holds.setStation {P : Prop} (hq : s.Holds q) (h : (s.station a).Holds a q → st.Holds a q ∨ P) :
    (s.setStation a st).Holds q ∨ P := by
  cases hq
  case socket hk hm ht => exact .inl <| .socket hk hm ht
  case station b hq =>
    by_cases hb : b = a
    case neg => exact .inl <| .station (a := b) <| by rwa [setStation_station, if_neg hb]
    case pos =>
      subst hb
      exact (h hq).imp_left fun hq => .station (a := b) <| by rwa [setStation_station, if_pos rfl]

theorem Holds.setSocket {P : Prop} (hk : s.sockets[k]? = some sk) (hp : sk'.party = sk.party) (hq : s.Holds q)
    (h : ∀ dir, ∀ m ∈ sk.inbox dir, m.ticket (sk.party dir.other) (sk.party dir) = some q → m ∈ sk'.inbox dir ∨ P) :
    (s.setSocket k sk').Holds q ∨ P := by
  cases hq
  case station hq => exact .inl <| .station hq
  case socket k' dir sk₁ m hk' hm ht =>
    by_cases he : k = k'
    case neg => exact .inl <| .socket ((List.getElem?_set_ne he).trans hk') hm ht
    case pos =>
      subst he
      cases hk.symm.trans hk'
      have hl := (List.getElem?_eq_some_iff.mp hk).choose
      exact (h dir m hm ht).imp_left fun hm => .socket (List.getElem?_set_self hl) hm (hp ▸ ht)

theorem Holds.setBoth {P : Prop} (hq : s.Holds q) (ha : (s.station a).node.Adds st.node es)
    (hx : st.sending = (s.station a).sending) (hu : st.uploads = (s.station a).uploads)
    (ht : st.timers = (s.station a).timers) (hd : st.dials = (s.station a).dials) (hk : s.sockets[k]? = some sk)
    (hp : sk'.party = sk.party)
    (h : ∀ dir, ∀ m ∈ sk.inbox dir, m.ticket (sk.party dir.other) (sk.party dir) = some q → m ∈ sk'.inbox dir ∨ P) :
    (s.setStation a st |>.setSocket k sk').Holds q ∨ P := by
  have hq : (s.setStation a st).Holds q ∨ False := hq.setStation fun hq => .inl <| hq.mono
    (fun e he => ha.events ▸ List.mem_append_left _ he) (fun _ hm => hx ▸ hm) (fun _ hm => hu ▸ hm)
    (fun _ hm => ht ▸ hm) fun _ hm => hd ▸ hm
  exact (hq.resolve_right id).setSocket hk hp h

-- Frames stay on their way while another one is put behind them, and that one is on its way to its target.
theorem Holds.put (h : s.put a c m false = some s') : (s.Holds q → s'.Holds q) ∧
    (∀ {p st}, s.Routed → (s.station a).node.remote c = some p → m.ticket a p = some q → (s'.setStation a st).Holds q) := by
  obtain ⟨k, dir, sk, he, ⟨hc, _⟩ | ⟨_, hs⟩⟩ := put_cases h
  case inl => contradiction
  case inr =>
    subst hs
    obtain ⟨hs, hk⟩ := end_eq.mp he
    constructor
    case left =>
      intro hq
      refine (@Holds.setSocket _ _ _ (sk.setInbox dir.other (sk.inbox dir.other ++ [m])) _ False hk rfl hq
        fun dir' m' hm _ => .inl ?_).resolve_right id
      rw [Socket.setInbox_inbox]
      split
      case isFalse    => exact hm
      case isTrue he  => exact List.mem_append_left _ (he ▸ hm)
    case right =>
      intro p st r hp ht
      obtain ⟨ha, p', hp', ho⟩ := (r a).socket hs
      cases hp.symm.trans hp'
      rw [party, hk] at ha ho
      cases ha
      cases ho
      have hl := (List.getElem?_eq_some_iff.mp hk).choose
      refine @Holds.socket _ _ k dir.other _ m (List.getElem?_set_self hl) ?_ ?_
      case refine_1 => simp
      case refine_2 => rw [Socket.setInbox_party, Direction.other_other, ht]

-- What is under way for a request stays so, or nobody waits for it.
theorem Takes.holds [Crypto] (h : s.Takes l s') (r : s.Routed) (hl : ∀ a env, l ≠ .handle a env) (hc : s.Harmless l)
    (hq : s.Holds q) : s'.Holds q ∨ s.Spares q := by
  cases h
  case handle => exact absurd rfl <| hl _ _
  case move a _ _ hh hr hn _ =>
    obtain ⟨_, ha⟩ := Node.Adds.other (r a).attended hn hh hr
    refine hq.setStation fun hq => .inl <| hq.mono (fun e he => ?_) (fun _ => id) (fun _ => id) (fun _ => id) fun _ => id
    exact ha.events ▸ List.mem_append_left _ he
  case timer a i r' node ht hn =>
    have ha := (Node.Adds.post hn).events
    exact hq.setStation fun hq => .inl <| hq.fire ha rfl (fun _ => Station.mem_eraseIdx ht) (fun _ => .inr) rfl rfl
  case dialled a i r' result node ht hn =>
    have ha := (Node.Adds.post hn).events
    exact hq.setStation fun hq => .inl <| hq.fire ha rfl (fun _ => .inr) (fun _ => Station.mem_eraseIdx ht) rfl rfl
  case send a x xs hs =>
    refine hq.setStation fun hq => ?_
    obtain hq | h := hq.pop hs fun _ => List.mem_append_right _
    case inl => exact .inl hq
    case inr =>
      cases hx : x.next (s.station a).tables
      case none => exact .inr <| hc x xs q hs hx h
      case some y =>
        obtain ⟨hm, ht, _⟩ := (r a).next (hs ▸ List.mem_cons_self) hx
        exact .inl <| .sending (List.mem_cons_self ..) (hm ▸ ht ▸ h)
  case push a closed x xs c s₁ hs hp h =>
    have hx : x ∈ (s.station a).sending := hs ▸ List.mem_cons_self
    rw [put_station h]
    cases closed
    case true  => exact put_closed h ▸ hq.setStation fun hq => (hq.pop hs fun _ => id).imp_right <| hc x xs q hs rfl
    case false =>
      obtain ⟨hk, hm⟩ := Holds.put (q := q) h
      refine .inl <| (hk hq).setStation (fun hq => ?_) |>.elim id id
      rw [put_station h] at hq
      exact (hq.pop hs fun _ => id).imp_right <| hm r ((r a).sending hx (.inr hp))
  case read a i result t t' ht h =>
    refine hq.setStation fun hq => hq.setUpload ht fun h' => ?_
    simp only [UploadThread.read] at h
    split at h
    case h_3 => contradiction
    case h_1 => exact .inr <| h' ▸ hc t _ ht rfl
    case h_2 => split at h <;> [skip; split at h] <;> cases h <;> exact .inl ⟨h', by simp⟩
  case lookUp a i t t' ht h =>
    refine hq.setStation fun hq => hq.setUpload ht fun h' => ?_
    have hu := ((r a).lookUp h).left
    by_cases hp : t'.phase = .ended
    case neg => exact .inl ⟨by rw [hu]; exact h', hp⟩
    case pos => exact .inr <| h' ▸ hc t ht (by rw [h, hu, hp])
  case fetch a i t t' ht h =>
    refine hq.setStation fun hq => hq.setUpload ht fun h' => ?_
    have hu := ((r a).fetch (List.mem_of_getElem? ht) h).left
    by_cases hp : t'.phase = .ended
    case neg => exact .inl ⟨by rw [hu]; exact h', hp⟩
    case pos => exact .inr <| h' ▸ hc t ht (by rw [h, hu, hp])
  case forward a i closed t c m s₁ ht hp h =>
    rw [put_station h]
    cases closed
    case true =>
      rw [put_closed h]
      exact hq.setStation fun hq => hq.setUpload ht fun h' => .inr <| h' ▸ hc t ht rfl
    case false =>
      obtain ⟨hk, hm⟩ := Holds.put (q := q) h
      refine .inl <| (hk hq).setStation (fun hq => ?_) |>.elim id id
      rw [put_station h] at hq
      refine hq.setUpload ht fun h' => ?_
      by_cases he : m = t.last
      case neg => exact .inl ⟨h', by simp [UploadThread.next, he]⟩
      case pos =>
        refine .inr <| hm r ((r a).uploads (List.mem_of_getElem? ht) ⟨m, .inr hp⟩) ?_
        rw [he]
        exact congrArg some h'
  case dial a b =>
    cases hq
    case station hq => exact .inl <| .station hq
    case socket hk hm ht =>
      have hl := (List.getElem?_eq_some_iff.mp hk).choose
      exact .inl <| .socket ((List.getElem?_append_left hl).trans hk) hm ht
  case register k dir sk node c hk hp hn hc =>
    obtain ⟨_, ha⟩ := Node.Adds.other (r _).attended hn (fun _ => Node.Label.noConfusion) fun _ _ => Node.Label.noConfusion
    exact hq.setBoth ha rfl rfl rfl rfl hk rfl fun _ _ hm _ => .inl hm
  case refuse k dir sk node hk hn =>
    obtain ⟨_, ha⟩ := Node.Adds.other (r _).attended hn (fun _ => Node.Label.noConfusion) fun _ _ => Node.Label.noConfusion
    exact hq.setBoth ha rfl rfl rfl rfl hk rfl fun _ _ hm _ => .inl hm
  case wear k sk sk' hk hp hi _ _ => exact hq.setSocket hk hp fun dir m hm _ => .inl (hi ▸ hm)
  case lose k dir sk hk hd =>
    refine hq.setSocket hk rfl fun dir' m hm ht => ?_
    rw [Socket.setInbox_inbox]
    split
    case isFalse   => exact .inl hm
    case isTrue he => exact .inr <| hc sk m q hk (he ▸ hm) (he ▸ ht)
  case deliver a c k dir sk m ms node ho hi hf hn =>
    obtain ⟨_, ha⟩ := read_adds hn <| by rw [readTurn_toFrame hf]; split <;> simp
    obtain ⟨hs, hk⟩ := end_eq.mp ho
    have next {P : Prop} (h : ∀ dir', ∀ m' ∈ sk.inbox dir', m'.ticket (sk.party dir'.other) (sk.party dir') = some q →
        m' ∈ (sk.setInbox dir ms).inbox dir' ∨ P) :
        (s.setStation a { s.station a with node } |>.setSocket k (sk.setInbox dir ms)).Holds q ∨ P :=
      hq.setBoth ha rfl rfl rfl rfl hk rfl h
    refine .inl <| (next fun dir' m' hm ht => ?_).elim id id
    rw [Socket.setInbox_inbox]
    split
    case isFalse => exact .inl hm
    case isTrue he =>
      subst he
      rw [hi] at hm
      obtain rfl | hm := List.mem_cons.mp hm
      case inr => exact .inl hm
      case inl =>
        -- The message has become an event.
        have hm : readTurn (.ok (some m'.toFrame)) = .message m' := by
          rw [readTurn_toFrame hf]
          cases m' <;> first | rfl | contradiction
        obtain ⟨p, hp, ha⟩ := Node.Adds.message hn hm
        obtain ⟨ho, p', hp', ho'⟩ := (r a).socket hs
        cases hp.symm.trans hp'
        rw [party, hk] at ho ho'
        cases ho
        cases ho'
        refine .inr <| .station (a := sk.party dir') ?_
        show Station.Holds _ ((s.setStation _ _).station _) q
        rw [setStation_station, if_pos rfl]
        have hm : ⟨c, .message (sk.party dir'.other) m'⟩ ∈ node.events :=
          ha.events ▸ List.mem_append_right _ (List.mem_singleton.mpr rfl)
        exact .event hm ht
  case leave a c result k dir sk node ho ht hn =>
    obtain ⟨_, ha⟩ := read_adds hn <| by rw [ht]; simp
    exact hq.setBoth ha rfl rfl rfl rfl (end_eq.mp ho).right rfl fun _ _ hm _ => .inl hm

-- The requests for which something is under way, and those of the clients, are the same.
structure Pursued (s : Mesh) : Prop where
  pending  : ∀ {q}, s.Waits q → s.Holds q ∨ s.Ends q
  answered : ∀ {a c}, c ∈ (s.station a).channels →
    (∃ r, (s.station a).daemon.reqTracker.get r = some c) ∨ Daemon.Answered (s.station a).node.effects c

theorem Pursued.grows (k : s.Pursued) (g : s.Grows s') (h : ∀ {q}, s.Holds q → s'.Holds q ∨ s.Spares q) : s'.Pursued := by
  constructor
  case pending =>
    intro q hw
    have hw := g.waits hw
    obtain hq | hq := k.pending hw
    case inr => exact .inr <| g.ends hq
    case inl => exact (h hq).imp_right fun hs => g.ends (hs hw)
  case answered =>
    intro a c hc
    rw [g.channels] at hc
    rw [g.reqTracker, g.effects]
    exact k.answered hc

end

-- What the event loop of `a` makes of an event.
structure Handles [Crypto] (s : Mesh) (a : PeerId) (env : Env) (e : QueuedEvent) (d : Daemon) (fx : List Effect)
    (st : Station) : Prop where
  sending  : (s.station a).sending = []
  handle   : (s.station a).daemon.handleEvent env e.event = .ok (d, fx)
  events   : (s.station a).node.events = e :: st.node.events
  daemon   : st.daemon = d
  readers  : st.node.readers = (s.station a).node.readers
  effects  : st.node.effects = (s.station a).node.effects ++ fx
  channels : st.channels = (s.station a).channels ++ e.event.channel.toList
  socket   : st.socket = (s.station a).socket
  holds    : ∀ {q}, (s.station a).Holds a q → st.Holds a q ∨ e.event.ticket a = some q
  sets     : ∀ {f q}, f ∈ fx → f.ticket a = some q → st.Holds a q

theorem handles [Crypto] {env : Env} (h : (s.station a).handle env = some st) :
    ∃ e d fx, s.Handles a env e d fx st := by
  obtain ⟨e, events, d, fx, hs, he, hd, hst⟩ := Station.handle_eq h
  have p := @Station.performs { s.station a with
    node     := { (s.station a).node with daemon := d, events, effects := (s.station a).node.effects ++ fx }
    channels := (s.station a).channels ++ e.event.channel.toList } e.from fx
  rw [← hst] at p
  refine ⟨e, d, fx, ?_⟩
  constructor
  case sending  => exact hs
  case handle   => exact hd
  case events   => rw [he, p.node]
  case daemon   => rw [Station.daemon, p.node]
  case readers  => rw [p.node]
  case effects  => rw [p.node]
  case channels => exact p.channels
  case socket   => exact p.socket
  case sets     => exact fun hf ht => hst ▸ .performs (.inr ⟨_, hf, ht⟩)
  case holds =>
    intro q hq
    rw [hst]
    cases hq
    case sending hm _   => rw [hs] at hm; contradiction
    case upload hm hp h => exact .inl <| .performs <| .inl <| .upload hm hp h
    case timer hm h     => exact .inl <| .performs <| .inl <| .timer hm h
    case dial hm h      => exact .inl <| .performs <| .inl <| .dial hm h
    case event hm h =>
      rw [he] at hm
      obtain rfl | hm := List.mem_cons.mp hm
      case inl => exact .inr h
      case inr => exact .inl <| .performs <| .inl <| .event hm h

namespace Handles

variable [Crypto] {env : Env} {e : QueuedEvent} {d : Daemon} {fx : List Effect} {r : UInt32}

-- The event has come to the end of what it is part of.
theorem pending (h : s.Handles a env e d fx st) : (s.station a).daemon.Tracks
    env st.daemon fx e.event :=
  h.daemon ▸ Daemon.handleEvent_tracks h.handle

theorem next (h : s.Handles a env e d fx st) (hq : s.Holds q) :
    (s.setStation a st).Holds q ∨ e.event.ticket a = some q :=
  hq.setStation h.holds

theorem closes (h : s.Handles a env e d fx st) (hc : s.Closes b p) :
    (s.setStation a st).Closes b p ∨ b = a ∧ e.event = .disconnected p := by
  by_cases hb : b = a
  case neg =>
    have he : (s.setStation a st).station b = s.station b := by rw [setStation_station, if_neg hb]
    cases hc
    case event hm hd => exact .inl <| .event (he ▸ hm) hd
    case reader hl hp hr ho hd =>
      have ho := end_eq.mp ho
      rw [← he] at hl ho
      exact .inl <| .reader hl hp hr (end_eq.mpr ho) hd
  case pos =>
    subst hb
    have he : (s.setStation b st).station b = st := by rw [setStation_station, if_pos rfl]
    cases hc
    case event hm hd =>
      rw [h.events] at hm
      obtain rfl | hm := List.mem_cons.mp hm
      case inl => exact .inr ⟨rfl, hd⟩
      case inr => exact .inl <| .event (by rw [he]; exact hm) hd
    case reader hl hp hr ho hd =>
      have ho := end_eq.mp ho
      rw [← h.readers, ← he] at hl
      rw [← h.socket, ← he] at ho
      exact .inl <| .reader hl hp hr (end_eq.mpr ho) hd

theorem waits (h : s.Handles a env e d fx st) (hw : (s.setStation a st).Waits (a, r)) : d.reqTracker.get r ≠ none := by
  simp only [Waits, setStation_station, if_true] at hw
  exact h.daemon ▸ hw

-- The end of a connection that answers a request is still to come, or has answered it.
theorem ends (h : s.Handles a env e d fx st) (hq : s.Ends q) (hw : (s.setStation a st).Waits q)
    (hn : q.fst = a → ¬(s.station a).daemon.Reuses env q.snd e.event) : (s.setStation a st).Ends q := by
  obtain ⟨b, r⟩ := q
  obtain ⟨t, ht, hc⟩ := hq
  by_cases hb : b = a
  case neg =>
    have hc := (h.closes hc).resolve_right fun he => hb he.left
    refine ⟨t, ?_, hc⟩
    simpa [hb] using ht
  case pos =>
    subst hb
    have hw := h.waits hw
    have hn : ¬(s.station b).daemon.Reuses env r e.event := by
      rintro ⟨cmd, c, he, hr, hi⟩
      exact hn rfl ⟨cmd, c, he, hr, hi⟩
    obtain ⟨t', ht', hp⟩ := Daemon.handleEvent_transfer h.handle ht hw hn
    obtain hc | ⟨_, he⟩ := h.closes hc
    case inl =>
      refine ⟨t', ?_, hp ▸ hc⟩
      simpa [h.daemon] using ht'
    case inr =>
      have ht := h.pending
      rw [he] at ht
      cases ht <;> try contradiction
      case cancelled hf =>
        refine absurd ?_ hw
        rw [← h.daemon, hf.get, if_pos]
        exact Daemon.mem_cancelled.mpr <| by simp [ht]

-- What an event is part of goes on, has come to its end, or is not waited for.
theorem takes (h : s.Handles a env e d fx st) (ht : e.event.ticket a = some q) (hw : (s.setStation a st).Waits q)
    (hc : s.Heeds a env e.event) : (s.setStation a st).Holds q ∨ s.Spares q := by
  have goes {f} (hf : f ∈ fx) (ht : f.ticket a = some q) : (s.setStation a st).Holds q ∨ s.Spares q :=
    .inl <| .station (a := a) <| by rw [setStation_station, if_pos rfl]; exact h.sets hf ht
  have finished {r} (hq : (a, r) = q) (hf : RequestTracker.Finishes (s.station a).daemon.reqTracker [r] fx st.daemon.reqTracker) :
      (s.setStation a st).Holds q ∨ s.Spares q := by
    subst hq
    refine absurd ?_ (h.waits hw)
    rw [← h.daemon, hf.get, if_pos (List.mem_singleton.mpr rfl)]
  have hd := h.handle
  have hp := h.pending
  obtain ⟨_, e⟩ := e
  cases e <;> try contradiction
  case scanTimeout r | connectResult r _ =>
    cases hp <;> try contradiction
    case finished hf he => cases he; exact finished (Option.some.inj ht) hf
  case message p msg =>
    cases msg <;> try contradiction
    case listResources r => cases hd; exact goes (List.mem_singleton.mpr rfl) ht
    case downloadResource r id =>
      simp only [Daemon.handleEvent, Daemon.handleMessage] at hd
      split at hd <;> cases hd
      case h_1 => exact goes (List.mem_singleton.mpr rfl) ht
      case h_2 hn => cases ht; exact .inr <| hc hn
    case resourceList r rs =>
      cases hp <;> try contradiction
      case finished hf he => cases he; exact finished (Option.some.inj ht) hf
    case resourceEnd r id =>
      cases hp <;> try contradiction
      case ended hf _ => exact finished (Option.some.inj ht) hf
      case unended hn =>
        cases ht
        refine .inr <| hc ?_
        rintro ⟨hk, t, ht⟩
        exact absurd (ht.symm.trans (hn hk)) (by simp)

-- A request that has come gets something under way.
theorem registered (h : s.Handles a env e d fx st) (hw : (s.setStation a st).Waits (a, r))
    (hr : (s.station a).daemon.Reuses env r e.event) : (s.setStation a st).Holds (a, r) := by
  obtain ⟨cmd, c, he, hr, rfl⟩ := hr
  have hd := h.handle
  rw [he] at hd
  obtain hn | ⟨f, hf, hp⟩ := Daemon.handleControl_pursues hd (hr)
  case inl => exact absurd hn <| h.waits hw
  case inr =>
    have ht : f.ticket a = some (a, (s.station a).daemon.reqTracker.nextId) := by cases hp <;> rfl
    refine .station (a := a) ?_
    rw [setStation_station, if_pos rfl]
    exact h.sets hf ht

-- Other requests that are pending have been so before.
theorem waited (h : s.Handles a env e d fx st) (hw : (s.setStation a st).Waits q)
    (hn : q.fst = a → ¬(s.station a).daemon.Reuses env q.snd e.event) : s.Waits q := by
  obtain ⟨b, r⟩ := q
  by_cases hb : b = a
  case neg => simpa [Waits, hb] using hw
  case pos =>
    subst hb
    obtain ⟨c, hp⟩ := Option.ne_none_iff_exists'.mp <| h.daemon ▸ h.waits hw
    refine Option.ne_none_iff_exists'.mpr ⟨c, ?_⟩
    obtain hp' | ⟨hc, hr⟩ := h.pending.pending hp
    case inl => exact hp'
    case inr =>
      have hd := h.handle
      have hn := hn rfl
      obtain ⟨_, e⟩ := e
      cases e <;> try contradiction
      case controlRequest =>
        obtain ⟨hg, _⟩ | ⟨_, hq⟩ := Daemon.handleControl_registers hd
        case inl => exact absurd ⟨_, _, rfl, hg, hr⟩ hn
        case inr => rw [← hq, ← h.daemon]; exact hp

theorem pursued (h : s.Handles a env e d fx st) (k : s.Pursued) (hc : s.Heeds a env e.event) :
    (s.setStation a st).Pursued := by
  constructor
  case pending =>
    intro q hw
    by_cases hr : q.fst = a ∧ (s.station a).daemon.Reuses env q.snd e.event
    case pos =>
      obtain ⟨b, r⟩ := q
      obtain ⟨rfl, hr⟩ := hr
      exact .inl <| h.registered hw hr
    case neg =>
      have hn := fun hq hr' => hr ⟨hq, hr'⟩
      have hw' := h.waited hw hn
      obtain hq | hq := k.pending hw'
      case inr => exact .inr <| h.ends hq hw hn
      case inl =>
        obtain hq | ht := h.next hq
        case inl => exact .inl hq
        case inr => exact (h.takes ht hw hc).imp_right fun hs => h.ends (hs hw') hw hn
  case answered =>
    intro b c hm
    by_cases hb : b = a
    case neg =>
      rw [setStation_station, if_neg hb] at hm ⊢
      exact k.answered hm
    case pos =>
      subst hb
      rw [setStation_station, if_pos rfl] at hm ⊢
      rw [h.effects]
      have more {fx' : List Effect} (ha : Daemon.Answered fx' c) (hs : fx' ⊆ (s.station b).node.effects ++ fx) :
          Daemon.Answered ((s.station b).node.effects ++ fx) c :=
        have ⟨response, ht, hm⟩ := ha
        ⟨response, ht, hs hm⟩
      rw [h.channels] at hm
      obtain hm | hm := List.mem_append.mp hm
      case inr => 
        obtain hp | ha := h.pending.come (Option.mem_toList.mp hm)
        case inl => exact .inl ⟨_, hp⟩
        case inr => exact .inr <| more ha (List.subset_append_right ..)
      case inl =>
        obtain ⟨r, hp⟩ | ha := k.answered hm
        case inr => exact .inr <| more ha (List.subset_append_left ..)
        case inl =>
          obtain hp | ha | ⟨cmd, c', he, hr, hi⟩ := h.pending.kept (h.daemon.symm ▸ h.handle) hp
          case inl     => exact .inl ⟨r, hp⟩
          case inr.inl => exact .inr <| more ha (List.subset_append_right ..)
          case inr.inr =>
            rw [he] at hc
            have := hc <| hr
            rw [← hi, hp] at this
            contradiction

end Handles

section

variable [Crypto]

theorem Pursued.step (k : s.Pursued) (r : s.Routed) (h : s.Takes l s') (hc : s.Harmless l) : s'.Pursued := by
  by_cases hl : ∀ a env, l ≠ .handle a env
  case pos => exact k.grows (h.grows r hl) (h.holds r hl hc)
  case neg =>
    simp only [not_forall, not_not] at hl
    obtain ⟨a, env, rfl⟩ := hl
    cases h
    case move h | wear h => exact absurd rfl <| h a env
    case handle st h =>
      have ⟨e, d, fx, hs⟩ := handles h
      exact hs.pursued k <| hc e _ hs.events

theorem Pursued.reachable (r : Reachable (system.restrict Harmless) s) : s.Pursued := by
  refine Invariant.relative (P := Pursued) (Q := Routed) ?_ ?_ ?_ r
  case refine_1 =>
    have i : Invariant system Routed := ⟨.init, fun r h => r.step (takes h)⟩
    exact fun {s} (r : Reachable (system.restrict Harmless) s) => i.reachable r.of_restrict
  case refine_2 =>
    intro s h
    constructor
    case pending =>
      intro q hw
      obtain ⟨_, ⟨_, _, _, rfl⟩, he⟩ := h.left q.fst
      rw [Waits, he] at hw
      exact absurd Table.lookup_empty hw
    case answered =>
      intro a c hm
      obtain ⟨_, _, he⟩ := h.left a
      rw [he] at hm
      contradiction
  case refine_3 => exact fun r k h => k.step r (takes h.left) h.right

-- A request that waits while nothing is on its way has lost something on its way.
theorem settled_of_quiescent (r : Reachable (system.restrict Harmless) s) (h : s.Quiescent) : s.Settled := by
  have k := Pursued.reachable r
  have hn (a r) : (s.station a).daemon.reqTracker.get r = none := by
    by_contra hw
    obtain hq | hq := k.pending (q := (a, r)) hw
    case inl => exact h.not_holds hq
    case inr => exact h.not_ends hq
  refine ⟨hn, fun a c hc => (k.answered hc).resolve_left ?_⟩
  rintro ⟨r, hr⟩
  rw [hn] at hr
  contradiction

end
-- Two daemons without files.
def asker : PeerId :=
  ⟨.replicate 32 9⟩

def holder : PeerId :=
  ⟨.replicate 32 1⟩

def address : SocketAddr :=
  ⟨⟨[192, 168, 0, 7], rfl⟩, 9000⟩

def fresh : Mesh where
  station _ := .new <| .new <| .new ⟨∅⟩ "/downloads".toList .empty
  sockets   := []

theorem fresh_initial : fresh.Initial :=
  ⟨fun _ => ⟨_, ⟨_, _, _, rfl⟩, rfl⟩, rfl⟩

theorem fresh_rests : (fresh.station a).Rests :=
  ⟨rfl, rfl, fun _ h => absurd h List.not_mem_nil, rfl, rfl⟩

-- One asks the other for its list, over a connection, and is sent the list.
def listing : List Label := [
  .post asker <| .discovered holder address "holder",
  .handle asker <| .fine 0,
  .dial asker holder,
  .register 0 .outgoing,
  .register 0 .incoming,
  .post asker <| .controlRequest (.listResources "p1") 0,
  .handle asker <| .fine 0,
  .send asker,
  .send asker,
  .push asker false,
  .deliver holder 1,
  .handle holder <| .fine 0,
  .send holder,
  .send holder,
  .push holder false,
  .deliver asker 1,
  .handle asker <| .fine 0
]

def listed : Mesh :=
  (listing.foldlM (@step .transparent) fresh).getD fresh

theorem listed_run : Run (@system .transparent |>.restrict Harmless) fresh listing listed := by
  have sends {s : Mesh} {a} {x y : Sending} {xs} (hs : (s.station a).sending = x :: xs)
      (hx : x.next (s.station a).tables = some y) : s.Harmless (.send a) := by
    intro x' _ _ h hn _
    cases hs.symm.trans h
    exact absurd (hx.symm.trans hn) (by simp)
  have pushes {s : Mesh} {a} : s.Harmless (.push a false) := fun _ _ _ _ h => by contradiction
  have handles {s : Mesh} {a env e events} (he : (s.station a).node.events = e :: events) (h : s.Heeds a env e.event) :
      s.Harmless (.handle a env) := by
    intro e' _ he'
    cases he.symm.trans he'
    exact h
  exact .step ⟨rfl, trivial⟩ <| .step ⟨rfl, handles rfl trivial⟩ <| .step ⟨rfl, trivial⟩ <| .step ⟨rfl, trivial⟩ <|
    .step ⟨rfl, trivial⟩ <| .step ⟨rfl, trivial⟩ <| .step ⟨rfl, handles rfl fun _ => rfl⟩ <|
    .step ⟨rfl, sends rfl rfl⟩ <| .step ⟨rfl, sends rfl rfl⟩ <| .step ⟨rfl, pushes⟩ <| .step ⟨rfl, trivial⟩ <|
    .step ⟨rfl, handles rfl trivial⟩ <| .step ⟨rfl, sends rfl rfl⟩ <| .step ⟨rfl, sends rfl rfl⟩ <|
    .step ⟨rfl, pushes⟩ <| .step ⟨rfl, trivial⟩ <| .step ⟨rfl, handles rfl trivial⟩ .refl

theorem listed_station (h : b ≠ asker) (h' : b ≠ holder) : listed.station b = fresh.station b := by
  have a {f : PeerId → Station} {st} : Function.update f asker st b = f b := Function.update_of_ne h ..
  have o {f : PeerId → Station} {st} : Function.update f holder st b = f b := Function.update_of_ne h' ..
  exact a.trans <| a.trans <| o.trans <| o.trans <| o.trans <| o.trans <| o.trans <| a.trans <| a.trans <| a.trans <|
    a.trans <| a.trans <| o.trans <| a.trans <| a.trans a

theorem listed_quiescent : listed.Quiescent := by
  have reading {c : ConnId} {reader} {p : PeerId} (h : ((∅ : Table ConnId Reader).insert 1 ⟨p, false, .reading⟩).lookup c = some reader) :
      c = 1 ∧ reader.phase = .reading := by
    rw [Table.lookup_insert] at h
    split at h
    case isTrue hc => cases h; exact ⟨hc, rfl⟩
    case isFalse   => exact absurd (Table.lookup_empty.symm.trans h) (by simp)
  constructor
  case rests =>
    intro b
    by_cases ha : b = asker
    case pos => subst ha; exact ⟨rfl, rfl, fun _ h => absurd h List.not_mem_nil, rfl, rfl⟩
    case neg =>
      by_cases hh : b = holder
      case pos => subst hh; exact ⟨rfl, rfl, fun _ h => absurd h List.not_mem_nil, rfl, rfl⟩
      case neg => exact listed_station ha hh ▸ fresh_rests
  case frames =>
    intro sk hk dir
    cases List.mem_singleton.mp hk
    cases dir <;> rfl
  case readers =>
    intro b c reader h
    by_cases ha : b = asker
    case pos =>
      subst ha
      obtain ⟨rfl, hp⟩ := reading h
      refine .inr ⟨hp, fun he => ?_⟩
      cases he
      rfl
    case neg =>
      by_cases hh : b = holder
      case pos =>
        subst hh
        obtain ⟨rfl, hp⟩ := reading h
        refine .inr ⟨hp, fun he => ?_⟩
        cases he
        rfl
      case neg =>
        rw [listed_station ha hh] at h
        exact absurd (Table.lookup_empty.symm.trans h) (by simp)

theorem settled_of_quiescent_listed : listed.Settled :=
  @settled_of_quiescent listed .transparent (listed_run.reachable <| .init fresh_initial) listed_quiescent

-- It asks while it knows the other by its alias but is not connected to it.
def asking : List Label := [
  .post asker <| .discovered holder address "holder",
  .handle asker <| .fine 0,
  .post asker <| .controlRequest (.listResources "p1") 0,
  .handle asker <| .fine 0,
  .send asker
]

def hung : Mesh :=
  (asking.foldlM (@step .transparent) fresh).getD fresh

theorem hung_quiescent : hung.Quiescent := by
  have station {b} (h : b ≠ asker) : hung.station b = fresh.station b := by
    have a {f : PeerId → Station} {st} : Function.update f asker st b = f b := Function.update_of_ne h ..
    exact a.trans <| a.trans <| a.trans <| a.trans a
  constructor
  case rests =>
    intro b
    by_cases hb : b = asker
    case pos => subst hb; exact ⟨rfl, rfl, fun _ h => absurd h List.not_mem_nil, rfl, rfl⟩
    case neg => exact station hb ▸ fresh_rests
  case frames => exact fun _ h => absurd h List.not_mem_nil
  case readers =>
    intro b c reader h
    have h : (∅ : Table ConnId Reader).lookup c = some reader := by
      by_cases hb : b = asker
      case pos => subst hb; exact h
      case neg => rw [station hb] at h; exact h
    exact absurd (Table.lookup_empty.symm.trans h) (by simp)

theorem hung_not_settled : Reachable (@system .transparent) hung ∧ hung.Quiescent ∧ ¬hung.Settled := by
  have r : Run (@system .transparent) fresh asking hung := .ofFn (rfl : asking.foldlM (@step .transparent) fresh = _)
  refine ⟨r.reachable <| .init fresh_initial, hung_quiescent, fun h => ?_⟩
  have hp : (hung.station asker).daemon.reqTracker.get 1 = some 0 := by decide +kernel
  rw [h.pending] at hp
  contradiction

end Mesh
end Parsip
