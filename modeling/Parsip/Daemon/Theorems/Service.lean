import Parsip.Daemon.Service
import Parsip.Daemon.Theorems.History
import Parsip.Daemon.Theorems.Requests

-- No client hears anything after its answer.

namespace Parsip

open Transition

-- Nothing comes after an answer.
def ControlResponse.Closed (responses : List ControlResponse) : Prop :=
  ∀ pre response post, responses = pre ++ response :: post → response.Terminal → post = []

namespace ControlResponse.Closed

variable {rs : List ControlResponse} {response : ControlResponse}

theorem of_not_terminal (h : ∀ response ∈ rs, ¬response.Terminal) : Closed rs := by
  intro pre response post he ht
  exact absurd ht <| h response <| he ▸ List.mem_append_right _ (List.mem_cons_self ..)

theorem append (h : ∀ response ∈ rs, ¬response.Terminal) : Closed (rs ++ [response]) := by
  intro pre response' post he ht
  by_contra hp
  obtain ⟨post', last, rfl⟩ := (List.eq_nil_or_concat' post).resolve_left hp
  rw [← List.cons_append, ← List.append_assoc] at he
  exact h response' (by simp [List.append_inj_left' he rfl]) ht

end ControlResponse.Closed

namespace Effect

variable {c c' : ReplyTo} {response : ControlResponse} {fx : List Effect}

theorem responses_of_silent (h : ∀ f ∈ fx, ¬f.Replies) : fx.filterMap (·.responseTo c) = [] := by
  refine List.filterMap_eq_nil_iff.mpr fun f hf => ?_
  have := h f hf
  cases f <;> first | rfl | exact absurd trivial this

theorem responses_singleton : [respond c' response].filterMap (·.responseTo c) = if c' = c then [response] else [] := by
  by_cases h : c' = c <;> simp [responseTo, h]

end Effect

namespace RequestTracker.Finishes

variable {q q' : RequestTracker} {rs : List UInt32} {fx : List Effect} {c : ReplyTo}

theorem unanswered (h : Finishes q rs fx q') (hn : ∀ r ∈ rs, q.get r ≠ some c) : fx.filterMap (·.responseTo c) = [] := by
  refine List.filterMap_eq_nil_iff.mpr fun f hf => ?_
  have ⟨r, hr, c', _, hg, _, he⟩ := h.mem hf
  have hc : c' ≠ c := fun he => hn r hr (he ▸ hg)
  rw [he, Effect.responseTo, if_neg hc]

-- A client with one request is answered once, if at all.
theorem responses (h : Finishes q rs fx q') (hs : ∀ {r r'}, q.get r = some c → q.get r' = some c → r = r') :
    fx.filterMap (·.responseTo c) = [] ∨ ∃ response, fx.filterMap (·.responseTo c) = [response] ∧
      response.Terminal ∧ ∃ r ∈ rs, q.get r = some c := by
  induction h
  case nil => exact .inl rfl
  case cons q q' r rs fx response ht h hi =>
    have hi := hi fun h h' => hs (Option.ite_none_left_eq_some.mp (complete_get ▸ h)).right
      (Option.ite_none_left_eq_some.mp (complete_get ▸ h')).right
    rw [List.filterMap_append]
    by_cases hc : q.get r = some c
    case pos =>
      have hn : fx.filterMap (·.responseTo c) = [] := by
        refine hi.resolve_right fun ⟨_, _, _, r', _, h'⟩ => ?_
        rw [complete_get, Option.ite_none_left_eq_some] at h'
        exact h'.left <| hs h'.right hc
      refine .inr ⟨response, ?_, ht, r, List.mem_cons_self .., hc⟩
      rw [hn, hc]
      simp [Effect.responseTo]
    case neg =>
      have hn : ((q.get r).toList.map (Effect.respond · response)).filterMap (·.responseTo c) = [] := by
        cases hq : q.get r
        case none => rfl
        case some c' =>
          have : c' ≠ c := fun he => hc <| he ▸ hq
          simp [Effect.responseTo, this]
      rw [hn, List.nil_append]
      refine hi.imp_right fun ⟨response', he, ht', r', hr, h'⟩ => ?_
      rw [complete_get, Option.ite_none_left_eq_some] at h'
      exact ⟨response', he, ht', r', List.mem_cons_of_mem _ hr, h'.right⟩

end RequestTracker.Finishes

namespace Daemon.Tracks

variable {d d' : Daemon} {env : Env} {e : PeerEvent} {fx : List Effect} {r : UInt32} {c : ReplyTo}

-- Pending requests have been pending before, but for one that has just come.
theorem pending (h : d.Tracks env d' fx e) (hp : d'.reqTracker.get r = some c) :
    d.reqTracker.get r = some c ∨ c ∈ e.channel ∧ r = d.reqTracker.nextId := by
  cases h
  case idle hs _ _ | reported hs _ | unreported hs _ | unended hs _ | answered hs _ => exact .inl <| hs ▸ hp
  case finished hf _ | ended hf | cancelled hf =>
    rw [hf.get, Option.ite_none_left_eq_some] at hp
    exact .inl hp.right
  case registered _ hq _ =>
    rw [hq, RequestTracker.register_get] at hp
    split at hp
    case isTrue hr  => exact .inr ⟨hp, hr⟩
    case isFalse hr => exact .inl hp
  case refused hf =>
    rw [hf.get, Option.ite_none_left_eq_some, RequestTracker.register_get] at hp
    rw [if_neg fun hr => hp.left (List.mem_singleton.mpr hr)] at hp
    exact .inl hp.right

-- What a client is sent: nothing, an answer to a request that has been pending or has just come and is
-- not pending any more, or progress on a pending request.
theorem responses (h : d.Tracks env d' fx e)
    (hs : ∀ {r r'}, d.reqTracker.get r = some c → d.reqTracker.get r' = some c → r = r')
    (hc : c ∈ e.channel → ∀ r, d.reqTracker.get r ≠ some c) :
    fx.filterMap (·.responseTo c) = [] ∨ ∃ response, fx.filterMap (·.responseTo c) = [response] ∧
      (response.Terminal ∧ ((∃ r, d.reqTracker.get r = some c) ∨ c ∈ e.channel) ∧ (∀ r, d'.reqTracker.get r ≠ some c) ∨
        ¬response.Terminal ∧ ∃ r, d.reqTracker.get r = some c) := by
  have finished {q : RequestTracker} {rs : List UInt32} (hf : q.Finishes rs fx d'.reqTracker)
      (hs : ∀ {r r'}, q.get r = some c → q.get r' = some c → r = r')
      (hq : ∀ {r}, r ∈ rs → q.get r = some c → (∃ r, d.reqTracker.get r = some c) ∨ c ∈ e.channel) :
      fx.filterMap (·.responseTo c) = [] ∨ ∃ response, fx.filterMap (·.responseTo c) = [response] ∧
        (response.Terminal ∧ ((∃ r, d.reqTracker.get r = some c) ∨ c ∈ e.channel) ∧ (∀ r, d'.reqTracker.get r ≠ some c) ∨
          ¬response.Terminal ∧ ∃ r, d.reqTracker.get r = some c) := by
    refine (hf.responses hs).imp_right fun ⟨response, he, ht, r, hr, hg⟩ => ⟨response, he, .inl ⟨ht, hq hr hg, fun r' hp => ?_⟩⟩
    rw [hf.get, Option.ite_none_left_eq_some] at hp
    exact hp.left <| hs hg hp.right ▸ hr
  cases h
  case idle _ hf _ | registered _ _ hf => exact .inl <| Effect.responses_of_silent hf
  case unreported hf | unended hf => exact .inl <| hf ▸ rfl
  case finished hf _ | ended hf | cancelled hf => exact finished hf hs fun _ hg => .inl ⟨_, hg⟩
  case reported c' _ _ hp _ hf =>
    rw [hf, Effect.responses_singleton]
    split
    case isFalse   => exact .inl rfl
    case isTrue he => exact .inr ⟨_, rfl, .inr ⟨id, _, he ▸ hp⟩⟩
  case answered c' response _ ht hq hf =>
    rw [hf, Effect.responses_singleton]
    split
    case isFalse => exact .inl rfl
    case isTrue he =>
      have hc : ∀ r, d.reqTracker.get r ≠ some c := hc (he ▸ rfl)
      exact .inr ⟨_, rfl, .inl ⟨ht, .inr (he ▸ rfl), fun r => hq ▸ hc r⟩⟩
  case refused c' _ _ hf =>
    have new {r} (h : RequestTracker.get (d.reqTracker.advance.snd.register d.reqTracker.nextId c') r = some c) :
        c' = c ∧ r = d.reqTracker.nextId ∨ c' ≠ c ∧ d.reqTracker.get r = some c := by
      rw [RequestTracker.register_get] at h
      split at h
      case isTrue hr => exact .inl ⟨Option.some.inj h, hr⟩
      case isFalse =>
        by_cases he : c' = c
        case pos => exact absurd h <| hc (he ▸ rfl) r
        case neg => exact .inr ⟨he, h⟩
    refine finished hf (fun {r r'} h h' => ?_) fun {r} hr hg => ?_
    case refine_1 =>
      obtain ⟨he, hr⟩ | ⟨he, hr⟩ := new h <;> obtain ⟨he', hr'⟩ | ⟨he', hr'⟩ := new h'
      case inl.inl => exact hr.trans hr'.symm
      case inl.inr => exact absurd he he'
      case inr.inl => exact absurd he' he
      case inr.inr => exact hs hr hr'
    case refine_2 =>
      obtain ⟨he, _⟩ | ⟨_, hr⟩ := new hg
      case inl => exact .inr (he ▸ rfl)
      case inr => exact .inl ⟨r, hr⟩

end Daemon.Tracks

namespace Service

variable {s s' : Service} {d : Daemon} {env : Env} {e : PeerEvent} {fx : List Effect} {a : Action}
variable {c : ReplyTo} {response : ControlResponse}

theorem step_handle [Crypto] (h : s.step (.handle env e) = some s') : ∃ d fx,
    s.daemon.handleEvent env e = .ok (d, fx) ∧ (∀ c ∈ e.channel, c ∉ s.channels) ∧ s' = s.handled e d fx := by
  simp only [step] at h
  split at h
  case h_2 => contradiction
  case h_1 d fx hd =>
    split at h <;> cases h
    case isFalse hc => exact ⟨d, fx, hd, fun c he hm => hc ⟨c, he, hm⟩, rfl⟩

-- The event loop handles an event, or another thread takes a turn and leaves the requests alone.
theorem step_cases [Crypto] (h : s.step a = some s') :
    (∃ env e d fx, a = .handle env e ∧ s.daemon.handleEvent env e = .ok (d, fx) ∧ (∀ c ∈ e.channel, c ∉ s.channels) ∧
      s' = s.handled e d fx) ∨
    ∃ m, s.monitor.step a = some m ∧ m.daemon.reqTracker = s.daemon.reqTracker ∧
      m.daemon.transferMgr = s.daemon.transferMgr ∧ m.daemon.aliases = s.daemon.aliases ∧ s' = { s with monitor := m } := by
  cases a
  case handle env e =>
    have ⟨d, fx, hd, hc, hs⟩ := step_handle h
    exact .inl ⟨env, e, d, fx, rfl, hd, hc, hs⟩
  case writer id faults =>
    have ⟨m, hm, h⟩ := Option.map_eq_some_iff.mp h
    have ⟨_, _, _, _, _, hs⟩ := Monitor.step_writer hm
    subst hs
    exact .inr ⟨_, hm, rfl, rfl, rfl, h.symm⟩
  case detached i faults =>
    have ⟨m, hm, h⟩ := Option.map_eq_some_iff.mp h
    have ⟨_, _, _, _, _, hs⟩ := Monitor.step_detached hm
    subst hs
    exact .inr ⟨_, hm, rfl, rfl, rfl, h.symm⟩

-- The record changes nothing about the daemon's steps.
theorem step_monitor [Crypto] (h : s.step a = some s') : s.monitor.step a = some s'.monitor := by
  obtain ⟨env, e, d, fx, rfl, hd, _, rfl⟩ | ⟨m, hm, _, _, _, rfl⟩ := step_cases h
  case inl => simp only [Monitor.step]; rw [hd]; rfl
  case inr => exact hm

theorem monitor_reachable [Crypto] (r : Reachable system s) : Reachable Monitor.system s.monitor := by
  induction r
  case init h      => exact .init h.left
  case step h hi   => exact .step hi <| step_monitor h

-- What a client is sent when an event is handled.
theorem mem_answers : response ∈ ((s.handled e d fx).sent c).drop (s.sent c).length ↔ .respond c response ∈ fx := by
  show response ∈ (s.sent c ++ fx.filterMap (·.responseTo c)).drop _ ↔ _
  rw [List.drop_left, List.mem_filterMap]
  constructor
  case mp =>
    intro ⟨f, hf, hr⟩
    cases f <;> try contradiction
    case respond c' response' =>
      simp only [Effect.responseTo, Option.ite_none_right_eq_some] at hr
      obtain ⟨rfl, hr⟩ := hr
      exact Option.some.inj hr ▸ hf
  case mpr => exact fun h => ⟨_, h, if_pos rfl⟩

-- Who waits has one request and has not been answered.
structure Linear (s : Service) : Prop where
  waiting : ∀ {r c}, s.daemon.reqTracker.get r = some c → c ∈ s.channels ∧ ∀ response ∈ s.sent c, ¬response.Terminal
  single  : ∀ {r r' c}, s.daemon.reqTracker.get r = some c → s.daemon.reqTracker.get r' = some c → r = r'
  unknown : ∀ {c}, c ∉ s.channels → s.sent c = []
  closed  : ∀ c, ControlResponse.Closed (s.sent c)

namespace Linear

theorem init (h : Initial s) : Linear s := by
  obtain ⟨⟨_, _, _, hm⟩, hc, hs, _⟩ := h
  have hp (r : UInt32) : s.daemon.reqTracker.get r = none := by rw [daemon, hm]; exact Table.lookup_empty
  constructor
  case waiting => intro r c h; rw [hp] at h; contradiction
  case single  => intro r r' c h; rw [hp] at h; contradiction
  case unknown => exact fun _ => hs _
  case closed  => exact fun c => hs c ▸ .of_not_terminal nofun

-- Nobody waits yet on a channel that a request comes with.
theorem not_waiting {c : ReplyTo} (l : Linear s) (hc : ∀ c ∈ e.channel, c ∉ s.channels) (he : c ∈ e.channel) (r : UInt32) :
    s.daemon.reqTracker.get r ≠ some c :=
  fun hp => hc c he (l.waiting hp).left

-- Steps of other threads do not touch the requests.
theorem keep (l : Linear s) (m : Monitor) (h : m.daemon.reqTracker = s.daemon.reqTracker) :
    Linear { s with monitor := m } where
  waiting hp   := l.waiting (h ▸ hp)
  single hp hq := l.single (h ▸ hp) (h ▸ hq)
  unknown      := l.unknown
  closed       := l.closed

theorem handled (l : Linear s) (h : s.daemon.Tracks env d fx e) (hc : ∀ c ∈ e.channel, c ∉ s.channels) :
    Linear (s.handled e d fx) := by
  have fresh {c} (he : c ∈ e.channel) (r : UInt32) := l.not_waiting hc he r
  have hr (c : ReplyTo) := h.responses (c := c) l.single fresh
  constructor
  case waiting =>
    intro r c hp
    have ho := h.pending hp
    have hs : c ∈ s.channels ∨ c ∈ e.channel := ho.imp (fun h => (l.waiting h).left) And.left
    refine ⟨List.mem_append.mpr <| hs.imp_right Option.mem_toList.mpr, fun response hm => ?_⟩
    obtain hm | hm := List.mem_append.mp hm
    case inl =>
      obtain h | ⟨he, _⟩ := ho
      case inl => exact (l.waiting h).right response hm
      case inr => rw [l.unknown (hc c he)] at hm; contradiction
    case inr =>
      obtain hn | ⟨response', hn, ⟨_, _, hn'⟩ | ⟨ht, _⟩⟩ := hr c <;> rw [hn] at hm
      case inl     => contradiction
      case inr.inl => exact absurd hp <| hn' r
      case inr.inr => exact List.mem_singleton.mp hm ▸ ht
  case single =>
    intro r r' c hp hp'
    obtain h₁ | ⟨he, hi⟩ := h.pending hp <;> obtain h₂ | ⟨he', hi'⟩ := h.pending hp'
    case inl.inl => exact l.single h₁ h₂
    case inl.inr => exact absurd h₁ <| fresh he' r
    case inr.inl => exact absurd h₂ <| fresh he r'
    case inr.inr => exact hi.trans hi'.symm
  case unknown =>
    intro c hn
    have ⟨hn, he⟩ := not_or.mp <| mt List.mem_append.mpr hn
    have he : c ∉ e.channel := fun h => he <| Option.mem_toList.mpr h
    obtain hn' | ⟨_, _, ⟨_, ⟨r, hp⟩ | he', _⟩ | ⟨_, r, hp⟩⟩ := hr c
    case inl => exact List.append_eq_nil_iff.mpr ⟨l.unknown hn, hn'⟩
    case inr.inl.inl | inr.inr => exact absurd (l.waiting hp).left hn
    case inr.inl.inr => exact absurd he' he
  case closed =>
    intro c
    show ControlResponse.Closed (s.sent c ++ _)
    obtain hn | ⟨response, hn, ⟨_, ⟨r, hp⟩ | he, _⟩ | ⟨ht, r, hp⟩⟩ := hr c <;> rw [hn]
    case inl => exact List.append_nil _ ▸ l.closed c
    case inr.inl.inl | inr.inr => exact .append (l.waiting hp).right
    case inr.inl.inr => exact .append fun _ hm => by rw [l.unknown (hc c he)] at hm; contradiction

variable [Crypto]

theorem step (l : Linear s) (h : s.step a = some s') : Linear s' := by
  obtain ⟨env, e, d, fx, _, hd, hc, rfl⟩ | ⟨m, _, hq, _, _, rfl⟩ := step_cases h
  case inl => exact l.handled (Daemon.handleEvent_tracks hd) hc
  case inr => exact l.keep m hq

theorem reachable (r : Reachable system s) : Linear s :=
  Invariant.reachable ⟨init, step⟩ r

end Linear

-- However peers name requests, a channel gets one answer at most and nothing after it.
theorem closed_reachable [Crypto] (r : Reachable system s) (c : ReplyTo) : ControlResponse.Closed (s.sent c) :=
  (Linear.reachable r).closed c

def fresh : Service :=
  ⟨.fresh, [], fun _ => [], fun _ => none⟩

theorem fresh_initial : Initial fresh :=
  ⟨Monitor.fresh_initial, rfl, fun _ => rfl, fun _ => rfl⟩

-- A scan that comes to its end twice.
def scanning : List Action := [
  .handle (.fine 0) <| .controlRequest .scan 0,
  .handle (.fine 0) <| .scanTimeout 1,
  .handle (.fine 0) <| .scanTimeout 1
]

def scanned : Service :=
  (scanning.foldlM (@step .transparent) fresh).getD fresh

theorem closed_reachable_scanned : ControlResponse.Closed (scanned.sent 0) := by
  have r : Run (@system .transparent) fresh scanning scanned := .ofFn (rfl : scanning.foldlM (@step .transparent) fresh = _)
  exact @closed_reachable scanned .transparent (r.reachable <| .init fresh_initial) 0

end Service
end Parsip
