import Parsip.Connection.Theorems.Manager
import Parsip.Daemon.Connecting
import Parsip.Daemon.Theorems.Dials

-- When clients are told that connecting to a peer has failed.

namespace Parsip

open Transition

theorem Service.map_dialled [Crypto] {s : Service} {env : Env} {e : PeerEvent} :
    ((s.dialled env e).map Attempt.start).map Attempt.dial = s.dialled env e := by
  rw [List.map_map]
  refine (List.map_congr_left fun dial hd => ?_).trans <| List.map_id _
  simp [Attempt.start, Attempt.dial, Phase.result, ← dialled_result hd]

theorem ConnectionTables.holds_iff {ς : Type} {t : ConnectionTables ς} {p : PeerId} : t.holds p = true ↔
    ∃ c e, t.entries.lookup c = some e ∧ e.connection.remotePeerId = p ∧ e.state = .established := by
  rw [holds, List.any_eq_true]
  constructor
  case mp =>
    intro ⟨e, he, h⟩
    obtain ⟨c, hc⟩ := Table.mem_values.mp he
    exact ⟨c, e, hc, of_decide_eq_true h⟩
  case mpr => exact fun ⟨c, e, hc, h⟩ => ⟨e, Table.mem_values.mpr ⟨c, hc⟩, decide_eq_true h⟩

namespace Phase

-- Nothing fails for the peer, and a new connection to it is kept.
def Turn.Spares (me p : PeerId) : Turn → Prop
  | .prepare (.error _) | .panic => False
  | .register                    => ConnectionTables.keepNew me p .outgoing
  | _                            => True

-- What a turn of a thread does.
inductive Turns (me : PeerId) (m : ConnectionManager Unit) : Phase → Turn → Phase → ConnectionManager Unit → Prop
  | fail {e message} : Turns me m .dialling (.handshake (.error e)) (.failed message) m
  | self {message} : Turns me m .dialling (.handshake (.ok me)) (.rejected me message (m.tables.holds me)) m
  | authenticate {p} (other : p ≠ me) : Turns me m .dialling (.handshake (.ok p)) (.authenticated p) m
  | abort {p e message} :
    Turns me m (.authenticated p) (.prepare (.error e)) (.rejected p message (m.tables.holds p)) m
  | prepare {p} : Turns me m (.authenticated p) (.prepare (.ok ())) (.prepared p) m
  | register {p n m'} (insert : m.insertConnection ⟨p, .outgoing, ()⟩ me = (.ok n, m')) :
    Turns me m (.prepared p) .register (.registered p) m'
  | refuse {p e m' message} (insert : m.insertConnection ⟨p, .outgoing, ()⟩ me = (.error e, m')) :
    Turns me m (.prepared p) .register (.rejected p message (m.tables.holds p)) m'
  | announce {p} : Turns me m (.registered p) .announce (.connected p) m
  | vanish {message} : Turns me m .dialling .panic (.failed message) m
  | panic {f p message} (running : f.result = none) (peer : f.peer = some p) :
    Turns me m f .panic (.rejected p message (m.tables.holds p)) m

variable {me p : PeerId} {m m' : ConnectionManager Unit} {f f' : Phase} {t : Turn}

theorem turns (h : f.turn me m t = some (f', m')) : Turns me m f t f' m' := by
  unfold turn at h
  split at h
  case h_1 => cases h; exact .fail
  case h_2 =>
    split at h <;> cases h
    case isTrue hp  => exact hp ▸ .self
    case isFalse hp => exact .authenticate hp
  case h_3 => cases h; exact .abort
  case h_4 => cases h; exact .prepare
  case h_5 =>
    split at h <;> cases h
    case h_1 hi => exact .register hi
    case h_2 hi => exact .refuse hi
  case h_6 => cases h; exact .announce
  case h_7 => cases h; exact .vanish
  case h_8 | h_9 | h_10 => cases h; exact .panic rfl rfl
  case h_11 => contradiction

-- An attempt on a peer fails only by being rejected.
theorem rejected_of_result {message : String} (h : f.result = some (.error message)) (hp : f.peer = some p) :
    ∃ held, f = .rejected p message held := by
  cases f <;> cases h
  case failed   => contradiction
  case rejected => cases hp; exact ⟨_, rfl⟩

namespace Turns

-- A thread that has said what it has to say takes no further turn.
theorem running (h : Turns me m f t f' m') : f.result = none := by
  cases h <;> first | rfl | assumption

theorem manager (h : Turns me m f t f' m') :
    m' = m ∨ ∃ p, f = .prepared p ∧ m' = (m.insertConnection ⟨p, .outgoing, ()⟩ me).snd := by
  cases h <;> try exact .inl rfl
  case register hi | refuse hi => exact .inr ⟨_, rfl, (congrArg Prod.snd hi).symm⟩

-- The handshake has not been with the daemon itself.
theorem foreign (h : Turns me m f t f' m') (hf : f = .authenticated p ∨ f = .prepared p → p ≠ me)
    (hf' : f' = .authenticated p ∨ f' = .prepared p) : p ≠ me := by
  cases h <;> obtain he | he := hf' <;> cases he
  case authenticate.inl.refl ho => exact ho
  case prepare.inr.refl         => exact hf (.inl rfl)

-- Who is rejected after the handshake is the daemon itself, or something has failed or another connection is kept.
theorem rejected {message : String} {held : Bool} (k : m.Consistent) (h : Turns me m f t (.rejected p message held) m') :
    held = m.tables.holds p ∧ (p = me ∨ f.peer = some p ∧ ¬t.Spares me p) := by
  cases h
  case self             => exact ⟨rfl, .inl rfl⟩
  case abort            => exact ⟨rfl, .inr ⟨rfl, id⟩⟩
  case panic _ hp       => exact ⟨rfl, .inr ⟨hp, id⟩⟩
  case refuse hi =>
    obtain ⟨_, ⟨_, _, _, hk⟩ | ⟨he, _⟩⟩ := k.insertConnection_cases hi
    case inl => exact ⟨rfl, .inr ⟨rfl, fun h => Bool.false_ne_true <| hk.symm.trans h⟩⟩
    case inr => contradiction

-- Then it is.
theorem of_not_spares (k : m.Consistent) (h : Turns me m f t f' m') (hp : f.peer = some p) (hh : m.tables.holds p = true)
    (hn : ¬t.Spares me p) : ∃ message, f' = .rejected p message true := by
  cases h <;> try contradiction
  case abort      => cases hp; exact ⟨_, congrArg _ hh⟩
  case prepare    => exact absurd trivial hn
  case announce   => exact absurd trivial hn
  case refuse     => cases hp; exact ⟨_, congrArg _ hh⟩
  case panic hp'  => cases hp.symm.trans hp'; exact ⟨_, congrArg _ hh⟩
  case register hi =>
    cases hp
    obtain ⟨c, e, hc, he, _⟩ := ConnectionTables.holds_iff.mp hh
    have hx : m.tables.isConnected p = true := Table.contains_eq_true.mpr ⟨c, he ▸ k.inverse.entered hc⟩
    obtain ⟨_, ⟨⟨_, he⟩, _⟩ | ⟨_, hk, _⟩⟩ := k.insertConnection_cases hi
    case inl => contradiction
    case inr => exact absurd (hk hx) hn

end Turns
end Phase

namespace Connecting

-- What a step does.
inductive Takes [Crypto] (me : PeerId) (s : Connecting) : Label → Connecting → Prop
  | handle {env e service} (other : ∀ r result, e ≠ .connectResult r result)
    (step : s.service.step (.handle env e) = some service) :
    Takes me s (.act (.handle env e))
      { s with service, attempts := s.attempts ++ (s.service.dialled env e).map .start }
  | thread {a service} (other : ∀ env e, a ≠ .handle env e) (step : s.service.step a = some service) :
    Takes me s (.act a) { s with service }
  | turn {i a t phase manager} (attempt : s.attempts[i]? = some a)
    (turns : a.phase.Turns me s.manager t phase manager) :
    Takes me s (.turn i t) { s with manager, attempts := s.attempts.set i { a with phase } }
  | accept {p} (other : p ≠ me) :
    Takes me s (.accept p) { s with manager := (s.manager.insertConnection ⟨p, .incoming, ()⟩ me).snd }
  | remove {c} : Takes me s (.remove c) { s with manager := s.manager.remove c }
  | report {env i a result service} (attempt : s.attempts[i]? = some a) (done : a.phase.result = some result)
    (step : s.service.step (.handle env (.connectResult a.reqId result)) = some service) :
    Takes me s (.report env i) { s with service, attempts := s.attempts.eraseIdx i }

variable {me p : PeerId} {s s' : Connecting} {l : Label} {a : Attempt}

theorem takes [Crypto] (h : s.step me l = some s') : s.Takes me l s' := by
  cases l
  case act a =>
    cases a
    case writer | detached =>
      have ⟨service, hs, h⟩ := Option.map_eq_some_iff.mp h
      exact h ▸ .thread (fun _ _ he => Action.noConfusion he) hs
    case handle env e =>
      cases e
      case connectResult => contradiction
      all_goals
        simp only [step] at h
        have ⟨service, hs, h⟩ := Option.map_eq_some_iff.mp h
        exact h ▸ .handle (fun _ _ he => PeerEvent.noConfusion he) hs
  case turn i t =>
    simp only [step] at h
    split at h
    case h_2 => contradiction
    case h_1 a ha =>
      obtain ⟨⟨phase, manager⟩, ht, h⟩ := Option.map_eq_some_iff.mp h
      exact h ▸ .turn ha (Phase.turns ht)
  case accept =>
    simp only [step] at h
    split at h <;> cases h
    case isFalse hp => exact .accept hp
  case remove => cases h; exact .remove
  case report =>
    simp only [step] at h
    split at h
    case h_2 => contradiction
    case h_1 a ha =>
      split at h
      case h_2 => contradiction
      case h_1 result hr =>
        obtain ⟨service, hs, h⟩ := Option.map_eq_some_iff.mp h
        exact h ▸ .report ha hr hs

def Fresh (s : Connecting) : Label → Prop
  | .act (.handle env e) => s.dialling.Fresh (.act (.handle env e))
  | _                    => True

theorem dialling_getElem? {i : Nat} (h : s.attempts[i]? = some a) : s.dialling.dials[i]? = some a.dial := by
  show (s.attempts.map _)[i]? = _
  rw [List.getElem?_map, h]
  rfl

-- A step is one of the daemon and the dials of its clients, or it is none of theirs.
theorem Takes.dialling [Crypto] (t : s.Takes me l s') :
    s'.dialling = s.dialling ∨ ∃ l', s.dialling.step l' = some s'.dialling ∧ (s.Fresh l → s.dialling.Fresh l') := by
  cases t
  case accept | remove => exact .inl rfl
  case handle env e service ho hs =>
    refine .inr ⟨.act (.handle env e), ?_, id⟩
    have hs : s.dialling.service.step (.handle env e) = some service := hs
    rw [Dialling.step_act ho, hs]
    simp only [Option.map_some, Connecting.dialling, List.map_append, Service.map_dialled]
  case thread a service ho hs =>
    refine .inr ⟨.act a, ?_, ?_⟩ <;> cases a <;> first | exact absurd rfl (ho _ _) | skip
    case refine_1.writer | refine_1.detached =>
      simp only [Dialling.step, Connecting.dialling, hs]
      rfl
    case refine_2.writer | refine_2.detached => exact fun _ => trivial
  case turn i a t phase manager ha ht =>
    cases hr : phase.result
    case none =>
      left
      have hd : ({ a with phase } : Attempt).dial = a.dial := by simp only [Attempt.dial, hr, ht.running]
      simp only [Connecting.dialling, map_set_of_eq ha hd]
    case some result =>
      refine .inr ⟨.settle i result, ?_, fun _ => trivial⟩
      rw [Dialling.step_settle (dialling_getElem? ha) ht.running]
      simp only [Connecting.dialling, List.map_set, Attempt.dial, hr]
  case report env i a result service ha hr hs =>
    have hs : s.dialling.service.step (.handle env (.connectResult a.dial.reqId result)) = some service := hs
    refine .inr ⟨.report env i, ?_, fun _ => trivial⟩
    rw [Dialling.step_report (dialling_getElem? ha) hr, hs]
    simp only [Option.map_some, Connecting.dialling, List.eraseIdx_map]

theorem dialling_reachable [Crypto] (r : Reachable (system me) s) : Reachable Dialling.system s.dialling := by
  induction r
  case init h => exact .init ⟨h.left, congrArg (List.map _) h.right.right⟩
  case step h hi =>
    obtain he | ⟨l', hl, _⟩ := (takes h).dialling
    case inl => exact he ▸ hi
    case inr => exact .step hi hl

theorem linear_reachable [Crypto] (r : Reachable (system me) s) : s.service.Linear :=
  .reachable <| Dialling.service_reachable <| dialling_reachable r

-- Nothing fails for a peer that is connected.
def Considerate (me : PeerId) (s : Connecting) : Label → Prop
  | .turn i t => ∀ a p, s.attempts[i]? = some a → a.phase.peer = some p → s.manager.tables.holds p = true → t.Spares me p
  | _         => True

def Careful (me : PeerId) (s : Connecting) (l : Label) : Prop :=
  s.Fresh l ∧ s.Considerate me l

-- A client whose attempt has completed its handshake is told of an error only when the attempt has been
-- rejected, and there was no connection to the peer then.
def Truthful (s s' : Connecting) : Prop :=
  ∀ a ∈ s.attempts, ∀ p m, a.phase.peer = some p →
    .error m ∈ (s'.service.sent a.sender).drop (s.service.sent a.sender).length → ∃ m', a.phase = .rejected p m' false

-- No daemon is connected to itself.
structure Sane (me : PeerId) (s : Connecting) : Prop where
  consistent : s.manager.Consistent
  other      : ∀ {c e}, s.manager.tables.entries.lookup c = some e → e.connection.remotePeerId ≠ me
  foreign    : ∀ {a p}, a ∈ s.attempts → a.phase = .authenticated p ∨ a.phase = .prepared p → p ≠ me

-- No attempt has been rejected while there was a connection to the peer.
def Fair (s : Connecting) : Prop :=
  ∀ a ∈ s.attempts, ∀ p m held, a.phase = .rejected p m held → held = false

namespace Sane

theorem init (h : Initial s) : Sane me s := by
  obtain ⟨_, hm, ha⟩ := h
  constructor
  case consistent => exact hm ▸ .new
  case other      => intro c e h; rw [hm] at h; contradiction
  case foreign    => intro a p h; rw [ha] at h; contradiction

theorem holds (y : Sane me s) : s.manager.tables.holds me = false := by
  refine Bool.eq_false_iff.mpr fun h => ?_
  obtain ⟨c, e, he, hp, _⟩ := ConnectionTables.holds_iff.mp h
  exact y.other he hp

-- Connections to others are entered.
theorem entered {c : ConnId} {e : ConnectionEntry Unit} {direction : Direction} (y : Sane me s) (hp : p ≠ me)
    (h : (s.manager.insertConnection ⟨p, direction, ()⟩ me).snd.tables.entries.lookup c = some e) :
    e.connection.remotePeerId ≠ me := by
  cases hi : s.manager.tables.insertConnection s.manager.nextConnId ⟨p, direction, ()⟩ me
  case mk r t =>
    simp only [ConnectionManager.insertConnection, hi] at h
    obtain he | he := ConnectionTables.connection_insertConnection hi h
    case inl => exact he ▸ hp
    case inr => exact y.other he

theorem step [Crypto] (y : Sane me s) (h : s.step me l = some s') : Sane me s' := by
  cases takes h
  case thread => exact ⟨y.consistent, y.other, y.foreign⟩
  case report => exact ⟨y.consistent, y.other, fun hm => y.foreign <| List.mem_of_mem_eraseIdx hm⟩
  case remove =>
    refine ⟨y.consistent.remove, fun h => ?_, y.foreign⟩
    rw [ConnectionManager.remove, ConnectionTables.lookup_remove, Option.ite_none_left_eq_some] at h
    exact y.other h.right
  case accept hp => exact ⟨y.consistent.insertConnection rfl, y.entered hp, y.foreign⟩
  case handle =>
    refine ⟨y.consistent, y.other, fun {a p} hm hf => ?_⟩
    obtain hm | hm := List.mem_append.mp hm
    case inl => exact y.foreign hm hf
    case inr =>
      obtain ⟨_, _, rfl⟩ := List.mem_map.mp hm
      obtain hf | hf := hf <;> contradiction
  case turn i a t phase manager ha ht =>
    have hm : a ∈ s.attempts := List.mem_of_getElem? ha
    constructor
    case consistent =>
      obtain rfl | ⟨p, _, rfl⟩ := ht.manager
      case inl => exact y.consistent
      case inr => exact y.consistent.insertConnection rfl
    case other =>
      intro c e he
      obtain rfl | ⟨p, hp, rfl⟩ := ht.manager
      case inl => exact y.other he
      case inr => exact y.entered (y.foreign hm <| .inr hp) he
    case foreign =>
      intro a' p ha' hf
      obtain ha' | rfl := List.mem_or_eq_of_mem_set ha'
      case inl => exact y.foreign ha' hf
      case inr => exact ht.foreign (y.foreign hm) hf

theorem reachable [Crypto] (r : Reachable (system me) s) : Sane me s :=
  Invariant.reachable ⟨init, step⟩ r

end Sane

namespace Fair

theorem init (h : Initial s) : Fair s := by
  intro a hm
  rw [h.right.right] at hm
  contradiction

theorem step [Crypto] (k : Fair s) (y : Sane me s) (h : s.step me l = some s') (hc : s.Considerate me l) : Fair s' := by
  cases takes h
  case thread | accept | remove => exact k
  case report => exact fun a hm => k a <| List.mem_of_mem_eraseIdx hm
  case handle =>
    intro a hm p m held hr
    obtain hm | hm := List.mem_append.mp hm
    case inl => exact k a hm p m held hr
    case inr =>
      obtain ⟨_, _, rfl⟩ := List.mem_map.mp hm
      contradiction
  case turn i a t phase manager ha ht =>
    intro a' hm p m held hr
    obtain hm | rfl := List.mem_or_eq_of_mem_set hm
    case inl => exact k a' hm p m held hr
    case inr =>
      cases hr
      obtain ⟨rfl, rfl | ⟨hp, hn⟩⟩ := ht.rejected y.consistent
      case inl => exact y.holds
      case inr => exact Bool.eq_false_iff.mpr fun hh => hn <| hc a p ha hp hh

theorem reachable [Crypto] (r : Reachable ((system me).restrict (Careful me)) s) : Fair s :=
  Invariant.relative (fun r => Sane.reachable r.of_restrict) init (fun y k h => k.step y h.left h.right.right) r

end Fair

theorem distinct_reachable [Crypto] (r : Reachable ((system me).restrict (Careful me)) s) : s.dialling.Distinct := by
  refine Invariant.relative (P := fun s => s.dialling.Distinct) (Q := fun s => s.service.Linear) ?_ ?_ ?_ r
  case refine_1 => exact fun r => linear_reachable r.of_restrict
  case refine_2 => exact fun h => .init ⟨h.left, congrArg (List.map _) h.right.right⟩
  case refine_3 =>
    intro s l s' li k h
    obtain he | ⟨l', hl, hf⟩ := (takes h.left).dialling
    case inl => exact he ▸ k
    case inr => exact k.step li hl (hf h.right.left)

section

variable [Crypto]

theorem Fair.step_truthful (k : Fair s) (x : s.dialling.Distinct) (li : s.service.Linear) (h : s.step me l = some s')
    (hf : s.Fresh l) : s.Truthful s' := by
  intro a ha p m hp hm
  have hd : a.dial ∈ s.dialling.dials := List.mem_map_of_mem ha
  cases takes h
  case turn | accept | remove => rw [List.drop_length] at hm; contradiction
  case thread ho hs =>
    obtain ⟨_, _, _, _, rfl, _⟩ | ⟨_, _, _, _, _, rfl⟩ := Service.step_cases hs
    case inl => exact absurd rfl (ho _ _)
    case inr => rw [List.drop_length] at hm; contradiction
  case handle env e service ho hs =>
    obtain ⟨d, fx, he, hc, rfl⟩ := Service.step_handle hs
    exact absurd (Service.mem_answers.mp hm) <| x.unanswered li he hc hf ho hd
  case report env i b result service hb hr hs =>
    obtain ⟨d, fx, he, hc, rfl⟩ := Service.step_handle hs
    obtain ⟨c, hg, hc⟩ := Daemon.finish_fx (Except.ok.inj he) _ <| Service.mem_answers.mp hm
    cases result <;> cases hc
    have hi : b = a := by
      have hn : (s.attempts.map (·.reqId)).Nodup := List.map_map (f := Attempt.dial) (g := Dial.reqId) ▸ x.ids
      exact List.inj_on_of_nodup_map hn (List.mem_of_getElem? hb) ha (x.own hd hg)
    obtain ⟨held, hr⟩ := Phase.rejected_of_result (hi ▸ hr) hp
    exact ⟨_, k a ha p _ held hr ▸ hr⟩

-- Otherwise an attempt is rejected while there is a connection to the peer.
theorem Sane.rejects (y : Sane me s) (h : s.step me l = some s') (hc : ¬s.Considerate me l) :
    ∃ (i : Nat) (a : Attempt) (p : PeerId) (m : String), s'.attempts[i]? = some a ∧ a.phase = .rejected p m true := by
  cases takes h
  case handle | thread | accept | remove | report => exact absurd trivial hc
  case turn i a t phase manager ha ht =>
    simp only [Considerate, not_forall] at hc
    obtain ⟨a', p, ha', hp, hh, hn⟩ := hc
    cases ha.symm.trans ha'
    obtain ⟨m, hr⟩ := ht.of_not_spares y.consistent hp hh hn
    refine ⟨i, { a with phase }, p, m, ?_, hr⟩
    exact List.getElem?_set_self (List.getElem?_eq_some_iff.mp ha).fst

-- And its client, if it still waits, is told that it has failed.
theorem not_truthful {i : Nat} {m : String} (ha : s.attempts[i]? = some a) (hr : a.phase = .rejected p m true)
    (hg : s.daemon.reqTracker.get a.reqId = some a.sender) (env : Env) :
    ∃ s', s.step me (.report env i) = some s' ∧ ¬s.Truthful s' := by
  have hf : .respond a.sender (.error m) ∈ (s.daemon.finish a.reqId (.error m)).snd :=
    List.mem_map.mpr ⟨a.sender, Option.mem_toList.mpr hg, rfl⟩
  have hs : s.step me (.report env i) = some { s with
      service  := s.service.handled (.connectResult a.reqId (.error m)) (s.daemon.finish a.reqId (.error m)).fst
        (s.daemon.finish a.reqId (.error m)).snd
      attempts := s.attempts.eraseIdx i } := by
    simp only [step, ha, hr, Phase.result, Service.step_notConnected, Option.map_some]
  refine ⟨_, hs, fun k => ?_⟩
  obtain ⟨m', h⟩ := k a (List.mem_of_getElem? ha) p m (hr ▸ rfl) (Service.mem_answers.mpr hf)
  cases hr.symm.trans h

-- As long as threads do not fail for a peer that is connected, and new connections to it are kept, clients are told
-- the truth about it. As soon as it is otherwise, the next result that is handled is wrong.
theorem truthful (r : Reachable ((system me).restrict (Careful me)) s) :
    (∀ {l s'}, ((system me).restrict (Careful me)).step s l s' → s.Truthful s') ∧
      ∀ {l s'}, (system me).step s l s' → ¬s.Considerate me l → ∃ i a, s'.attempts[i]? = some a ∧
        (s'.daemon.reqTracker.get a.reqId = some a.sender →
          ∀ env, ∃ s'', (system me).step s' (.report env i) s'' ∧ ¬s'.Truthful s'') := by
  constructor
  case left =>
    intro l s' h
    have li := linear_reachable r.of_restrict
    exact (Fair.reachable r).step_truthful (distinct_reachable r) li h.left h.right.left
  case right =>
    intro l s' h hc
    obtain ⟨i, a, p, m, ha, hr⟩ := (Sane.reachable r.of_restrict).rejects h hc
    exact ⟨i, a, ha, fun hg env => not_truthful ha hr hg env⟩

end

def fresh : Connecting :=
  ⟨.fresh, .new, []⟩

theorem fresh_initial : Initial fresh :=
  ⟨Service.fresh_initial, rfl, rfl⟩

-- Has a smaller id than the host.
def phone : PeerId :=
  ⟨.replicate 32 0⟩

-- Has a greater id than the host.
def laptop : PeerId :=
  ⟨.replicate 32 9⟩

-- The host connects, and then it is connected to.
def crossing : List Label := [
  .act <| .handle (.fine 0) <| .discovered Monitor.host ⟨⟨[192, 168, 0, 5], rfl⟩, 9000⟩ "host",
  .accept Monitor.host,
  .act <| .handle (.fine 0) <| .controlRequest (.connect "p1") 0,
  .turn 0 <| .handshake <| .ok Monitor.host,
  .turn 0 <| .prepare <| .ok (),
  .turn 0 .register
]

def crossed (me : PeerId) : Connecting :=
  (crossing.foldlM (@step .transparent me) fresh).getD fresh

theorem crossed_reachable : Reachable ((@system .transparent laptop).restrict (Careful laptop)) (crossed laptop) := by
  have r : Run ((@system .transparent laptop).restrict (Careful laptop)) fresh crossing (crossed laptop) := by
    refine .step ⟨rfl, ?_, trivial⟩ <| .step ⟨rfl, trivial, trivial⟩ <| .step ⟨rfl, ?_, trivial⟩ <|
      .step ⟨rfl, trivial, ?_⟩ <| .step ⟨rfl, trivial, ?_⟩ <| .step ⟨rfl, trivial, ?_⟩ .refl
    case refine_1 =>
      rintro r ⟨_, _, he, _⟩
      contradiction
    case refine_2 =>
      intro r _
      refine ⟨fun dial hm => ?_, rfl⟩
      contradiction
    case refine_3 =>
      intro a p ha hp
      cases ha
      cases hp
    case refine_4 => exact fun _ _ _ _ _ => trivial
    case refine_5 =>
      intro a p ha hp _
      cases ha
      cases hp
      show ConnectionTables.keepNew laptop Monitor.host .outgoing = true
      decide
  exact r.reachable <| .init fresh_initial

theorem truthful_crossed :
    (∀ {l s'}, ((@system .transparent laptop).restrict (Careful laptop)).step (crossed laptop) l s' →
        (crossed laptop).Truthful s') ∧
      ∀ {l s'}, (@system .transparent laptop).step (crossed laptop) l s' → ¬(crossed laptop).Considerate laptop l →
        ∃ i a, s'.attempts[i]? = some a ∧ (s'.daemon.reqTracker.get a.reqId = some a.sender →
          ∀ env, ∃ s'', (@system .transparent laptop).step s' (.report env i) s'' ∧ ¬s'.Truthful s'') :=
  @truthful _ _ .transparent crossed_reachable

def told : Connecting :=
  (@step .transparent phone (crossed phone) (.report (.fine 0) 0)).getD (crossed phone)

theorem told_not_truthful : Reachable (@system .transparent phone) (crossed phone) ∧
    @step .transparent phone (crossed phone) (.report (.fine 0) 0) = some told ∧ ¬(crossed phone).Truthful told := by
  have r : Run (@system .transparent phone) fresh crossing (crossed phone) :=
    .ofFn (rfl : crossing.foldlM (@step .transparent phone) fresh = _)
  refine ⟨r.reachable <| .init fresh_initial, rfl, fun k => ?_⟩
  have ho : .error "Connection failed: Deduplication tie-breaker dropped connection" ∈
    (told.service.sent 0).drop ((crossed phone).service.sent 0).length := by decide +kernel
  have ha : (crossed phone).attempts[0]? = some ⟨1, ⟨⟨[192, 168, 0, 5], rfl⟩, 9000⟩, 0,
    .rejected Monitor.host "Connection failed: Deduplication tie-breaker dropped connection" true⟩ := rfl
  obtain ⟨m', h⟩ := k _ (List.mem_of_getElem? ha) Monitor.host _ rfl ho
  cases h

end Connecting
end Parsip
