import Parsip.Daemon.Theorems.Control.Posting

-- How far a client has been answered.

namespace Parsip.Control

open Transition

variable {s s' t : Control} {l : Label} {i : Nat} {x x' : Client}

-- What the daemon has to say to a line.
def answer (s : Control) : Option (ControlMessage × ReplyTo) → List ControlResponse
  | none        => [.invalidJson]
  | some (_, c) => s.service.sent c

-- Nothing more will be sent on the channel.
def Over (s : Control) (c : ReplyTo) : Prop :=
  c ∈ s.service.channels ∧ ∀ r, s.service.daemon.reqTracker.get r ≠ some c

-- How far a client has been answered: the lines whose answers are over, and what has been written of the answer
-- to the line after them.
inductive At (s : Control) (x : Client) : List (Option (ControlMessage × ReplyTo)) → List ControlResponse → Prop
  | idle (phase : x.phase = .reading ∨ x.phase = .ended) : At s x x.asked []
  | refusing {pre} (phase : x.phase = .refusing) (asked : x.asked = pre ++ [none]) : At s x pre []
  | receiving {pre cmd c} (phase : x.phase = .receiving c) (asked : x.asked = pre ++ [some (cmd, c)])
    (goesOn : ∀ response ∈ (s.service.sent c).take (s.received c), ¬response.Terminal) :
    At s x pre ((s.service.sent c).take (s.received c))
  | writing {pre cmd c response part} (phase : x.phase = .writing c response) (asked : x.asked = pre ++ [some (cmd, c)])
    (taken : (s.service.sent c).take (s.received c) = part ++ [response]) : At s x pre part

structure Served (s : Control) (x : Client) : Prop where
  current : x.Current
  told    : ∃ pre post part, x.asked = pre ++ post ∧ part <+: post.head?.elim [] s.answer ∧
    (∀ cmd c, some (cmd, c) ∈ pre → s.Over c) ∧ x.written = pre.flatMap s.answer ++ part ∧
      (x.hungUp = false → s.At x pre part)

namespace Served

theorem new : s.Served .new where
  current := trivial
  told    := ⟨[], [], [], rfl, List.nil_prefix, nofun, rfl, fun _ => .idle (.inl rfl)⟩

theorem of_at {pre : List (Option (ControlMessage × ReplyTo))} {part : List ControlResponse} (h : s.At x pre part)
    (ho : ∀ cmd c, some (cmd, c) ∈ pre → s.Over c) (hw : x.written = pre.flatMap s.answer ++ part) : s.Served x := by
  cases h
  case idle hp =>
    refine ⟨?_, x.asked, [], [], (List.append_nil _).symm, List.nil_prefix, ho, hw, fun _ => .idle hp⟩
    obtain h | h := hp <;> rw [Client.Current, h] <;> trivial
  case refusing hp ha =>
    exact ⟨by rw [Client.Current, hp]; exact ⟨pre, ha⟩, pre, _, [], ha, List.nil_prefix, ho, hw, fun _ => .refusing hp ha⟩
  case receiving hp hg ha =>
    exact ⟨by rw [Client.Current, hp]; exact ⟨pre, _, ha⟩, pre, _, _, ha, List.take_prefix .., ho, hw,
      fun _ => .receiving hp ha hg⟩
  case writing hp ha ht =>
    have hpre := (List.prefix_append part _).trans <| ht ▸ List.take_prefix ..
    exact ⟨by rw [Client.Current, hp]; exact ⟨pre, _, ha⟩, pre, _, _, ha, hpre, ho, hw, fun _ => .writing hp ha ht⟩

theorem live (v : s.Served x) (hu : x.hungUp = false) : ∃ pre part, s.At x pre part ∧
    (∀ cmd c, some (cmd, c) ∈ pre → s.Over c) ∧ x.written = pre.flatMap s.answer ++ part := by
  obtain ⟨_, pre, _, part, _, _, ho, hw, hl⟩ := v
  exact ⟨pre, part, hl hu, ho, hw⟩

-- Before it reads a line, a client has been told all about the lines before it.
theorem reading (v : s.Served x) (hu : x.hungUp = false) (hp : x.phase = .reading ∨ x.phase = .ended) :
    (∀ cmd c, some (cmd, c) ∈ x.asked → s.Over c) ∧ x.written = x.asked.flatMap s.answer := by
  obtain ⟨_, _, h, ho, hw⟩ := v.live hu
  cases h
  case idle => exact ⟨ho, hw.trans <| List.append_nil _⟩
  all_goals
    have h := ‹x.phase = _›
    obtain hp | hp := hp <;> cases hp.symm.trans h

theorem receiving {c : ReplyTo} (v : s.Served x) (hu : x.hungUp = false) (hp : x.phase = .receiving c) :
    ∃ pre cmd, x.asked = pre ++ [some (cmd, c)] ∧ (∀ cmd c, some (cmd, c) ∈ pre → s.Over c) ∧
      x.written = pre.flatMap s.answer ++ (s.service.sent c).take (s.received c) ∧
        ∀ response ∈ (s.service.sent c).take (s.received c), ¬response.Terminal := by
  obtain ⟨pre, _, h, ho, hw⟩ := v.live hu
  cases h
  case idle h                  => obtain h | h := h <;> cases hp.symm.trans h
  case receiving cmd _ h hg ha => cases hp.symm.trans h; exact ⟨pre, cmd, ha, ho, hw, hg⟩
  case refusing h _ | writing h _ _ => cases hp.symm.trans h

theorem writing {c : ReplyTo} {response : ControlResponse} (v : s.Served x) (hu : x.hungUp = false)
    (hp : x.phase = .writing c response) : ∃ pre cmd part, x.asked = pre ++ [some (cmd, c)] ∧
      (∀ cmd c, some (cmd, c) ∈ pre → s.Over c) ∧ x.written = pre.flatMap s.answer ++ part ∧
        (s.service.sent c).take (s.received c) = part ++ [response] := by
  obtain ⟨pre, part, h, ho, hw⟩ := v.live hu
  cases h
  case idle h               => obtain h | h := h <;> cases hp.symm.trans h
  case writing cmd _ _ h ha ht => cases hp.symm.trans h; exact ⟨pre, cmd, part, ha, ho, hw, ht⟩
  case refusing h _ | receiving h _ _ => cases hp.symm.trans h

-- Steps of others leave a client alone.
theorem frame (v : s.Served x) (hs : t.service.sent = s.service.sent) (ho : ∀ {c}, s.Over c → t.Over c)
    (hr : ∀ cmd c, some (cmd, c) ∈ x.asked → t.received c = s.received c) : t.Served x := by
  have ha : t.answer = s.answer := by
    funext line
    cases line <;> simp [answer, hs]
  obtain ⟨hc, pre, post, part, he, hp, hn, hw, hl⟩ := v
  refine ⟨hc, pre, post, part, he, ha ▸ hp, fun cmd c hm => ho <| hn cmd c hm, ha ▸ hw, fun hu => ?_⟩
  cases hl hu
  case idle h          => exact .idle h
  case refusing h h'   => exact .refusing h h'
  case receiving h hg h' =>
    rw [← hs, ← hr _ _ (h' ▸ List.mem_append_right _ (List.mem_singleton.mpr rfl))] at hg ⊢
    exact .receiving h h' hg
  case writing h h' ht =>
    rw [← hs, ← hr _ _ (h' ▸ List.mem_append_right _ (List.mem_singleton.mpr rfl))] at ht
    exact .writing h h' ht

-- A client that has hung up is not told any more.
theorem silent (v : s.Served x) (hs : t.service = s.service) (hu : x'.hungUp = true) (ha : x.asked <+: x'.asked)
    (hw : x'.written = x.written) (hc : x'.Current) : t.Served x' := by
  have he : t.answer = s.answer := by
    funext line
    cases line <;> simp [answer, hs]
  obtain ⟨_, pre, post, part, hp, hpre, hn, hw', _⟩ := v
  obtain ⟨lines, ha⟩ := ha
  refine ⟨hc, pre, post ++ lines, part, by rw [← ha, hp, List.append_assoc], ?_, fun cmd c hm => ?_, by rw [hw, hw', he], by simp [hu]⟩
  case refine_1 =>
    rw [he]
    cases post
    case nil  => rw [List.prefix_nil.mp hpre]; exact List.nil_prefix
    case cons => exact hpre
  case refine_2 => rw [Over, hs]; exact hn cmd c hm

theorem told_all {pre : List (Option (ControlMessage × ReplyTo))} {cmd : ControlMessage} {c : ReplyTo}
    (hp : x.phase = .reading) (ha : x.asked = pre ++ [some (cmd, c)]) (ho : ∀ cmd c, some (cmd, c) ∈ pre → s.Over c)
    (hc : s.Over c) (hw : x.written = pre.flatMap s.answer ++ s.service.sent c) : s.Served x := by
  refine of_at (.idle <| .inl hp) (fun cmd' c' hm => ?_) ?_
  case refine_1 =>
    obtain hm | hm := List.mem_append.mp (ha ▸ hm)
    case inl => exact ho cmd' c' hm
    case inr => cases List.mem_singleton.mp hm; exact hc
  case refine_2 => simp [hw, ha, answer]

-- A response is written, and the thread goes on with the next one unless it was the last one.
theorem write_live {response : ControlResponse} (v : s.Served x) (o : Service.Linear s.service) (hu : x.hungUp = false)
    (hp : x.phase = .writing c response) : s.Served (x.respond c response) := by
  obtain ⟨pre, cmd, part, ha, ho, hw, ht⟩ := v.writing hu hp
  have hw' : (x.respond c response).written = pre.flatMap s.answer ++ (part ++ [response]) := by
    simp [Client.respond, Client.write, hu, hw]
  have ha' : (x.respond c response).asked = pre ++ [some (cmd, c)] := by simp [Client.respond, ha]
  have hs := (List.take_append_drop (s.received c) (s.service.sent c)).symm
  rw [ht, List.append_assoc, List.singleton_append] at hs
  by_cases he : response.isTerminal = true
  case pos =>
    have hd := o.closed c _ _ _ hs (ControlResponse.isTerminal_iff.mp he)
    rw [hd] at hs
    have hc : s.Over c := by
      constructor
      case left  => by_contra hc; simp [o.unknown hc] at hs
      case right =>
        intro r hp
        refine (o.waiting hp).right response ?_ (ControlResponse.isTerminal_iff.mp he)
        exact hs ▸ List.mem_append_right _ (List.mem_singleton.mpr rfl)
    exact told_all (by simp [Client.respond, he]) ha' ho hc (hs ▸ hw')
  case neg =>
    refine of_at (.receiving (by simp [Client.respond, he, hu]) ha' fun response' hm => ?_) ho (ht ▸ hw')
    obtain hm | hm := List.mem_append.mp (ht ▸ hm)
    case inr => exact List.mem_singleton.mp hm ▸ fun h => he <| ControlResponse.isTerminal_iff.mpr h
    case inl =>
      obtain ⟨before, after, rfl⟩ := List.append_of_mem hm
      intro ht'
      rw [List.append_assoc, List.cons_append] at hs
      exact absurd (o.closed c _ _ _ hs ht') (by simp)

-- What the thread does for a client that listens.
theorem turn_live (v : s.Served x) (k : Posted s) (o : Service.Linear s.service) (hx : x ∈ s.clients) (hu : x.hungUp = false)
    (h : s.Turn i x l x' t) : t.Served x' := by
  cases h
  case ask cmd hp =>
    have ⟨ho, hw⟩ := v.reading hu (.inl hp)
    have hn : s.service.sent s.channels = [] := o.unknown fun h => Nat.lt_irrefl _ (k.mem_channels h)
    have hn {n} : (s.service.sent s.channels).take n = [] := by rw [hn, List.take_nil]
    refine of_at (.receiving rfl rfl fun _ hm => absurd (hn ▸ hm) List.not_mem_nil) ho ?_
    show x.written = x.asked.flatMap s.answer ++ (s.service.sent s.channels).take _
    rw [hn, List.append_nil, hw]
  case misread hp =>
    have ⟨ho, hw⟩ := v.reading hu (.inl hp)
    exact of_at (.refusing rfl rfl) ho <| by rw [List.append_nil]; exact hw
  case refuse hp =>
    obtain ⟨pre, part, h, ho, hw⟩ := v.live hu
    cases h
    case refusing ha =>
      refine of_at (.idle <| .inl rfl) (fun cmd c hm => ho cmd c ?_) ?_
      case refine_1 => simpa [ha] using hm
      case refine_2 => simp [Client.write, hu, hw, ha, answer]
    case idle h                          => obtain h | h := h <;> cases hp.symm.trans h
    case receiving h _ _ | writing h _ _ => cases hp.symm.trans h
  case receive c response rest hp hr =>
    obtain ⟨pre, cmd, ha, ho, hw, _⟩ := v.receiving hu hp
    refine of_at (.writing rfl ha ?_) ho hw
    have hr : (s.service.sent c)[s.received c]? = some response := by
      rw [← List.head?_drop]
      exact congrArg List.head? hr
    show (s.service.sent c).take (Function.update s.received c _ c) = _
    rw [Function.update_self, List.take_add_one, hr, Option.toList_some]
  case lose c hp hr hc =>
    obtain ⟨pre, cmd, ha, ho, hw, _⟩ := v.receiving hu hp
    have hm : some (cmd, c) ∈ x.asked := ha ▸ List.mem_append_right _ (List.mem_singleton.mpr rfl)
    refine told_all rfl ha ho ⟨(k.taken hx hm).resolve_right fun h => hc <| .inl h, fun r hp => ?_⟩ ?_
    case refine_1 => exact hc <| .inr <| Table.mem_values.mpr ⟨r, hp⟩
    case refine_2 => rw [hw, List.take_of_length_le <| List.drop_eq_nil_iff.mp hr]
  case write hp => exact v.write_live o hu hp
  case close hp =>
    have ⟨ho, hw⟩ := v.reading hu (.inl hp)
    exact of_at (.idle <| .inr rfl) ho <| by rw [List.append_nil]; exact hw
  case hangUp =>
    obtain ⟨hc, pre, post, part, ha, hp, ho, hw, _⟩ := v
    exact ⟨hc, pre, post, part, ha, hp, ho, hw, fun h => Bool.noConfusion h⟩

-- What the thread does for a client that has hung up.
theorem turn_hungUp (v : s.Served x) (hu : x.hungUp = true) (h : s.Turn i x l x' t) : t.Served x' := by
  have hc := v.current
  cases h
  case ask     => exact v.silent rfl hu (List.prefix_append ..) rfl ⟨_, _, rfl⟩
  case misread => exact v.silent rfl hu (List.prefix_append ..) rfl ⟨_, rfl⟩
  case refuse  => exact v.silent rfl (by simp [hu]) (by simp) (by simp [Client.write, hu]) trivial
  case receive hp _ =>
    rw [Client.Current, hp] at hc
    exact v.silent rfl hu List.prefix_rfl rfl hc
  case write =>
    have hp {c response} : (x.respond c response).phase = .reading := by simp [Client.respond, hu]
    exact v.silent rfl (by simp [Client.respond, hu]) (by simp [Client.respond]) (by simp [Client.respond, Client.write, hu])
      (by rw [Client.Current, hp]; trivial)
  case lose | close => exact v.silent rfl hu List.prefix_rfl rfl trivial
  case hangUp       => exact v.silent rfl rfl List.prefix_rfl rfl hc

theorem turn (v : s.Served x) (k : Posted s) (o : Service.Linear s.service) (hx : x ∈ s.clients) (h : s.Turn i x l x' t) :
    t.Served x' := by
  by_cases hu : x.hungUp = true
  case pos => exact v.turn_hungUp hu h
  case neg => exact v.turn_live k o hx (Bool.not_eq_true _ ▸ hu) h

end Served

variable [Crypto] {e : PeerEvent} {events : List PeerEvent} {env : Env} {d : Daemon} {fx : List Effect} {c : ReplyTo}

theorem step_service (h : s.step l = some s') : s'.service = s.service ∨ ∃ a, s.service.step a = some s'.service := by
  cases step_steps h
  case accept | post     => exact .inl rfl
  case turn ht           => exact .inl ht.posts.left
  case handle hs _ _     => exact .inr ⟨_, hs⟩
  case work hs _ _ _     => exact .inr hs

theorem service_reachable (r : Reachable system s) : Reachable Service.system s.service := by
  obtain ⟨_, r, rfl⟩ : ∃ service, Reachable Service.system service ∧ s.service = service := by
    refine r.simulate (R := fun s service => s.service = service) ?_ ?_
    case refine_1 =>
      rintro s ⟨service, hs, rfl⟩
      exact ⟨service, hs, rfl⟩
    case refine_2 =>
      rintro s l s' _ rfl h
      exact ⟨s'.service, rfl, step_service h⟩
  exact r

-- What is over stays so.
theorem Over.handled (h : s.Over c) (o : Service.Linear s.service) (hd : s.service.daemon.handleEvent env e = .ok (d, fx))
    (hn : ∀ c ∈ e.channel, c ∉ s.service.channels) :
    fx.filterMap (·.responseTo c) = [] ∧ ({ s with service := s.service.handled e d fx, events } : Control).Over c := by
  have ht := Daemon.handleEvent_tracks hd
  have hc : c ∉ e.channel := fun hc => hn c hc h.left
  constructor
  case left =>
    obtain hf | ⟨_, _, ⟨_, ⟨r, hp⟩ | hc', _⟩ | ⟨_, r, hp⟩⟩ := ht.responses (c := c) o.single fun hc => o.not_waiting hn hc
    case inl => exact hf
    case inr.inl.inl | inr.inr => exact absurd hp <| h.right r
    case inr.inl.inr => exact absurd hc' hc
  case right =>
    refine ⟨List.mem_append_left _ h.left, fun r hp => ?_⟩
    obtain hp | ⟨hc', _⟩ := ht.pending hp
    case inl => exact h.right r hp
    case inr => exact hc hc'

theorem Served.handled (v : s.Served x) (o : Service.Linear s.service)
    (hd : s.service.daemon.handleEvent env e = .ok (d, fx)) (hn : ∀ c ∈ e.channel, c ∉ s.service.channels)
    (hr : ∀ c, s.received c ≤ (s.service.sent c).length) :
    ({ s with service := s.service.handled e d fx, events } : Control).Served x := by
  obtain ⟨hc, pre, post, part, ha, hp, ho, hw, hl⟩ := v
  have ht {c} : ((s.service.handled e d fx).sent c).take (s.received c) = (s.service.sent c).take (s.received c) :=
    List.take_append_of_le_length (hr c)
  refine ⟨hc, pre, post, part, ha, ?_, fun cmd c hm => ((ho cmd c hm).handled o hd hn).right, ?_, fun hu => ?_⟩
  case refine_1 =>
    cases post
    case nil => exact hp
    case cons line post =>
      cases line
      case none => exact hp
      case some => exact hp.trans <| List.prefix_append ..
  case refine_2 =>
    rw [hw]
    congr 1
    refine List.flatMap_congr fun line hm => ?_
    cases line
    case none => rfl
    case some q =>
      show s.service.sent q.snd = s.service.sent q.snd ++ _
      rw [(@Over.handled _ _ _ events _ _ _ _ (ho _ _ hm) o hd hn).left, List.append_nil]
  case refine_3 =>
    cases hl hu
    case idle h            => exact .idle h
    case refusing h h'     => exact .refusing h h'
    case receiving h hg h' => exact ht ▸ .receiving h h' (ht ▸ hg)
    case writing h h' ht'  => exact .writing h h' (ht.trans ht')

structure Serves (s : Control) : Prop where
  received : ∀ c, s.received c ≤ (s.service.sent c).length
  served   : ∀ x ∈ s.clients, s.Served x

namespace Serves

omit [Crypto] in
theorem init (h : Initial s) : Serves s := by
  obtain ⟨service, _, rfl⟩ := h
  exact ⟨fun _ => Nat.zero_le _, nofun⟩

omit [Crypto] in
theorem turn (v : Serves s) (k : Posted s) (o : Service.Linear s.service) (hx : s.clients[i]? = some x) (h : s.Turn i x l x' t) :
    Serves (t.setClient i x') := by
  have hm := List.mem_of_getElem? hx
  have ⟨hs, hc, _⟩ := h.posts
  have hr := h.receives (v.served x hm).current
  constructor
  case received =>
    intro c
    show t.received c ≤ (t.service.sent c).length
    rw [hs]
    obtain hr | ⟨hr, hl, _⟩ := hr c
    case inl => exact hr ▸ v.received c
    case inr => exact hr ▸ hl
  case served =>
    intro y hy
    obtain ⟨j, hy⟩ := List.mem_iff_getElem?.mp hy
    rw [setClient, List.getElem?_set] at hy
    split at hy
    case isTrue =>
      split at hy <;> cases hy
      exact ((v.served x hm).turn k o hm h).frame rfl id fun _ _ _ => rfl
    case isFalse hn =>
      rw [hc] at hy
      refine (v.served y <| List.mem_of_getElem? hy).frame (congrArg Service.sent hs) (fun ho => ?_) fun cmd c hm' => ?_
      case refine_1 => rwa [Over, setClient, hs]
      case refine_2 =>
        obtain hr | ⟨_, _, cmd', hm⟩ := hr c
        case inl => exact hr
        case inr => exact absurd (k.distinct hx hy hm hm') hn

theorem step (v : Serves s) (k : Posted s) (o : Service.Linear s.service) (h : s.step l = some s') : Serves s' := by
  cases step_steps h
  case accept =>
    refine ⟨v.received, fun x hx => ?_⟩
    obtain hx | hx := List.mem_append.mp hx
    case inl => exact (v.served x hx).frame rfl id fun _ _ _ => rfl
    case inr =>
      cases List.mem_singleton.mp hx
      exact .new
  case turn hx ht => exact v.turn k o hx ht
  case post       => exact ⟨v.received, fun x hx => (v.served x hx).frame rfl id fun _ _ _ => rfl⟩
  case handle he _ hd hn =>
    refine ⟨fun c => ?_, fun x hx => (v.served x hx).handled o hd hn v.received⟩
    exact (v.received c).trans <| (List.prefix_append ..).length_le
  case work _ hl hq _ =>
    refine ⟨v.received, fun x hx => (v.served x hx).frame rfl (fun h => ⟨h.left, ?_⟩) fun _ _ _ => rfl⟩
    exact hq ▸ h.right

theorem reachable (r : Reachable system s) : Serves s :=
  Invariant.relative (fun r => And.intro (Posted.reachable r) (Service.Linear.reachable <| service_reachable r)) init
    (fun ⟨k, o⟩ v h => v.step k o h) r

end Serves
end Parsip.Control
