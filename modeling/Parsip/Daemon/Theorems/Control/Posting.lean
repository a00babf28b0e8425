import Parsip.Daemon.Control
import Parsip.Daemon.Theorems.Answers
import Mathlib.Data.List.Range

-- What the threads of clients do, and how the requests that they hand to the event loop are numbered.

namespace Parsip

open Transition

@[simp]
theorem ControlResponse.isTerminal_iff {response : ControlResponse} : response.isTerminal = true ↔ response.Terminal := by
  cases response <;> simp [isTerminal, Terminal]

theorem perm_flatMap_set {α β : Type*} {as : List α} {i : Nat} {a a' : α} {f : α → List β} {bs : List β}
    (h : as[i]? = some a) (hf : f a' = f a ++ bs) : ((as.set i a').flatMap f).Perm (as.flatMap f ++ bs) := by
  induction as generalizing i
  case nil => contradiction
  case cons b as hi =>
    cases i
    case zero =>
      cases h
      rw [List.set_cons_zero, List.flatMap_cons, List.flatMap_cons, hf, List.append_assoc, List.append_assoc]
      exact .append_left _ List.perm_append_comm
    case succ i =>
      rw [List.set_cons_succ, List.flatMap_cons, List.flatMap_cons, List.append_assoc]
      exact .append_left _ <| hi h

-- What a client asks for and the channel to answer on.
def PeerEvent.asks : PeerEvent → Option (ControlMessage × ReplyTo)
  | .controlRequest cmd sender => some (cmd, sender)
  | _                          => none

theorem PeerEvent.asks_channel {e : PeerEvent} : e.asks.map Prod.snd = e.channel := by
  cases e <;> rfl

namespace Client

def requests (x : Client) : List (ControlMessage × ReplyTo) :=
  x.asked.filterMap id

-- The line that the thread of a client is at is the last one that it has read.
def Current (x : Client) : Prop :=
  match x.phase with
  | .receiving c | .writing c _ => ∃ pre cmd, x.asked = pre ++ [some (cmd, c)]
  | .refusing                   => ∃ pre, x.asked = pre ++ [none]
  | .reading | .ended           => True

variable {x : Client} {cmd : ControlMessage} {c : ReplyTo} {response : ControlResponse}

theorem mem_requests : (cmd, c) ∈ x.requests ↔ some (cmd, c) ∈ x.asked := by
  simp [requests]

@[simp]
theorem write_phase : (x.write response).phase = x.phase := by
  simp only [write]
  split <;> rfl

@[simp]
theorem write_asked : (x.write response).asked = x.asked := by
  simp only [write]
  split <;> rfl

@[simp]
theorem write_hungUp : (x.write response).hungUp = x.hungUp := by
  simp only [write]
  split <;> rfl

end Client

namespace Control

-- The requests that the event loop has handled and those that it is still to handle, in their order.
def posted (s : Control) : List (ControlMessage × ReplyTo) :=
  (s.service.monitor.log.handled ++ s.events).filterMap (·.asks)

-- A turn of the thread of a client, or its hanging up: what becomes of the client and of the rest.
inductive Turn (s : Control) (i : Nat) (x : Client) : Label → Client → Control → Prop
  | ask {cmd} (reading : x.phase = .reading) : Turn s i x (.line i (some cmd)) (x.read (some cmd) s.channels)
    { s with events := s.events ++ [.controlRequest cmd s.channels], channels := s.channels + 1 }
  | misread (reading : x.phase = .reading) : Turn s i x (.line i none) (x.read none s.channels) s
  | refuse (refusing : x.phase = .refusing) :
    Turn s i x (.refuse i) { x.write .invalidJson with phase := .reading } s
  | receive {c response rest} (receiving : x.phase = .receiving c) (unread : s.unread c = response :: rest) :
    Turn s i x (.receive i) { x with phase := .writing c response }
      { s with received := Function.update s.received c (s.received c + 1) }
  | lose {c} (receiving : x.phase = .receiving c) (unread : s.unread c = []) (closed : ¬s.Open c) :
    Turn s i x (.receive i) { x with phase := .reading } s
  | write {c response} (writing : x.phase = .writing c response) : Turn s i x (.write i) (x.respond c response) s
  | close (reading : x.phase = .reading) : Turn s i x (.close i) { x with phase := .ended } s
  | hangUp : Turn s i x (.hangUp i) { x with hungUp := true } s

variable {s s' t : Control} {l : Label} {i : Nat} {x x' : Client}

theorem line_turn {line : Option ControlMessage} (h : s.line i x line = some s') :
    ∃ x' t, s.Turn i x (.line i line) x' t ∧ s' = t.setClient i x' := by
  simp only [Control.line] at h
  split at h <;> cases h
  case h_1 hr => exact ⟨_, _, .ask hr, rfl⟩
  case h_2 hr => exact ⟨_, _, .misread hr, rfl⟩

theorem refuse_turn (h : s.refuse i x = some s') : ∃ x' t, s.Turn i x (.refuse i) x' t ∧ s' = t.setClient i x' := by
  simp only [Control.refuse] at h
  split at h <;> cases h
  case h_1 hr => exact ⟨_, _, .refuse hr, rfl⟩

theorem receive_turn (h : s.receive i x = some s') : ∃ x' t, s.Turn i x (.receive i) x' t ∧ s' = t.setClient i x' := by
  simp only [Control.receive] at h
  split at h
  case h_2 => contradiction
  case h_1 c hr =>
    split at h
    case h_1 hu => cases h; exact ⟨_, _, .receive hr hu, rfl⟩
    case h_2 hu =>
      split at h <;> cases h
      case isFalse hc => exact ⟨_, _, .lose hr hu hc, rfl⟩

theorem write_turn (h : s.write i x = some s') : ∃ x' t, s.Turn i x (.write i) x' t ∧ s' = t.setClient i x' := by
  simp only [Control.write] at h
  split at h <;> cases h
  case h_1 hw => exact ⟨_, _, .write hw, rfl⟩

theorem close_turn (h : s.close i x = some s') : ∃ x' t, s.Turn i x (.close i) x' t ∧ s' = t.setClient i x' := by
  simp only [Control.close] at h
  split at h <;> cases h
  case h_1 hr => exact ⟨_, _, .close hr, rfl⟩

variable [Crypto]

theorem handle_spec {env : Env} (h : s.handle env = some s') : ∃ e events d fx,
    s.events = e :: events ∧ s.service.step (.handle env e) = some (s.service.handled e d fx) ∧
    s.service.daemon.handleEvent env e = .ok (d, fx) ∧ (∀ c ∈ e.channel, c ∉ s.service.channels) ∧
      s' = { s with service := s.service.handled e d fx, events } := by
  simp only [Control.handle] at h
  split at h
  case h_1 => contradiction
  case h_2 e events he =>
    have ⟨service, hs, h⟩ := Option.map_eq_some_iff.mp h
    obtain ⟨d, fx, hd, hc, rfl⟩ := Service.step_handle hs
    exact ⟨e, events, d, fx, he, hs, hd, hc, h.symm⟩

-- What can happen to the clients and to the event loop.
inductive Steps (s : Control) : Label → Control → Prop
  | accept : Steps s .accept { s with clients := s.clients ++ [.new] }
  | turn {i : Nat} {x x' : Client} {t : Control} {l : Label} (client : s.clients[i]? = some x) (turn : s.Turn i x l x' t) :
    Steps s l (t.setClient i x')
  | post {e} (other : e.channel = none) : Steps s (.post e) { s with events := s.events ++ [e] }
  | handle {env e events d fx} (oldest : s.events = e :: events)
    (step : s.service.step (.handle env e) = some (s.service.handled e d fx))
    (handles : s.service.daemon.handleEvent env e = .ok (d, fx))
    (new : ∀ c ∈ e.channel, c ∉ s.service.channels) :
    Steps s (.handle env) { s with service := s.service.handled e d fx, events }
  | work {monitor : Monitor} {l : Label} (idle : ∀ i, l ≠ .hangUp i ∧ ∀ line, l ≠ .line i line)
    (step : ∃ a, s.service.step a = some { s.service with monitor })
    (log : monitor.log = s.service.monitor.log)
    (same : monitor.daemon.reqTracker = s.service.daemon.reqTracker) :
    Steps s l { s with service := { s.service with monitor } }

theorem step_steps (h : s.step l = some s') : s.Steps l s' := by
  cases l <;> simp only [step] at h
  case accept => cases h; exact .accept
  case line | refuse | receive | write | close =>
    obtain ⟨x, hx, h⟩ := Option.bind_eq_some_iff.mp h
    obtain ⟨x', t, ht, rfl⟩ : ∃ x' t, s.Turn _ x _ x' t ∧ s' = t.setClient _ x' := by
      first | exact line_turn h | exact refuse_turn h | exact receive_turn h | exact write_turn h | exact close_turn h
    exact .turn hx ht
  case hangUp =>
    obtain ⟨x, hx, rfl⟩ := Option.map_eq_some_iff.mp h
    exact .turn hx .hangUp
  case post e =>
    split at h <;> cases h
    case isFalse hc => exact .post <| by simpa using hc
  case handle env =>
    obtain ⟨e, events, d, fx, he, hs, hd, hc, rfl⟩ := handle_spec h
    exact .handle he hs hd hc
  case writer id faults =>
    obtain ⟨service, hs, rfl⟩ := Option.map_eq_some_iff.mp h
    obtain ⟨monitor, hm, rfl⟩ := Option.map_eq_some_iff.mp hs
    obtain ⟨_, _, _, _, _, rfl⟩ := Monitor.step_writer hm
    exact .work (by simp) ⟨_, hs⟩ rfl rfl
  case detached i faults =>
    obtain ⟨service, hs, rfl⟩ := Option.map_eq_some_iff.mp h
    obtain ⟨monitor, hm, rfl⟩ := Option.map_eq_some_iff.mp hs
    obtain ⟨_, _, _, _, _, rfl⟩ := Monitor.step_detached hm
    exact .work (by simp) ⟨_, hs⟩ rfl rfl

omit [Crypto] in
theorem Turn.posts (h : s.Turn i x l x' t) : t.service = s.service ∧ t.clients = s.clients ∧
    ∃ new, x'.requests = x.requests ++ new ∧ t.posted = s.posted ++ new ∧
      (new = [] ∧ t.channels = s.channels ∨ ∃ cmd, new = [(cmd, s.channels)] ∧ t.channels = s.channels + 1) := by
  cases h
  case ask cmd _ =>
    refine ⟨rfl, rfl, [(cmd, s.channels)], by simp [Client.requests, Client.read], ?_, .inr ⟨cmd, rfl, rfl⟩⟩
    simp [posted, PeerEvent.asks]
  case write => exact ⟨rfl, rfl, [], by simp [Client.requests, Client.respond], by simp, .inl ⟨rfl, rfl⟩⟩
  all_goals exact ⟨rfl, rfl, [], by simp [Client.requests, Client.read], by simp [posted], .inl ⟨rfl, rfl⟩⟩

-- What a turn takes, it takes from the channel of the client's own request.
omit [Crypto] in
theorem Turn.receives (h : s.Turn i x l x' t) (hx : x.Current) (c : ReplyTo) : t.received c = s.received c ∨
    t.received c = s.received c + 1 ∧ s.received c < (s.service.sent c).length ∧ ∃ cmd, some (cmd, c) ∈ x.asked := by
  cases h
  case receive c' _ _ hp hr =>
    by_cases hc : c = c'
    case neg => exact .inl <| Function.update_of_ne hc ..
    case pos =>
      subst hc
      rw [Client.Current, hp] at hx
      obtain ⟨pre, cmd, ha⟩ := hx
      refine .inr ⟨Function.update_self .., ?_, cmd, ha ▸ List.mem_append_right _ (List.mem_singleton.mpr rfl)⟩
      refine Nat.lt_of_not_le fun hl => ?_
      rw [unread, List.drop_of_length_le hl] at hr
      contradiction
  all_goals exact .inl rfl

-- Every request of a client is handled or is still to be handled, and the channels number them in that order.
structure Posted (s : Control) : Prop where
  numbered : s.posted.map Prod.snd = List.range s.channels
  known    : s.service.channels = (s.service.monitor.log.handled.filterMap (·.asks)).map Prod.snd
  owned    : (s.clients.flatMap (·.requests)).Perm s.posted
  inOrder  : ∀ x ∈ s.clients, x.requests.Sublist s.posted

namespace Posted

omit [Crypto] in
theorem init (h : Initial s) : Posted s := by
  obtain ⟨service, ⟨⟨_, _, _, hm⟩, hc, _, _⟩, rfl⟩ := h
  have hl : service.monitor.log.handled = [] := by rw [hm]; rfl
  have hp : (new service).posted = [] := by simp [posted, new, hl]
  constructor
  case numbered => rw [hp]; rfl
  case known    => rw [new, hc, hl]; rfl
  case owned    => rw [hp]; exact .refl []
  case inOrder  => intro x hx; contradiction

theorem step (k : Posted s) (h : s.step l = some s') : Posted s' := by
  cases step_steps h
  case accept =>
    constructor
    case numbered => exact k.numbered
    case known    => exact k.known
    case owned    =>
      rw [List.flatMap_append]
      exact (List.append_nil _).symm ▸ k.owned
    case inOrder  =>
      intro x hx
      obtain hx | hx := List.mem_append.mp hx
      case inl => exact k.inOrder x hx
      case inr => rw [List.mem_singleton.mp hx]; exact List.nil_sublist _
  case turn i x x' t hx ht =>
    obtain ⟨hs, hc, new, hr, hp, hn⟩ := ht.posts
    have hp : (t.setClient i x').posted = s.posted ++ new := hp
    constructor
    case numbered =>
      show (t.setClient i x').posted.map _ = List.range t.channels
      rw [hp, List.map_append, k.numbered]
      obtain ⟨rfl, hc⟩ | ⟨cmd, rfl, hc⟩ := hn
      case inl => simp [hc]
      case inr => simp [hc, List.range_succ]
    case known =>
      show t.service.channels = _
      rw [hs, k.known]
      show _ = (t.service.monitor.log.handled.filterMap _).map _
      rw [hs]
    case owned =>
      rw [hp]
      exact (perm_flatMap_set (hc ▸ hx) hr).trans <| by rw [hc]; exact k.owned.append_right new
    case inOrder =>
      intro y hy
      rw [hp]
      obtain hy | rfl := List.mem_or_eq_of_mem_set hy
      case inl => exact (k.inOrder y (hc ▸ hy)).trans <| List.sublist_append_left ..
      case inr => exact hr ▸ (k.inOrder x <| List.mem_of_getElem? hx).append_right new
  case post e he =>
    have hp : ({ s with events := s.events ++ [e] } : Control).posted = s.posted := by
      have he : e.asks = none := by simpa [← PeerEvent.asks_channel] using he
      simp [posted, he]
    exact ⟨hp ▸ k.numbered, k.known, hp ▸ k.owned, hp ▸ k.inOrder⟩
  case handle env e events d fx he _ _ _ =>
    have hp : ({ s with service := s.service.handled e d fx, events } : Control).posted = s.posted := by
      simp [posted, Service.handled, Log.record, he]
    refine ⟨hp ▸ k.numbered, ?_, hp ▸ k.owned, hp ▸ k.inOrder⟩
    show s.service.channels ++ e.channel.toList = _
    rw [k.known, ← PeerEvent.asks_channel]
    cases ha : e.asks <;> simp [Service.handled, Log.record, ha]
  case work monitor _ hl _ _ =>
    have hp : ({ s with service := { s.service with monitor } } : Control).posted = s.posted := by
      simp [posted, hl]
    exact ⟨hp ▸ k.numbered, hl ▸ k.known, hp ▸ k.owned, hp ▸ k.inOrder⟩

theorem reachable (r : Reachable system s) : Posted s :=
  Invariant.reachable ⟨init, step⟩ r

omit [Crypto] in
theorem mem_channels (k : Posted s) {c : ReplyTo} (h : c ∈ s.service.channels) : c < s.channels := by
  rw [k.known] at h
  have h : c ∈ s.posted.map Prod.snd := by
    rw [posted, List.filterMap_append, List.map_append]
    exact List.mem_append_left _ h
  rwa [k.numbered, List.mem_range] at h

-- A request has been handled or is in the queue.
omit [Crypto] in
theorem taken (k : Posted s) {cmd : ControlMessage} {c : ReplyTo} (hx : x ∈ s.clients) (h : some (cmd, c) ∈ x.asked) :
    c ∈ s.service.channels ∨ ∃ e ∈ s.events, e.channel = some c := by
  have h := (k.inOrder x hx).subset <| Client.mem_requests.mpr h
  rw [posted, List.filterMap_append, List.mem_append] at h
  refine h.imp (fun h => ?_) fun h => ?_
  case refine_1 => exact k.known ▸ List.mem_map_of_mem h
  case refine_2 =>
    have ⟨e, he, ha⟩ := List.mem_filterMap.mp h
    exact ⟨e, he, by rw [← PeerEvent.asks_channel, ha]; rfl⟩

-- No two requests are answered on the same channel.
omit [Crypto] in
theorem distinct (k : Posted s) {i j : Nat} {x y : Client} {cmd cmd' : ControlMessage} {c : ReplyTo}
    (hx : s.clients[i]? = some x) (hy : s.clients[j]? = some y) (hc : some (cmd, c) ∈ x.asked)
    (hc' : some (cmd', c) ∈ y.asked) : i = j := by
  have hn : (s.clients.flatMap fun x => x.requests.map Prod.snd).Nodup := by
    rw [← List.map_flatMap, (k.owned.map Prod.snd).nodup_iff, k.numbered]
    exact List.nodup_range
  obtain ⟨hi, rfl⟩ := List.getElem?_eq_some_iff.mp hx
  obtain ⟨hj, rfl⟩ := List.getElem?_eq_some_iff.mp hy
  have hp := List.pairwise_iff_getElem.mp (List.nodup_flatMap.mp hn).right
  have hc := List.mem_map_of_mem (f := Prod.snd) <| Client.mem_requests.mpr hc
  have hc' := List.mem_map_of_mem (f := Prod.snd) <| Client.mem_requests.mpr hc'
  obtain h | h | h := Nat.lt_trichotomy i j
  case inl     => exact absurd hc' <| hp i j hi hj h hc
  case inr.inl => exact h
  case inr.inr => exact absurd hc <| hp j i hj hi h hc'

end Posted

end Control
end Parsip
