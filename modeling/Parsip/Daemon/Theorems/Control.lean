import Parsip.Daemon.Theorems.Control.Answering

-- Each client hears exactly what the daemon has to say to its lines, and waits only for what is still to come.

namespace Parsip

open Transition

namespace ControlResponse.Closed

variable {responses responses' : List ControlResponse} {response : ControlResponse}

theorem of_prefix (h : Closed responses) (hp : responses' <+: responses) : Closed responses' := by
  obtain ⟨rest, rfl⟩ := hp
  rintro before last post rfl ht
  rw [List.append_assoc, List.cons_append] at h
  exact (List.append_eq_nil_iff.mp <| h before last _ rfl ht).left

-- Who has heard the answer has heard everything.
theorem eq_of_prefix (h : Closed responses) (hp : responses' <+: responses) (hm : response ∈ responses')
    (ht : response.Terminal) : responses' = responses := by
  obtain ⟨rest, rfl⟩ := hp
  obtain ⟨before, after, rfl⟩ := List.append_of_mem hm
  rw [List.append_assoc, List.cons_append] at h
  rw [(List.append_eq_nil_iff.mp <| h before response _ rfl ht).right, List.append_nil]

theorem ends (h : Closed responses) (hm : response ∈ responses) (ht : response.Terminal) :
    ∃ progress last, responses = progress ++ [last] ∧ last.Terminal ∧ ∀ response ∈ progress, ¬response.Terminal := by
  obtain ⟨progress, post, rfl⟩ := List.append_of_mem hm
  cases h progress response post rfl ht
  refine ⟨progress, response, rfl, ht, fun response' hm' ht' => ?_⟩
  have he := h.eq_of_prefix (List.prefix_append ..) hm' ht'
  simp at he

end ControlResponse.Closed

namespace Daemon.Tracks

variable {d d' : Daemon} {env : Env} {e : PeerEvent} {fx : List Effect}

-- A request that is new is pending under the number that has been next.
theorem numbers (t : d.Tracks env d' fx e) :
    d'.reqTracker.nextId = d.reqTracker.nextId ∧
        (∀ r c, d'.reqTracker.get r = some c → d.reqTracker.get r = some c) ∨
      d'.reqTracker.nextId = d.reqTracker.nextId + 1 ∧ e.channel.isSome ∧
        ∀ r c, d'.reqTracker.get r = some c → d.reqTracker.get r = some c ∨ r = d.reqTracker.nextId := by
  have finished {rs : List UInt32} (hf : d.reqTracker.Finishes rs fx d'.reqTracker) :
      ∀ r c, d'.reqTracker.get r = some c → d.reqTracker.get r = some c := by
    intro r c hp
    rw [hf.get, Option.ite_none_left_eq_some] at hp
    exact hp.right
  have registered {c r c'} (h : (d.reqTracker.advance.snd.register d.reqTracker.nextId c).get r = some c') :
      d.reqTracker.get r = some c' ∨ r = d.reqTracker.nextId := by
    rw [RequestTracker.register_get] at h
    split at h
    case isTrue hr => exact .inr hr
    case isFalse   => exact .inl h
  cases t
  case idle hq _ _ | reported hq _ | unreported hq _ | unended hq _ | answered hq _ => exact .inl ⟨hq ▸ rfl, fun _ _ h => hq ▸ h⟩
  case finished hf _ | ended hf | cancelled hf => exact .inl ⟨hf.nextId, finished hf⟩
  case registered hq _ => exact .inr ⟨by rw [hq]; rfl, rfl, fun r c' h => registered (hq ▸ h)⟩
  case refused hf =>
    refine .inr ⟨hf.nextId, rfl, fun r c h => ?_⟩
    rw [hf.get, Option.ite_none_left_eq_some] at h
    exact registered h.right

end Daemon.Tracks

namespace Service

variable {s s' : Service} {a : Action} {c : ReplyTo}

-- As long as the numbers last, every request that has come is pending or has been answered.
structure Attended (s : Service) : Prop where
  numbers : ∀ r c, s.daemon.reqTracker.get r = some c → r < s.daemon.reqTracker.nextId
  next    : s.daemon.reqTracker.nextId.toNat ≤ s.channels.length + 1
  kept    : ∀ c ∈ s.channels, (∃ r, s.daemon.reqTracker.get r = some c) ∨ ∃ response ∈ s.sent c, response.Terminal

namespace Attended

theorem init (h : Initial s) : Attended s := by
  obtain ⟨⟨_, _, _, hm⟩, hc, hs, _⟩ := h
  have hp (r : UInt32) : s.daemon.reqTracker.get r = none := by rw [daemon, hm]; exact Table.lookup_empty
  constructor
  case numbers => intro r c h; rw [hp] at h; contradiction
  case next    => rw [daemon, hm]; exact Nat.le_add_left ..
  case kept    => intro c hm; rw [hc] at hm; contradiction

variable [Crypto]

theorem step (k : s.channels.length < 2 ^ 32 - 1 → Attended s) (h : s.step a = some s') (hn : s'.channels.length < 2 ^ 32 - 1) :
    Attended s' := by
  obtain ⟨env, e, d, fx, _, hd, hc, rfl⟩ | ⟨m, _, hq, _, _, rfl⟩ := step_cases h
  case inr =>
    obtain ⟨hi, hx, hk⟩ := k hn
    exact ⟨hq ▸ hi, hq ▸ hx, hq ▸ hk⟩
  case inl =>
    have ht := Daemon.handleEvent_tracks hd
    have hl : (s.handled e d fx).channels.length = s.channels.length + e.channel.toList.length := List.length_append
    obtain ⟨hi, hx, hk⟩ := k (by omega)
    have hnext (h : e.channel.isSome) : (s.daemon.reqTracker.nextId + 1).toNat = s.daemon.reqTracker.nextId.toNat + 1 := by
      obtain ⟨c, he⟩ := Option.isSome_iff_exists.mp h
      rw [he, Option.toList_some, List.length_singleton] at hl
      have h₁ : (1 : UInt32).toNat = 1 := rfl
      rw [UInt32.toNat_add, h₁, Nat.mod_eq_of_lt (by omega)]
    have hs {c} (ha : Daemon.Answered fx c) : ∃ response ∈ (s.handled e d fx).sent c, response.Terminal := by
      obtain ⟨response, ht, hf⟩ := ha
      exact ⟨response, List.mem_append_right _ <| List.mem_filterMap.mpr ⟨_, hf, if_pos rfl⟩, ht⟩
    constructor
    case numbers =>
      intro r c hp
      show r < d.reqTracker.nextId
      obtain ⟨he, ho⟩ | ⟨he, hc, ho⟩ := ht.numbers
      case inl => exact he ▸ hi r c (ho r c hp)
      case inr =>
        rw [he, UInt32.lt_iff_toNat_lt, hnext hc]
        obtain hp | rfl := ho r c hp
        case inl => exact Nat.lt_succ_of_lt <| UInt32.lt_iff_toNat_lt.mp <| hi r c hp
        case inr => exact Nat.lt_succ_self _
    case next =>
      show d.reqTracker.nextId.toNat ≤ (s.handled e d fx).channels.length + 1
      obtain ⟨he, _⟩ | ⟨he, hc, _⟩ := ht.numbers
      case inl => rw [he, hl]; omega
      case inr =>
        rw [he, hnext hc, hl]
        obtain ⟨c, he⟩ := Option.isSome_iff_exists.mp hc
        rw [he, Option.toList_some, List.length_singleton]
        omega
    case kept =>
      intro c hm
      obtain hm | hm := List.mem_append.mp hm
      case inr =>
        obtain hp | ha := ht.come <| Option.mem_toList.mp hm
        case inl => exact .inl ⟨_, hp⟩
        case inr => exact .inr <| hs ha
      case inl =>
        obtain ⟨r, hp⟩ | ⟨response, hr, ht⟩ := hk c hm
        case inr => exact .inr ⟨response, List.mem_append_left _ hr, ht⟩
        case inl =>
          obtain hp | ha | ⟨_, _, _, _, hr⟩ := ht.kept hd hp
          case inl         => exact .inl ⟨r, hp⟩
          case inr.inl     => exact .inr <| hs ha
          case inr.inr     => exact absurd (hi r c hp) (hr ▸ UInt32.lt_irrefl _)

theorem reachable (r : Reachable system s) (hn : s.channels.length < 2 ^ 32 - 1) : Attended s := by
  induction r
  case init h    => exact init h
  case step h hi => exact step hi h hn

end Attended
end Service

namespace Control

variable [Crypto] {s : Control} {x : Client} {cmd : ControlMessage} {c : ReplyTo} {r : UInt32}

-- The event loop handles every request of every client once, in the order in which they have been posted, and so
-- those of one client in the order of its lines.
theorem requests_once (r : Reachable system s) : s.posted.map Prod.snd = List.range s.channels ∧
    (s.clients.flatMap (·.requests)).Perm s.posted ∧ ∀ x ∈ s.clients, x.requests.Sublist s.posted :=
  have k := Posted.reachable r
  ⟨k.numbered, k.owned, k.inOrder⟩

-- The answer to a request is complete.
def Answered (s : Control) (c : ReplyTo) : Prop :=
  ∃ progress response, s.service.sent c = progress ++ [response] ∧ response.Terminal ∧ ∀ response ∈ progress, ¬response.Terminal

theorem Over.answered (h : s.Over c) (r : Reachable system s) (hn : s.channels < 2 ^ 32 - 1) : s.Answered c := by
  have k := Posted.reachable r
  have hs := service_reachable r
  have hl : s.service.channels.length < 2 ^ 32 - 1 := by
    refine Nat.lt_of_le_of_lt ?_ hn
    rw [k.known, ← List.length_range (n := s.channels), ← k.numbered, posted, List.filterMap_append, List.map_append]
    exact (List.prefix_append ..).length_le
  obtain ⟨r, hp⟩ | ⟨response, hm, ht⟩ := (Service.Attended.reachable hs hl).kept c h.left
  case inl => exact absurd hp <| h.right r
  case inr => exact (Service.closed_reachable hs c).ends hm ht

-- Nothing is left to do for the event loop and for the threads of the clients.
def AtRest (s : Control) : Prop :=
  s.events = [] ∧ ∀ i, s.step (.refuse i) = none ∧ s.step (.receive i) = none ∧ s.step (.write i) = none

namespace Served

omit [Crypto] in
theorem written_prefix (v : s.Served x) : x.written <+: x.asked.flatMap s.answer := by
  obtain ⟨_, pre, post, part, ha, hp, _, hw, _⟩ := v
  rw [hw, ha, List.flatMap_append, List.prefix_append_right_inj]
  cases post
  case nil  => exact hp
  case cons => exact hp.trans <| List.prefix_append ..

theorem rests (v : s.Served x) (r : Reachable system s) (hn : s.channels < 2 ^ 32 - 1) (hq : s.AtRest) (hx : x ∈ s.clients)
    (hu : x.hungUp = false) : x.written = x.asked.flatMap s.answer ∧ ∀ cmd c, some (cmd, c) ∈ x.asked → s.Answered c ∨
      (∃ r, s.service.daemon.reqTracker.get r = some c) ∧ x.phase = .receiving c ∧ x.asked.getLast? = some (some (cmd, c)) := by
  obtain ⟨he, hq⟩ := hq
  obtain ⟨i, hi⟩ := List.mem_iff_getElem?.mp hx
  obtain ⟨hf, hr, hw⟩ := hq i
  simp only [step, hi, Option.bind_some] at hf hr hw
  have idle (hp : x.phase = .reading ∨ x.phase = .ended) : x.written = x.asked.flatMap s.answer ∧
      ∀ cmd c, some (cmd, c) ∈ x.asked → s.Answered c ∨ (∃ r, s.service.daemon.reqTracker.get r = some c) ∧
        x.phase = .receiving c ∧ x.asked.getLast? = some (some (cmd, c)) := by
    obtain ⟨ho, hw⟩ := v.reading hu hp
    exact ⟨hw, fun cmd c hm => .inl <| (ho cmd c hm).answered r hn⟩
  obtain ⟨p, hp⟩ : ∃ p, x.phase = p := ⟨_, rfl⟩
  cases p
  case reading   => exact idle (.inl hp)
  case ended     => exact idle (.inr hp)
  case refusing  => simp [Control.refuse, hp] at hf
  case writing   => simp [Control.write, hp] at hw
  case receiving c =>
    obtain ⟨pre, cmd, ha, ho, hw, _⟩ := v.receiving hu hp
    simp only [Control.receive, hp] at hr
    split at hr
    case h_1 => contradiction
    case h_2 hd =>
      rw [List.take_of_length_le <| List.drop_eq_nil_iff.mp hd] at hw
      refine ⟨by simp [hw, ha, answer], fun cmd' c' hm => ?_⟩
      obtain hm | hm := List.mem_append.mp (ha ▸ hm)
      case inl => exact .inl <| (ho cmd' c' hm).answered r hn
      case inr =>
        cases List.mem_singleton.mp hm
        have hc : s.Open c := by simpa using hr
        obtain ⟨_, hm, _⟩ | hm := hc
        case inl => rw [he] at hm; contradiction
        case inr => exact .inr ⟨Table.mem_values.mp hm, hp, by simp [ha]⟩

end Served

-- What a client can read is what has been sent for its lines, one after another, and nothing is left out before the
-- thread goes on to the next line.
theorem written_exact (r : Reachable system s) (hx : x ∈ s.clients) : x.written <+: x.asked.flatMap s.answer ∧
    (x.hungUp = false → x.phase = .reading ∨ x.phase = .ended → x.written = x.asked.flatMap s.answer) :=
  have v := (Serves.reachable r).served x hx
  ⟨v.written_prefix, fun hu hp => (v.reading hu hp).right⟩

-- When there is nothing left to do, every client that listens has been told all that has been sent for its lines, each
-- of them has been answered, and the thread is at one that is not only if the request is still pending.
theorem waits_for_pending (r : Reachable system s) (hn : s.channels < 2 ^ 32 - 1) (hq : s.AtRest) (hx : x ∈ s.clients)
    (hu : x.hungUp = false) : x.written = x.asked.flatMap s.answer ∧ ∀ cmd c, some (cmd, c) ∈ x.asked → s.Answered c ∨
      (∃ r, s.service.daemon.reqTracker.get r = some c) ∧ x.phase = .receiving c ∧ x.asked.getLast? = some (some (cmd, c)) :=
  ((Serves.reachable r).served x hx).rests r hn hq hx hu

-- Two clients, one of which has been answered and asks for something that makes no sense. The other one waits for the
-- end of a scan.
def visiting : List Label := [
  .accept, .accept, .line 0 (some .listPeers), .line 1 (some .scan), .handle (.fine 0), .handle (.fine 0),
  .receive 0, .write 0, .line 0 none, .refuse 0
]

def visited : Control :=
  (visiting.foldlM (@step .transparent) (.new .fresh)).getD (.new .fresh)

def visitor : Client :=
  ⟨.reading, [some (.listPeers, 0), none], [.peersList [], .invalidJson], false⟩

def scanner : Client :=
  ⟨.receiving 1, [some (.scan, 1)], [], false⟩

section

omit [Crypto]

theorem visited_reachable : Reachable (@system .transparent) visited :=
  Run.reachable (.init ⟨_, Service.fresh_initial, rfl⟩) <| .ofFn (rfl : visiting.foldlM (@step .transparent) (.new .fresh) = _)

theorem visited_clients : visited.clients = [visitor, scanner] :=
  rfl

theorem visited_atRest : @AtRest .transparent visited := by
  refine ⟨rfl, fun i => ?_⟩
  match i with
  | 0     => exact ⟨rfl, rfl, rfl⟩
  | 1     => exact ⟨rfl, rfl, rfl⟩
  | i + 2 => exact ⟨rfl, rfl, rfl⟩

theorem requests_once_visited : visited.posted.map Prod.snd = List.range 2 ∧
    (visited.clients.flatMap (·.requests)).Perm visited.posted ∧ ∀ x ∈ visited.clients, x.requests.Sublist visited.posted :=
  @requests_once .transparent _ visited_reachable

theorem written_exact_visited : visitor.written = visitor.asked.flatMap visited.answer :=
  (@written_exact .transparent _ _ visited_reachable <| visited_clients ▸ List.mem_cons_self ..).right rfl (.inl rfl)

theorem waits_for_pending_visited : scanner.written = scanner.asked.flatMap visited.answer ∧
    ∀ cmd c, some (cmd, c) ∈ scanner.asked → visited.Answered c ∨
      (∃ r, visited.service.daemon.reqTracker.get r = some c) ∧ scanner.phase = .receiving c ∧
        scanner.asked.getLast? = some (some (cmd, c)) :=
  @waits_for_pending .transparent _ _ visited_reachable (by decide) visited_atRest
    (visited_clients ▸ List.mem_cons_of_mem _ (List.mem_cons_self ..)) rfl

end

end Control
end Parsip
