import Parsip.Daemon.Theorems.Answers
import Parsip.Daemon.Theorems.Control

-- What a client is told of the progress of its download.

namespace Parsip

open Transition

-- A chunk of a download, accepted at a time.
structure AcceptedChunk where
  now   : Nat
  bytes : Nat
  deriving DecidableEq

def AcceptedChunk.total : List AcceptedChunk → Nat
  | []              => 0
  | chunk :: chunks => chunk.bytes + total chunks

@[simp]
theorem AcceptedChunk.total_snoc {chunks : List AcceptedChunk} {chunk : AcceptedChunk} :
    total (chunks ++ [chunk]) = total chunks + chunk.bytes := by
  induction chunks
  case nil => simp [total]
  case cons _ _ hi => rw [List.cons_append, total, hi, total, Nat.add_assoc]

-- The reports that are due on a download of `total` bytes, begun at `start`, when chunks have been accepted in turn.
-- The last one tells of `n` bytes and comes at `time`.
inductive Reported (total : UInt64) (start : Nat) : List AcceptedChunk → List ControlResponse → Nat → Nat → Prop
  | none : Reported total start [] [] 0 start
  | quiet {chunks : List AcceptedChunk} {chunk : AcceptedChunk} {rs : List ControlResponse} {n time : Nat}
    (before : Reported total start chunks rs n time) (soon : chunk.now ≤ time + 200) :
    Reported total start (chunks ++ [chunk]) rs n time
  | due {chunks : List AcceptedChunk} {chunk : AcceptedChunk} {rs : List ControlResponse} {n n' time : Nat}
    (before : Reported total start chunks rs n time) (later : time + 200 < chunk.now)
    (bytes : n' = AcceptedChunk.total (chunks ++ [chunk])) :
    Reported total start (chunks ++ [chunk])
      (rs ++ [.downloadProgress ⟨.ofNat n', total, .ofNat (n' - n), chunk.now - time⟩]) n' chunk.now

theorem Reported.le {total : UInt64} {start n time : Nat} {chunks : List AcceptedChunk} {rs : List ControlResponse}
    (h : Reported total start chunks rs n time) : n ≤ AcceptedChunk.total chunks := by
  induction h
  case none         => exact Nat.zero_le _
  case quiet hi     => simp only [AcceptedChunk.total_snoc]; omega
  case due bytes hi => exact Nat.le_of_eq bytes

-- A download, begun at `start`, that has got `n` bytes and told of `m` of them.
structure Transfer.Stands (t : Transfer) (total : UInt64) (start n m : Nat) : Prop where
  total : t.bytesTotal = total
  start : t.startTime = start
  bytes : t.bytesTransferred = .ofNat n
  last  : t.lastReportBytes = .ofNat m

namespace Transfer.Stands

variable {t : Transfer} {total : UInt64} {start m : Nat} {chunks : List AcceptedChunk} {rs : List ControlResponse}

-- After one more chunk a report is due or not.
theorem progress (chunk : AcceptedChunk) (h : t.Stands total start (AcceptedChunk.total chunks) m)
    (hr : Reported total start chunks rs m t.lastReportTime) :
    ∃ m', (t.progress chunk.now (.ofNat chunk.bytes)).fst.Stands total start (AcceptedChunk.total <| chunks ++ [chunk]) m' ∧
      Reported total start (chunks ++ [chunk])
        (rs ++ (t.progress chunk.now (.ofNat chunk.bytes)).snd.toList.map .downloadProgress) m'
        (t.progress chunk.now (.ofNat chunk.bytes)).fst.lastReportTime := by
  have hle := hr.le
  obtain ⟨rfl, rfl, hb, hl⟩ := h
  have hs : t.bytesTransferred + .ofNat chunk.bytes = .ofNat (AcceptedChunk.total <| chunks ++ [chunk]) := by
    rw [hb, AcceptedChunk.total_snoc, UInt64.ofNat_add]
  simp only [Transfer.progress]
  split
  case isFalse hd =>
    refine ⟨m, ⟨rfl, rfl, hs, hl⟩, ?_⟩
    have quiet : Reported t.bytesTotal t.startTime (chunks ++ [chunk]) rs m t.lastReportTime := hr.quiet (by omega)
    simpa using quiet
  case isTrue hd =>
    have hd' : UInt64.ofNat (AcceptedChunk.total <| chunks ++ [chunk]) - t.lastReportBytes =
        .ofNat (AcceptedChunk.total (chunks ++ [chunk]) - m) := by
      rw [hl, UInt64.ofNat_sub (by simp only [AcceptedChunk.total_snoc]; omega)]
    refine ⟨_, ⟨rfl, rfl, hs, hs⟩, ?_⟩
    rw [hs, hd']
    exact hr.due (by omega) rfl

end Transfer.Stands

namespace Daemon

-- The chunk that `d` accepts for request `r` with an event.
def accepts (d : Daemon) (env : Env) (r : UInt32) : PeerEvent → Option AcceptedChunk
  | .message _ (.resourceChunk r' id _ data) =>
    match (d.downloadMgr.processChunk id data).fst with
    | .ok _    => if r' = r then some ⟨env.now, data.length⟩ else none
    | .error _ => none
  | _ => none

variable {d d' : Daemon} {env : Env} {e : PeerEvent} {fx : List Effect} {r r' : UInt32} {c : ReplyTo} {t : Transfer}
variable {p : PeerId} {id : ResourceId} {off : UInt64} {data : Bytes}

theorem accepts_of_not_chunk (h : ¬IsChunk e) : d.accepts env r e = none := by
  cases e <;> try rfl
  case message _ msg => cases msg <;> first | rfl | exact absurd trivial h

-- A chunk leaves the requests as they are, and changes the transfer that it names.
theorem resourceChunk_progress (h : d.handleMessage env p (.resourceChunk r' id off data) = (d', fx))
    (hs : ∀ {r r'}, d.reqTracker.get r = some c → d.reqTracker.get r' = some c → r = r')
    (hg : d.reqTracker.get r = some c) (ht : d.transferMgr.transfers.lookup r = some t) :
    d'.reqTracker = d.reqTracker ∧
      (d'.transferMgr.transfers.lookup r = some t ∧ d.accepts env r (.message p (.resourceChunk r' id off data)) = none ∧
          fx.filterMap (·.responseTo c) = [] ∨
        d.accepts env r (.message p (.resourceChunk r' id off data)) = some ⟨env.now, data.length⟩ ∧
          d'.transferMgr.transfers.lookup r = some (t.progress env.now (.ofNat data.length)).fst ∧
          fx.filterMap (·.responseTo c) =
            (t.progress env.now (.ofNat data.length)).snd.toList.map .downloadProgress) := by
  simp only [handleMessage] at h
  cases hp : d.downloadMgr.processChunk id data
  case mk result mgr =>
    cases result <;> simp only [hp] at h <;> simp only [accepts, hp]
    case error => cases h; exact ⟨rfl, .inl ⟨ht, trivial, rfl⟩⟩
    case ok =>
      have hl := @TransferManager.updateProgress_lookup d.transferMgr r r' env.now (.ofNat data.length)
      by_cases hr : r' = r
      case pos =>
        subst hr
        have hu : (d.transferMgr.updateProgress env.now r' (.ofNat data.length)).snd =
            (t.progress env.now (.ofNat data.length)).snd := by simp only [TransferManager.updateProgress, ht]
        rw [if_pos rfl, ht, Option.map_some] at hl
        rw [hu] at h
        cases hq : (t.progress env.now (.ofNat data.length)).snd <;> simp only [hq, hg] at h <;> cases h <;>
          refine ⟨rfl, .inr ⟨if_pos rfl, hl, ?_⟩⟩
        case none => rfl
        case some => simp [Effect.responseTo]
      case neg =>
        rw [if_neg (Ne.symm hr)] at hl
        split at h <;> cases h <;> refine ⟨rfl, .inl ⟨hl.trans ht, if_neg hr, ?_⟩⟩
        case h_2 => rfl
        case h_1 c' _ hg' =>
          have : c' ≠ c := fun he => hr <| hs (he ▸ hg') hg
          simp [Effect.responseTo, this]

end Daemon

theorem Effect.mem_responses {fx : List Effect} {c : ReplyTo} {response : ControlResponse} :
    response ∈ fx.filterMap (·.responseTo c) ↔ .respond c response ∈ fx := by
  rw [List.mem_filterMap]
  constructor
  case mpr => exact fun h => ⟨_, h, if_pos rfl⟩
  case mp =>
    intro ⟨f, hf, hr⟩
    cases f <;> try contradiction
    case respond c' response' =>
      simp only [responseTo, Option.ite_none_right_eq_some, Option.some.injEq] at hr
      obtain ⟨rfl, rfl⟩ := hr
      exact hf

-- Only chunks are answered without an end.
theorem PeerEvent.Emits.progresses {e : PeerEvent} {c : ReplyTo} {response : ControlResponse}
    (h : e.Emits (.respond c response)) (ht : ¬response.Terminal) : Daemon.IsChunk e := by
  cases h <;> first | trivial | exact absurd trivial ht

namespace Service

-- The chunk that a step accepts for the request `r` of `c`, as long as it is pending.
def accepts (s : Service) (r : UInt32) (c : ReplyTo) : Action → Option AcceptedChunk
  | .handle env e             => if s.daemon.reqTracker.get r = some c then s.daemon.accepts env r e else none
  | .writer .. | .detached .. => none

-- When a step ends the request `r` of `c`.
def ends [Crypto] (s : Service) (r : UInt32) (c : ReplyTo) (a : Action) : Option Nat :=
  match a, s.step a with
  | .handle env _, some s' =>
    if s.daemon.reqTracker.get r = some c ∧ s'.daemon.reqTracker.get r ≠ some c then some env.now else none
  | _, _ => none

-- What has been sent on `c` of a download for whose request these chunks have been accepted, and which may have ended at
-- a time.
inductive Accounts (s : Service) (r : UInt32) (c : ReplyTo) (total : UInt64) (start : Nat) (chunks : List AcceptedChunk) :
    Option Nat → Prop
  | pending {t : Transfer} {m : Nat} (pending : s.daemon.reqTracker.get r = some c)
    (transfer : s.daemon.transferMgr.transfers.lookup r = some t)
    (stands : t.Stands total start (AcceptedChunk.total chunks) m)
    (reported : Reported total start chunks (s.sent c) m t.lastReportTime) : Accounts s r c total start chunks none
  | ended {rs : List ControlResponse} {response : ControlResponse} {m time now : Nat}
    (gone : ∀ r, s.daemon.reqTracker.get r ≠ some c) (sent : s.sent c = rs ++ [response]) (terminal : response.Terminal)
    (reported : Reported total start chunks rs m time)
    (complete : ∀ b ms, response = .downloadComplete b ms → b = .ofNat (AcceptedChunk.total chunks) ∧ ms = now - start) :
    Accounts s r c total start chunks (some now)

namespace Accounts

variable {s s' : Service} {a : Action} {r : UInt32} {c : ReplyTo} {total : UInt64} {start : Nat}
variable {chunks : List AcceptedChunk} {ending : Option Nat} {d : Daemon} {env : Env} {e : PeerEvent} {fx : List Effect}

theorem known (k : s.Accounts r c total start chunks ending) (l : Linear s) : c ∈ s.channels := by
  cases k
  case pending hp _ _ _ => exact (l.waiting hp).left
  case ended hs _ _ _ =>
    by_contra hc
    rw [l.unknown hc] at hs
    simp at hs

variable [Crypto]

theorem handled_pending {t : Transfer} {m : Nat} (l : Linear s) (hp : s.daemon.reqTracker.get r = some c)
    (hn : r < s.daemon.reqTracker.nextId)
    (ht : s.daemon.transferMgr.transfers.lookup r = some t) (st : t.Stands total start (AcceptedChunk.total chunks) m)
    (hr : Reported total start chunks (s.sent c) m t.lastReportTime) (h : s.daemon.handleEvent env e = .ok (d, fx))
    (hc : ∀ c ∈ e.channel, c ∉ s.channels) :
    (s.handled e d fx).Accounts r c total start (chunks ++ (s.daemon.accepts env r e).toList)
      (if d.reqTracker.get r = some c then none else some env.now) := by
  have tracks := Daemon.handleEvent_tracks h
  have hsent : (s.handled e d fx).sent c = s.sent c ++ fx.filterMap (·.responseTo c) := rfl
  have hnr : ¬s.daemon.Reuses env r e := fun ⟨_, _, _, _, he⟩ => absurd hn (he ▸ UInt32.lt_irrefl _)
  by_cases hk : Daemon.IsChunk e
  case pos =>
    cases e <;> try contradiction
    case message p msg =>
      cases msg <;> try contradiction
      case resourceChunk r' id off data =>
        obtain ⟨hq, ⟨ht', hz, hf⟩ | ⟨hz, ht', hf⟩⟩ := Daemon.resourceChunk_progress (Except.ok.inj h) l.single hp ht
          <;> have hp' : d.reqTracker.get r = some c := hq ▸ hp
          <;> rw [if_pos hp', hz]
        case inl =>
          rw [Option.toList_none, List.append_nil]
          exact .pending hp' ht' st (by rwa [hsent, hf, List.append_nil])
        case inr =>
          obtain ⟨m', st', hr'⟩ := st.progress ⟨env.now, data.length⟩ hr
          exact .pending hp' ht' st' (by rwa [hsent, hf])
  case neg =>
    rw [Daemon.accepts_of_not_chunk hk, Option.toList_none, List.append_nil]
    have emitted {response} (hz : fx.filterMap (·.responseTo c) = [response]) : e.Emits (.respond c response) :=
      Daemon.handleEvent_emits h <| Effect.mem_responses.mp <| hz ▸ List.mem_singleton.mpr rfl
    obtain hz | ⟨response, hz, ⟨htr, _, hg⟩ | ⟨hnt, _⟩⟩ :=
      tracks.responses (c := c) l.single fun he => l.not_waiting hc he
    case inr.inr => exact absurd ((emitted hz).progresses hnt) hk
    case inl =>
      obtain hp' | ⟨response, _, hm⟩ | hu := tracks.kept h hp
      case inr.inl => rw [← Effect.mem_responses, hz] at hm; contradiction
      case inr.inr => exact absurd hu hnr
      case inl =>
        have hg : d.reqTracker.get r ≠ none := by simp [hp']
        rw [if_pos hp']
        exact .pending hp' (Daemon.handleEvent_idle h hk ht hg hnr) st (by rwa [hsent, hz, List.append_nil])
    case inr.inl =>
      rw [if_neg (hg r)]
      refine .ended hg (by rw [hsent, hz]) htr hr fun b ms he => ?_
      subst he
      cases emitted hz
      case completed p r' id =>
        obtain ⟨_, _, _, ⟨_, _, hf⟩ | ⟨_, _, hf⟩⟩ := Daemon.resourceEnd_spec (Except.ok.inj h)
        case inl => rw [hf] at hz; contradiction
        case inr =>
          obtain ⟨t', c', ht', hg', he⟩ := hf _ <| Effect.mem_responses.mp <| hz ▸ List.mem_singleton.mpr rfl
          cases he
          cases l.single hp hg'
          cases ht.symm.trans ht'
          exact ⟨st.bytes, by rw [st.start]⟩

theorem handled_ended {rs : List ControlResponse} {response : ControlResponse} {m time now : Nat} (l : Linear s)
    (hg : ∀ r, s.daemon.reqTracker.get r ≠ some c) (hs : s.sent c = rs ++ [response]) (ht : response.Terminal)
    (hr : Reported total start chunks rs m time)
    (hco : ∀ b ms, response = .downloadComplete b ms → b = .ofNat (AcceptedChunk.total chunks) ∧ ms = now - start)
    (h : s.daemon.handleEvent env e = .ok (d, fx)) (hc : ∀ c ∈ e.channel, c ∉ s.channels) :
    (s.handled e d fx).Accounts r c total start chunks (some now) := by
  have tracks := Daemon.handleEvent_tracks h
  have hk : c ∉ e.channel := fun he => hc c he (Accounts.ended (r := r) hg hs ht hr hco |>.known l)
  have hz : fx.filterMap (·.responseTo c) = [] := by
    obtain hz | ⟨_, _, ⟨_, ⟨r, hp⟩ | he, _⟩ | ⟨_, r, hp⟩⟩ := tracks.responses (c := c) l.single fun he => absurd he hk
    case inl => exact hz
    case inr.inl.inl | inr.inr => exact absurd hp (hg r)
    case inr.inl.inr => exact absurd he hk
  refine .ended (fun r hp => ?_) (show s.sent c ++ _ = _ by rw [hz, List.append_nil, hs]) ht hr hco
  obtain hp | ⟨he, _⟩ := tracks.pending hp
  case inl => exact hg r hp
  case inr => exact hk he

theorem step (k : s.Accounts r c total start chunks ending) (l : Linear s)
    (hn : ∀ r c, s.daemon.reqTracker.get r = some c → r < s.daemon.reqTracker.nextId) (h : s.step a = some s') :
    s'.Accounts r c total start (chunks ++ (s.accepts r c a).toList) (ending.or <| s.ends r c a) := by
  have turn {m : Monitor} (hq : m.daemon.reqTracker = s.daemon.reqTracker) (ht : m.daemon.transferMgr = s.daemon.transferMgr) :
      Accounts { s with monitor := m } r c total start chunks ending := by
    cases k
    case pending hp ht' st hr    => exact .pending (hq ▸ hp) (ht ▸ ht') st hr
    case ended hg hs htr hr hco  => exact .ended (fun r => hq ▸ hg r) hs htr hr hco
  cases a
  case handle env e =>
    obtain ⟨d, fx, hd, hc, rfl⟩ := step_handle h
    simp only [ends, h, accepts]
    cases k
    case pending hp ht st hr =>
      rw [if_pos hp, Option.none_or]
      simpa [hp, ite_not, handled] using handled_pending l hp (hn _ _ hp) ht st hr hd hc
    case ended hg hs htr hr hco =>
      rw [if_neg (hg r), Option.toList_none, List.append_nil, Option.some_or]
      exact handled_ended l hg hs htr hr hco hd hc
  case writer | detached =>
    obtain ⟨_, _, _, _, ha, _⟩ | ⟨m, _, hq, ht, _, rfl⟩ := step_cases h
    case inl => contradiction
    case inr => simpa [accepts, ends] using turn hq ht

end Accounts

variable [Crypto] {s s₀ s₁ s₂ : Service} {ls : List Action} {env : Env} {r : UInt32} {c : ReplyTo} {total : UInt64}
variable {start : Nat} {chunks : List AcceptedChunk} {ending : Option Nat} {a : Action} {pa ra : String}

-- The chunks that the steps of a run accept for the request `r` of `c`.
def accepted (r : UInt32) (c : ReplyTo) : Service → List Action → List AcceptedChunk
  | _, []      => []
  | s, a :: ls => (s.accepts r c a).toList ++ (s.step a).elim [] (accepted r c · ls)

-- When the steps of a run end the request `r` of `c`.
def endedAt (r : UInt32) (c : ReplyTo) : Service → List Action → Option Nat
  | _, []      => none
  | s, a :: ls => (s.ends r c a).or <| (s.step a).bind (endedAt r c · ls)

theorem step_channels (h : s.step a = some s₁) : s.channels.length ≤ s₁.channels.length := by
  obtain ⟨_, _, _, _, _, _, _, rfl⟩ | ⟨_, _, _, _, _, rfl⟩ := step_cases h
  case inl => simp [handled]
  case inr => exact Nat.le_refl _

theorem run_channels (run : Run system s ls s₁) : s.channels.length ≤ s₁.channels.length := by
  induction run
  case refl        => exact Nat.le_refl _
  case step h _ hi => exact Nat.le_trans (step_channels h) hi

theorem Accounts.run (k : s₁.Accounts r c total start chunks ending) (hr : Reachable system s₁) (run : Run system s₁ ls s₂)
    (hn : s₂.channels.length < 2 ^ 32 - 1) :
    s₂.Accounts r c total start (chunks ++ accepted r c s₁ ls) (ending.or <| endedAt r c s₁ ls) := by
  induction run generalizing chunks ending
  case refl => simpa [accepted, endedAt] using k
  case step s a s' ls s₂ h run hi =>
    have hs : s.channels.length ≤ s'.channels.length := step_channels h
    have hs' := run_channels run
    have attended := Attended.reachable hr (by omega)
    have k' := hi (k.step (Linear.reachable hr) attended.numbers h) (hr.step h) hn
    rw [List.append_assoc, Option.or_assoc] at k'
    simpa only [accepted, endedAt, show s.step a = some s' from h, Option.elim_some, Option.bind_some] using k'

-- A download that has been registered starts with nothing.
theorem accounts_of_registered (l : Linear s₀) (h : s₀.step (.handle env (.controlRequest (.getResource pa ra) c)) = some s₁)
    (hp : s₁.daemon.reqTracker.get r = some c) : ∃ id info, s₀.daemon.aliases.getResource ra = some id ∧
      s₀.daemon.aliases.getInfo id = some info ∧ s₁.Accounts r c info.size env.now [] none := by
  obtain ⟨d, fx, hd, hc, rfl⟩ := step_handle h
  have hnew := l.not_waiting hc (rfl : c ∈ (PeerEvent.controlRequest (.getResource pa ra) c).channel)
  obtain ⟨rfl, _⟩ | ⟨p, id, info, _, ha, hi, _, _, _, hm, hq, hf⟩ := Daemon.getResource_spec (Except.ok.inj hd)
  case inl => exact absurd hp (hnew r)
  case inr =>
    have hp' : d.reqTracker.get r = some c := hp
    rw [hq, RequestTracker.register_get] at hp'
    split at hp'
    case isFalse => exact absurd hp' (hnew r)
    case isTrue hr =>
      refine ⟨id, info, ha, hi, .pending hp (t := s₀.daemon.transfer env p id info.size) (m := 0) ?_ ⟨rfl, rfl, rfl, rfl⟩ ?_⟩
      case refine_1 =>
        show d.transferMgr.transfers.lookup r = _
        rw [hm, TransferManager.register_lookup]
        exact if_pos hr
      case refine_2 =>
        show Reported _ _ _ (s₀.sent c ++ fx.filterMap (·.responseTo c)) 0 _
        rw [l.unknown (hc c rfl), hf]
        exact .none

-- From its registration on, a download is told of as it is: a chunk that comes more than 200 ms after the last report is
-- reported with the bytes accepted so far, those since the last report and the time since then, and the end has all of
-- them and the time that the download took.
theorem reports_exact (hr : Reachable system s₀)
    (h : s₀.step (.handle env (.controlRequest (.getResource pa ra) c)) = some s₁) (hp : s₁.daemon.reqTracker.get r = some c)
    (run : Run system s₁ ls s₂) (hn : s₂.channels.length < 2 ^ 32 - 1) :
    ∃ id info, s₀.daemon.aliases.getResource ra = some id ∧ s₀.daemon.aliases.getInfo id = some info ∧
      s₂.Accounts r c info.size env.now (accepted r c s₁ ls) (endedAt r c s₁ ls) := by
  obtain ⟨id, info, ha, hi, k⟩ := accounts_of_registered (Linear.reachable hr) h hp
  exact ⟨id, info, ha, hi, k.run (hr.step h) run hn⟩

-- A photo that comes in two chunks, the second too soon after the first to be reported.
def offering : List Action := [
  .handle (.fine 0) <| .newConnection Monitor.host,
  .handle (.fine 0) <| .message Monitor.host <| .resourceList 1 [Monitor.photo]
]

def offered : Service :=
  (offering.foldlM (@step .transparent) fresh).getD fresh

def wanting : Action :=
  .handle (.fine 0) <| .controlRequest (.getResource "p1" "r1") 0

def getting : Service :=
  (@step .transparent offered wanting).getD offered

def receiving : List Action := [
  .handle (.fine 300) <| .message Monitor.host <| .resourceChunk 1 Monitor.photo.id 0 [6, 6],
  .handle (.fine 400) <| .message Monitor.host <| .resourceChunk 1 Monitor.photo.id 2 [6],
  .handle (.fine 700) <| .message Monitor.host <| .resourceEnd 1 Monitor.photo.id
]

def received : Service :=
  (receiving.foldlM (@step .transparent) getting).getD getting

omit [Crypto] in
theorem reports_exact_received :
    received.Accounts 1 0 3 0 [⟨300, 2⟩, ⟨400, 1⟩] (some 700) ∧
      received.sent 0 = [.downloadProgress ⟨2, 3, 2, 300⟩, .downloadComplete 3 700] := by
  let _ := Crypto.transparent
  have r₀ : Run system fresh offering offered := .ofFn rfl
  have r : Run system getting receiving received := .ofFn rfl
  obtain ⟨id, info, ha, hi, k⟩ := reports_exact (r₀.reachable <| .init fresh_initial) (rfl : offered.step wanting = some getting)
    (r := 1) (c := 0) (by decide +kernel) r (by decide +kernel)
  cases ha
  cases hi
  have hc : @accepted .transparent 1 0 getting receiving = [⟨300, 2⟩, ⟨400, 1⟩] := by decide +kernel
  have he : @endedAt .transparent 1 0 getting receiving = some 700 := by decide +kernel
  exact ⟨he ▸ hc ▸ k, by decide +kernel⟩

end Service
end Parsip
