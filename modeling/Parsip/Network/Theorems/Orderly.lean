import Parsip.Network.Theorems.Session

-- What every run of a network keeps while all names are plain and no transfer loses its identifier.

namespace Parsip

open PosixPath Transition

-- A name that leads to a place of its own in the directory of the downloads.
def ResourceInfo.Plain (info : ResourceInfo) : Prop :=
  IsName info.name.toList ∧ ¬IsTemp info.name.toList

instance : DecidablePred ResourceInfo.Plain :=
  fun _ => inferInstanceAs (Decidable (_ ∧ _))

namespace Daemon

-- The resource that a client asks for.
def wanted (d : Daemon) : PeerEvent → Option ResourceInfo
  | .controlRequest (.getResource _ resourceAlias) _ => d.aliases.getResource resourceAlias |>.bind d.aliases.getInfo
  | _                                                => none

-- What is asked for has a plain name.
def Plain (d : Daemon) (e : PeerEvent) : Prop :=
  ∀ info ∈ d.wanted e, info.Plain

-- Nothing is asked for under the identifier of a transfer that is not over.
def Fresh (d : Daemon) (e : PeerEvent) : Prop :=
  (d.wanted e).isSome → d.transferMgr.transfers.lookup d.reqTracker.nextId = none

instance {d : Daemon} : DecidablePred d.Plain :=
  fun _ => inferInstanceAs (Decidable (∀ _ ∈ _, _))

instance {d : Daemon} : DecidablePred d.Fresh :=
  fun _ => inferInstanceAs (Decidable (_ → _))

end Daemon

namespace Monitor

-- Nothing has gone wrong at a daemon, and every download goes to a place of its own.
structure Clean (m : Monitor) : Prop where
  traced    : m.Traced
  owned     : m.Owned
  joined    : m.daemon.storage.detached = []
  downloads : ∀ {id d}, m.daemon.downloadMgr.downloads.lookup id = some d → d.writer.exit = none ∧ d.info.Plain

namespace Clean

variable {m m' : Monitor} {env : Env} {fx : List Effect} {e : PeerEvent} {id : ResourceId} {d : ActiveDownload}

theorem init (h : m.Initial) : m.Clean where
  traced := .init h
  owned  := .init h
  joined := by obtain ⟨_, _, _, rfl⟩ := h; rfl
  downloads hd := by
    obtain ⟨_, _, _, rfl⟩ := h
    simp [Daemon.new, DownloadManager.new] at hd

theorem completes (c : m.Clean) (hd : m.daemon.downloadMgr.downloads.lookup id = some d) :
    m.daemon.downloadMgr.Completes m.daemon.storage .none id :=
  c.traced.holds.completes hd (c.downloads hd).left

theorem accepts (c : m.Clean) (hd : m.daemon.downloadMgr.downloads.lookup id = some d) : m.daemon.downloadMgr.Accepts id :=
  ⟨d, hd, (c.downloads hd).left⟩

-- No file is moved to where another download has its own.
theorem finalPath_ne (c : m.Clean) (hd : m.daemon.downloadMgr.downloads.lookup id = some d) {id' : ResourceId} :
    resolve (m.daemon.downloadMgr.finalPath d.info) ≠ resolve (m.daemon.downloadMgr.tempPath id') :=
  have ⟨hn, ht⟩ := (c.downloads hd).right
  DownloadManager.finalPath_ne_tempPath hn ht

theorem handle (c : m.Clean) (h : m.Handles env fx m' e) (ha : m.Attributed (.handle env e)) (hp : m.daemon.Plain e)
    (he : ∀ p, e ≠ .disconnected p) : m'.Clean := by
  refine ⟨c.traced.handle c.owned h ha, c.owned.handle h, ?_, fun {id d'} hd' => ?_⟩
  case refine_1 =>
    cases h
    case quiet hs _ _ | refused hs _ => exact hs.storage ▸ c.joined
    case list hs _ _ _               => exact hs ▸ c.joined
    case accepted hs _ _ _           => exact hs ▸ c.joined
    case notStarted hm _ _           => exact hm ▸ c.joined
    case disconnected                => exact absurd rfl (he _)
    case failed hc _ _ _ _ | completed hc _ _ _ _ =>
      obtain ⟨_, _, _, hs⟩ | ⟨_, _, _, _, _, _, hs, _⟩ := DownloadManager.completeDownload_cases hc
      case inl => exact hs ▸ c.joined
      case inr => exact hs.trans c.joined
    case started hs _ _ _ _ _ =>
      obtain ⟨_, h, _⟩ | ⟨_, _, _, _, _, _, hs⟩ := DownloadManager.startDownload_cases hs
      case inl => contradiction
      case inr => rw [hs]; exact c.joined
  case refine_2 =>
    cases h
    case quiet hs _ _ | refused hs _ => exact c.downloads (hs.downloadMgr ▸ hd')
    case list hm _ _ _ _             => exact c.downloads (hm ▸ hd')
    case notStarted hm _ _           => exact c.downloads (hm ▸ hd')
    case disconnected                => exact absurd rfl (he _)
    case failed hc _ _ _ _ | completed hc _ _ _ _ =>
      rw [DownloadManager.completeDownload_lookup hc, Option.ite_none_left_eq_some] at hd'
      exact c.downloads hd'.right
    case accepted hd _ hm _ _ _ _ =>
      rw [hm] at hd'
      obtain ⟨_, rfl⟩ | ⟨_, hd'⟩ := DownloadManager.put_cases hd'
      case inl => exact ⟨(c.downloads hd).left, (c.downloads hd).right⟩
      case inr => exact c.downloads hd'
    case started hr hi hs _ _ _ _ _ =>
      obtain ⟨_, h, _⟩ | ⟨_, _, _, _, _, hm, _⟩ := DownloadManager.startDownload_cases hs
      case inl => contradiction
      case inr =>
        rw [hm] at hd'
        obtain ⟨_, rfl⟩ | ⟨_, hd'⟩ := DownloadManager.put_cases hd'
        case inl => exact ⟨rfl, hp _ <| Option.bind_eq_some_iff.mpr ⟨_, hr, hi⟩⟩
        case inr => exact c.downloads hd'

-- A writer thread that does not fail takes a turn.
theorem writer [Crypto] (c : m.Clean) (h : m.step (.writer id .none) = some m') : m'.Clean ∧
    m'.log = m.log ∧ m'.daemon.transferMgr = m.daemon.transferMgr ∧
    ∀ {id d}, m.daemon.downloadMgr.downloads.lookup id = some d →
      ∃ d', m'.daemon.downloadMgr.downloads.lookup id = some d' := by
  have ht := c.traced.step c.owned h trivial
  have ho := c.owned.step h
  obtain ⟨download, writer, disk, hd, hw, rfl⟩ := step_writer h
  have ⟨hx, hp⟩ := c.downloads hd
  have hx' : writer.exit = none := by
    obtain r | ⟨e, he⟩ := c.traced.holds.written hd
    case inr => rw [hx] at he; contradiction
    case inl =>
      obtain r | ⟨hf, _⟩ := r.turn hw
      case inl => exact r.running
      case inr => exact absurd rfl hf
  refine ⟨⟨ht, ho, c.joined, fun {id d'} hd' => ?_⟩, rfl, rfl, fun {id d} h => ?_⟩
  case refine_1 =>
    obtain ⟨_, rfl⟩ | ⟨_, hd'⟩ := DownloadManager.put_cases hd'
    case inl => exact ⟨hx', hp⟩
    case inr => exact c.downloads hd'
  case refine_2 =>
    rw [DownloadManager.put_lookup]
    split
    case isTrue  => exact ⟨_, rfl⟩
    case isFalse => exact ⟨_, h⟩

end Clean
end Monitor

namespace Network

-- A condition on each event that a loop takes.
def Taking {κ : Type} (P : Daemon → PeerEvent → Prop) (host : PeerId → Host) : Label κ → Prop
  | .loop a _ => ∀ e ∈ (host a).events.head?, P (host a).monitor.daemon e
  | _         => True

instance {κ : Type} {P : Daemon → PeerEvent → Prop} [∀ d e, Decidable (P d e)] {host : PeerId → Host} :
    (l : Label κ) → Decidable (Taking P host l)
  | .loop a _ => inferInstanceAs (Decidable (∀ e ∈ (host a).events.head?, P (host a).monitor.daemon e))
  | .connect .. | .post .. | .writer .. | .read .. | .link .. => .isTrue trivial

variable {κ : Type} {c : Channel Message κ} {n : Network c}
variable {s s' : Queued} {a b x p q : PeerId} {e : PeerEvent} {r : UInt32} {id : ResourceId} {m : Message}
variable {events : List PeerEvent} {d : Daemon} {fx : List Effect} {env : Env} {m' : Monitor} {u : Upload} {i : Nat}

-- Effects change nothing about a host but its uploads.
theorem performAll_preserves {α : Type} (k : Host → α) (hk : ∀ h us, k { h with uploads := us } = k h) :
    k ((n.performAll a fx).host x) = k (n.host x) := by
  induction fx generalizing n
  case nil => rfl
  case cons f fx hi =>
    refine hi.trans ?_
    cases f
    case send   => exact congrArg (k <| · x) send_host
    case upload => exact setHost_preserves k (hk ..)
    case respond | connect | scanTimer => rfl

theorem post_monitor : ((n.post a e).host x).monitor = (n.host x).monitor :=
  setHost_preserves Host.monitor rfl

theorem mem_post_events {e' : PeerEvent} (h : e' ∈ ((n.post a e).host x).events) : e' ∈ (n.host x).events ∨ e' = e := by
  by_cases hx : x = a
  case neg => rw [post, setHost_host_of_ne hx] at h; exact .inl h
  case pos =>
    subst hx
    simpa [post] using h

-- Every daemon is clean, and every request is where its transfer says.
structure Orderly (s : Queued) : Prop where
  clean    : ∀ a, (s.host a).monitor.Clean
  lasting  : ∀ {a p}, .disconnected p ∉ (s.host a).events
  sessions : ∀ a r, (s.host a).monitor.Session (s.traffic a r) a r

namespace Orderly

theorem init (h : Initial s) : Orderly s := by
  obtain ⟨hh, hl, _⟩ := h
  have idle a r q : (s.traffic a r).Idle q := by
    have ⟨_, he, _, _⟩ := hh a
    have ⟨_, he', hu, _⟩ := hh q
    constructor <;> simp [traffic, underway, he, he', hu, hl]
  refine ⟨fun a => .init (hh a).left, fun {a p} => by simp [(hh a).right.left], fun a r => ⟨fun ht => ?_, fun q _ => idle a r q⟩⟩
  obtain ⟨_, _, _, hm⟩ := (hh a).left
  rw [hm] at ht
  simp [Daemon.new, TransferManager.new] at ht

-- What comes for the download of a transfer comes for the request of the transfer.
theorem answers (o : Orderly s) (he : (s.host a).events = e :: events) {t : Transfer}
    (ht : (s.host a).monitor.daemon.transferMgr.transfers.lookup r = some t) (hb : e.Brings t.resourceId) :
    ∃ p m, e = .message p m ∧ m.Answers r = true := by
  have own {r' : UInt32} {t' : Transfer} (ht' : (s.host a).monitor.daemon.transferMgr.transfers.lookup r' = some t')
      (hi : t'.resourceId = t.resourceId) : r' = r := by
    by_contra hr
    exact (o.sessions a r').resource_ne (o.sessions a r) hr ht' ht hi
  cases e <;> try contradiction
  case message p m =>
    cases m <;> try contradiction
    case resourceChunk r' id off data =>
      have ⟨ms, h⟩ := answers_cons he Message.answers_chunk
      obtain ⟨t', ht', _, hi, _⟩ := (o.sessions a r').chunk h
      obtain rfl := own ht' (hi.trans hb)
      exact ⟨p, _, rfl, Message.answers_chunk⟩
    case resourceEnd r' id =>
      have ⟨ms, h⟩ := answers_cons he Message.answers_end
      obtain ⟨t', ht', _, hi, _⟩ := (o.sessions a r').ended h
      obtain rfl := own ht' (hi.trans hb)
      exact ⟨p, _, rfl, Message.answers_end⟩

theorem attributed (o : Orderly s) (he : (s.host a).events = e :: events) :
    (s.host a).monitor.Attributed (.handle (s.env a env) e) := by
  cases e <;> try trivial
  case controlRequest cmd _ =>
    cases cmd <;> try trivial
    case getResource =>
      intro _ _ _ hw
      rw [(o.clean a).joined] at hw
      contradiction
  case message p m =>
    cases m <;> try trivial
    case resourceChunk r id off data =>
      have ⟨ms, h⟩ := answers_cons he Message.answers_chunk
      have ⟨_, _, _, _, ha, ho⟩ := (o.sessions a r).chunk h
      exact fun _ => ⟨ha, ho⟩
    case resourceEnd r id =>
      have ⟨ms, h⟩ := answers_cons he Message.answers_end
      obtain ⟨t, hl, rfl, rfl, run, _⟩ := (o.sessions a r).ended h
      exact fun _ => ⟨fun t' ht => by cases hl.symm.trans ht; exact ⟨rfl, run.asked⟩, fun hd _ _ => (o.clean a).finalPath_ne hd⟩

theorem lasts (o : Orderly s) (he : (s.host a).events = e :: events) : ∀ p, e ≠ .disconnected p :=
  fun p hp => o.lasting (a := a) (p := p) <| by simp [he, hp]

-- A request that the event is not about.
theorem other (o : Orderly s) (he : (s.host a).events = e :: events) (hm : (s.host a).monitor.Handles env fx m' e)
    (hr : x = a → ∀ {p m}, e = .message p m → m.Answers r = false)
    (hf : x = a → ∀ {p id}, .send p (.downloadResource r id) ∉ fx) :
    Monitor.Session (if x = a then m' else (s.host x).monitor) (s.traffic x r) x r := by
  split
  case isFalse   => exact o.sessions x r
  case isTrue hx =>
    subst hx
    refine (o.sessions x r).transfer (hm.lookup (o.lasts he) (hr rfl) (hf rfl)) (fun {t} ht => ?_) ⟨rfl, rfl, rfl, fun _ _ h => h⟩
    have ⟨_, hl⟩ := ((o.sessions x r).running ht).download
    refine hm.keeps (o.clean x).owned (o.lasts he) (fun hb => ?_) hl
    obtain ⟨p, m, rfl, ha⟩ := o.answers he ht hb
    rw [hr rfl rfl] at ha
    contradiction

-- What is left to show after an event.
theorem handled (o : Orderly s) (he : (s.host a).events = e :: events) (hp : (s.host a).monitor.daemon.Plain e)
    (hm : (s.host a).monitor.Handles (s.env a env) fx m' e)
    (hl : m'.log = (s.host a).monitor.log.record (s.host a).monitor.daemon e fx)
    (hs : ∀ x r, Monitor.Session (if x = a then m' else (s.host x).monitor)
      (((s.handled a e events m'.daemon fx).performAll a fx).traffic x r) x r) :
    Orderly ((s.handled a e events m'.daemon fx).performAll a fx) := by
  have hh x : (((s.handled a e events m'.daemon fx).performAll a fx).host x).monitor =
      if x = a then m' else (s.host x).monitor := by
    rw [performAll_preserves Host.monitor fun _ _ => rfl]
    split
    case isTrue h  => rw [h, Network.handled, setHost_host_self, ← hl]
    case isFalse h => rw [Network.handled, setHost_host_of_ne h]
  refine ⟨fun x => ?_, fun {x p} => ?_, fun x r => hh x ▸ hs x r⟩
  case refine_1 =>
    rw [hh]
    split
    case isTrue  => exact (o.clean a).handle hm (o.attributed he) hp (o.lasts he)
    case isFalse => exact o.clean x
  case refine_2 =>
    rw [performAll_preserves Host.events fun _ _ => rfl]
    by_cases hx : x = a
    case neg => rw [Network.handled, setHost_host_of_ne hx]; exact o.lasting
    case pos =>
      subst hx
      rw [Network.handled, setHost_host_self]
      exact fun h => o.lasting (he ▸ List.mem_cons_of_mem _ h)

-- Nothing happens to the daemons.
theorem keep (o : Orderly s) (hm : ∀ x, (s'.host x).monitor = (s.host x).monitor)
    (he : ∀ x p, .disconnected p ∈ (s'.host x).events → .disconnected p ∈ (s.host x).events)
    (hs : ∀ x r, (s.host x).monitor.Session (s'.traffic x r) x r) : Orderly s' :=
  ⟨fun x => hm x ▸ o.clean x, fun {x p} h => o.lasting (he x p h), fun x r => hm x ▸ hs x r⟩

-- A thread that serves another request goes on or ends.
theorem turned_other {v : Option Upload} {us : List Upload} (o : Orderly s) (hu : (s.host a).uploads[i]? = some u)
    (hk : u.Serves x r = false) (hv : ∀ u' ∈ v, u'.Serves x r = false) :
    (s.host x).monitor.Session ((s.turned a i v us).traffic x r) x r := by
  rw [traffic_turned_of_not hu hk hv]
  refine (o.sessions x r).transfer rfl (fun _ => ⟨fun h => ⟨_, h⟩, rfl, rfl⟩) ⟨rfl, rfl, rfl, fun q => ?_⟩
  simp only [traffic, turned_finished]
  split
  case isTrue  => exact List.subset_append_left ..
  case isFalse => exact fun _ h => h

theorem turned_own {v : Option Upload} (us : List Upload) (o : Orderly s) (hu : (s.host a).uploads[i]? = some u)
    (hv : ∀ u' ∈ v, u'.Serves u.target u.requestId = true) :
    (s.traffic u.target u.requestId).threads a = [u] ∧ (s.turned a i v us).traffic u.target u.requestId =
      { s.traffic u.target u.requestId with
        threads  := Function.update (s.traffic u.target u.requestId).threads a v.toList
        finished := ((s.turned a i v us).traffic u.target u.requestId).finished } := by
  have hk : u.Serves u.target u.requestId = true := decide_eq_true ⟨rfl, rfl⟩
  have hm : u ∈ (s.traffic u.target u.requestId).threads a := List.mem_filter.mpr ⟨List.mem_of_getElem? hu, hk⟩
  have ha := (o.sessions u.target u.requestId).alone hm
  exact ⟨ha, (traffic_turned hu hk hv ha).right⟩

-- A thread goes on or ends, and sends nothing.
theorem turned {v : Option Upload} {us : List Upload} (o : Orderly s) (hu : (s.host a).uploads[i]? = some u)
    (hv : ∀ u' ∈ v, u'.target = u.target ∧ u'.requestId = u.requestId)
    (hs : ∀ {id accepted k}, k = s.traffic u.target u.requestId → k.threads a = [u] → k.Stage u.target a u.requestId id accepted →
      Traffic.Stage { k with
        threads  := Function.update k.threads a v.toList
        finished := ((s.turned a i v us).traffic u.target u.requestId).finished } u.target a u.requestId id accepted) :
    Orderly (s.turned a i v us) := by
  have hv' {x r} : ∀ u' ∈ v, u'.Serves x r = u.Serves x r := fun u' h => by simp only [Upload.Serves, hv u' h]
  refine o.keep (fun x => turned_monitor) (fun x p h => by rwa [turned_events] at h) fun x r => ?_
  cases hk : u.Serves x r
  case false => exact o.turned_other hu hk fun u' h => (hv' u' h).trans hk
  case true =>
    obtain ⟨rfl, rfl⟩ := of_decide_eq_true hk
    obtain ⟨ha, ht⟩ := o.turned_own us hu fun u' h => (hv' u' h).trans hk
    exact ht ▸ (o.sessions _ _).turn ha (fun q hq => ⟨rfl, by simp [hq], rfl⟩) (hs rfl ha)

-- A thread goes on or ends, and sends a part of the answer.
theorem sends {v : Option Upload} {us : List Upload} (o : Orderly s) (hu : (s.host a).uploads[i]? = some u)
    (hv : ∀ u' ∈ v, u'.target = u.target ∧ u'.requestId = u.requestId) (hc : s.connected a u.target)
    (hm : ∀ r, m.Answers r = decide (r = u.requestId)) (hn : ∀ r, m.Asks r = false)
    (hs : ∀ {id accepted k}, k = s.traffic u.target u.requestId → k.threads a = [u] → k.Stage u.target a u.requestId id accepted →
      Traffic.Stage { k with
        threads  := Function.update k.threads a v.toList
        answers  := Function.update k.answers a (k.answers a ++ [m])
        finished := ((s.turned a i v us).traffic u.target u.requestId).finished } u.target a u.requestId id accepted) :
    Orderly ((s.turned a i v us).send a u.target m) := by
  have hv' {x r} : ∀ u' ∈ v, u'.Serves x r = u.Serves x r := fun u' h => by simp only [Upload.Serves, hv u' h]
  refine o.keep (fun x => by rw [send_host, turned_monitor]) (fun x p h => by rwa [send_host, turned_events] at h) fun x r => ?_
  rw [traffic_answer (s := s.turned a i v us) hc hm hn]
  cases hk : u.Serves x r
  case false =>
    rw [if_neg fun h => of_decide_eq_false hk ⟨h.left.symm, h.right.symm⟩]
    exact o.turned_other hu hk fun u' h => (hv' u' h).trans hk
  case true =>
    obtain ⟨rfl, rfl⟩ := of_decide_eq_true hk
    obtain ⟨ha, ht⟩ := o.turned_own us hu fun u' h => (hv' u' h).trans hk
    rw [if_pos ⟨rfl, rfl⟩, ht]
    exact (o.sessions _ _).turn ha (fun q hq => ⟨rfl, by simp [hq], by simp [hq]⟩) (hs rfl ha)

theorem read {result : Except Error Bytes} (o : Orderly s) (hu : (s.host a).uploads[i]? = some u)
    (h : s.readTurn a i u result = some s') : Orderly s' := by
  have stop us : Orderly (s.turned a i none us) := o.turned hu nofun fun _ ha h => h.stop ha
  have gone : s.setHost a ((s.host a).setUpload i none) = s.turned a i none [] := by simp [Network.turned]
  simp only [readTurn] at h
  split at h
  case h_1 => cases h; exact gone ▸ stop []
  case h_2 data =>
    split at h
    case isTrue hd =>
      cases h
      show Orderly ((s.turned a i none [u]).send a u.target _)
      by_cases hc : s.connected a u.target
      case neg => rw [send_of_not_connected (s := s.turned a i none [u]) hc]; exact stop [u]
      case pos =>
        refine o.sends hu nofun hc (fun r => ?_) (fun _ => rfl) fun _ ha h => h.finish ha ?_
        case refine_1 => exact decide_eq_decide.mpr eq_comm
        case refine_2 => simp [traffic, turned_finished]
    case isFalse hd =>
      split at h
      case isFalse => contradiction
      case isTrue hr =>
        split at h <;> cases h
        case isFalse => exact gone ▸ stop []
        case isTrue hc =>
          have go : s.setHost a ((s.host a).setUpload i (u.advance data)) = s.turned a i (some (u.advance data)) [] := by
            simp [Network.turned]
          rw [go]
          refine o.sends hu (fun v hv => ?_) hc (fun r => ?_) (fun _ => rfl) fun _ ha h => h.advance ha hr hd
          case refine_1 => cases hv; exact ⟨rfl, rfl⟩
          case refine_2 => exact decide_eq_decide.mpr eq_comm

variable [Crypto]

-- The event loop takes a request.
theorem asked (o : Orderly s) (he : (s.host a).events = .message p (.downloadResource r id) :: events)
    (hd : (s.host a).monitor.daemon.handleEvent (s.env a env) (.message p (.downloadResource r id)) = .ok (d, fx)) :
    Orderly ((s.handled a (.message p (.downloadResource r id)) events d fx).performAll a fx) := by
  have hm := @Monitor.handles _ ⟨d, (s.host a).monitor.log.record (s.host a).monitor.daemon _ fx⟩ _ _ _ _ hd rfl
  have ⟨_, hf⟩ := Daemon.downloadResource_spec (Except.ok.inj hd)
  refine o.handled he (by simp [Daemon.Plain, Daemon.wanted]) hm rfl fun x r' => ?_
  have base := o.other (x := x) (r := r') he hm (fun _ {_ _} h => by cases h; rfl)
    fun _ {_ _} h => by obtain rfl | ⟨_, rfl⟩ := hf <;> simp at h
  by_cases hx : x = p ∧ r' = r
  case pos =>
    obtain ⟨rfl, rfl⟩ := hx
    obtain ⟨ms, h, ht⟩ : ∃ ms, _ ∧ (s.handled a _ events d fx).traffic x r' = _ := traffic_asked he (decide_eq_true rfl) rfl
    obtain rfl | ⟨path, rfl⟩ := hf
    case inl => simpa [performAll, ht, Function.update_eq_self] using base.serve h (.inl rfl)
    case inr =>
      simp only [performAll, List.foldl_cons, List.foldl_nil, traffic_upload, and_self, if_true, ht]
      exact base.serve h (.inr rfl)
  case neg =>
    have ht : (s.handled a (.message p (.downloadResource r id)) events d fx).traffic x r' = s.traffic x r' := by
      refine traffic_handled_of_not he fun {_ _} h => ?_
      cases h
      exact ⟨fun hp => decide_eq_false fun hr => hx ⟨hp, hr.symm⟩, fun _ => rfl⟩
    obtain rfl | ⟨path, rfl⟩ := hf
    case inl => exact ht ▸ base
    case inr =>
      simp only [performAll, List.foldl_cons, List.foldl_nil, traffic_upload, if_neg hx, ht]
      exact base

-- Events that neither are requests nor make one go out.
theorem quiet (o : Orderly s) (he : (s.host a).events = e :: events) (hp : (s.host a).monitor.daemon.Plain e)
    (hd : (s.host a).monitor.daemon.handleEvent (s.env a env) e = .ok (d, fx)) (hf : ∀ f ∈ fx, ¬f.Moves)
    (hn : ∀ {p r id}, e ≠ .message p (.downloadResource r id)) :
    Orderly ((s.handled a e events d fx).performAll a fx) := by
  have hm := @Monitor.handles _ ⟨d, (s.host a).monitor.log.record (s.host a).monitor.daemon _ fx⟩ _ _ _ _ hd rfl
  have hf' {p r id} : .send p (.downloadResource r id) ∉ fx := fun h => hf _ h trivial
  have ha {p m r} (h : e = .message p m) : m.Asks r = false := by
    cases m <;> try rfl
    exact absurd h hn
  refine o.handled he hp hm rfl fun x r => ?_
  rw [traffic_performAll hf]
  by_cases hx : x = a ∧ ∃ p m, e = .message p m ∧ m.Answers r = true
  case neg =>
    have hr (hx' : x = a) {p m} (h : e = .message p m) : m.Answers r = false :=
      Bool.eq_false_iff.mpr fun hr => hx ⟨hx', p, m, h, hr⟩
    rw [traffic_handled_of_not he fun h => ⟨fun _ => ha h, fun hx => hr hx h⟩]
    exact o.other he hm hr fun _ => hf'
  case pos =>
    obtain ⟨rfl, p, m, rfl, hr⟩ := hx
    obtain ⟨ms, h⟩ := answers_cons he hr
    rw [if_pos rfl, traffic_answered he hr (ha rfl) h]
    cases m <;> simp only [Message.Answers, Bool.false_eq_true, decide_eq_true_eq] at hr
    case resourceChunk r' id off data =>
      subst hr
      obtain ⟨t, hl, rfl, rfl, _⟩ := (o.sessions x r').chunk h
      obtain ⟨_, hd⟩ := ((o.sessions x r').running hl).download
      exact (o.sessions x r').accept h ((o.clean x).accepts hd) hm
    case resourceEnd r' id =>
      subst hr
      obtain ⟨t, hl, rfl, rfl, run, _⟩ := (o.sessions x r').ended h
      obtain ⟨_, hd⟩ := run.download
      exact (o.sessions x r').finish h ((o.clean x).completes hd) hm

-- A client asks for a resource.
theorem requested {pa ra : String} {c : ReplyTo} (o : Orderly s)
    (he : (s.host a).events = .controlRequest (.getResource pa ra) c :: events)
    (hp : (s.host a).monitor.daemon.Plain (.controlRequest (.getResource pa ra) c))
    (hn : (s.host a).monitor.daemon.Fresh (.controlRequest (.getResource pa ra) c))
    (hd : (s.host a).monitor.daemon.handleEvent (s.env a env) (.controlRequest (.getResource pa ra) c) = .ok (d, fx)) :
    Orderly ((s.handled a (.controlRequest (.getResource pa ra) c) events d fx).performAll a fx) := by
  have hm := @Monitor.handles _ ⟨d, (s.host a).monitor.log.record (s.host a).monitor.daemon _ fx⟩ _ _ _ _ hd rfl
  obtain ⟨_, _, rfl⟩ | ⟨p, id, _, _, hr, hi, _, _, _, _, _, rfl⟩ := Daemon.getResource_spec (Except.ok.inj hd)
  case inl =>
    refine o.quiet he hp hd (fun f hf => ?_) nofun
    obtain rfl := List.mem_singleton.mp hf
    exact id
  case inr =>
    refine o.handled he hp hm rfl fun x r => ?_
    have hn := hn <| Option.isSome_iff_exists.mpr ⟨_, Option.bind_eq_some_iff.mpr ⟨_, hr, hi⟩⟩
    have ht fx : (s.handled a _ events d fx).traffic x r = s.traffic x r := traffic_handled_of_not he nofun
    simp only [performAll, List.foldl_cons, List.foldl_nil, perform]
    obtain ⟨ms, hms, hs⟩ := @traffic_request (s.handled a _ events d [.send p (.downloadResource _ id)]) a p x
      (s.host a).monitor.daemon.reqTracker.nextId r id
    rw [hs]
    by_cases hx : x = a ∧ r = (s.host a).monitor.daemon.reqTracker.nextId
    case neg =>
      rw [if_neg hx, ht]
      refine o.other he hm (fun _ {_ _} h => nomatch h) fun hx' {_ _} h => ?_
      cases List.mem_singleton.mp h
      exact hx ⟨hx', rfl⟩
    case pos =>
      obtain ⟨rfl, rfl⟩ := hx
      rw [if_pos rfl, if_pos ⟨rfl, rfl⟩, ht]
      exact (o.sessions x _).start (o.clean x).owned hn hm hms

-- The event loop handles any event.
theorem loop (o : Orderly s) (he : (s.host a).events = e :: events) (hp : (s.host a).monitor.daemon.Plain e)
    (hn : (s.host a).monitor.daemon.Fresh e) (hd : (s.host a).monitor.daemon.handleEvent (s.env a env) e = .ok (d, fx)) :
    Orderly ((s.handled a e events d fx).performAll a fx) := by
  have quiet (hs : ¬e.Starts) : Orderly ((s.handled a e events d fx).performAll a fx) :=
    o.quiet he hp hd (fun f hf => (Daemon.handleEvent_emits hd hf).not_moves hs) fun h => hs (h ▸ trivial)
  cases e
  case message p m =>
    cases m
    case downloadResource => exact o.asked he hd
    all_goals exact quiet id
  case controlRequest cmd _ =>
    cases cmd
    case getResource => exact o.requested he hp hn hd
    all_goals exact quiet id
  all_goals exact quiet id

theorem step {l : Label Unit} (o : Orderly s) (h : s.step l = some s')
    (hp : Taking (fun d e => d.Plain e ∧ d.Fresh e) s.host l) : Orderly s' := by
  cases l <;> simp only [Network.step] at h
  case connect =>
    split at h <;> cases h
    exact o.keep (fun _ => rfl) (fun _ _ h => h) o.sessions
  case post a e =>
    split at h <;> cases h
    case h_3 hm hd =>
      have hn x : e.messageFrom x = none := by
        cases e <;> try rfl
        exact absurd rfl (hm _ _)
      refine o.keep (fun _ => post_monitor) (fun x p h => ?_) fun x r => by rw [traffic_post hn]; exact o.sessions x r
      exact (mem_post_events h).resolve_right fun he => hd _ he.symm
  case loop a env =>
    split at h
    case h_1 => contradiction
    case h_2 e events he =>
      split at h <;> cases h
      obtain ⟨hp, hn⟩ := hp e (by simp [he])
      exact o.loop he hp hn ‹_›
  case writer a id =>
    obtain ⟨d, hd, rfl⟩ := Option.map_eq_some_iff.mp h
    have hw : (s.host a).monitor.step (.writer id .none) = some { (s.host a).monitor with daemon := d } := by
      simp [Monitor.step, hd]
    obtain ⟨hc, hl, ht, hk⟩ := (o.clean a).writer hw
    let k : Host := { s.host a with monitor := { (s.host a).monitor with daemon := d } }
    have he {x} : ((s.setHost a k).host x).events = (s.host x).events := setHost_preserves Host.events rfl
    have ht' {x r} : (s.setHost a k).traffic x r = s.traffic x r := traffic_setHost rfl rfl rfl
    refine ⟨fun x => ?_, fun {x p} h => o.lasting (he ▸ h), fun x r => ?_⟩
    case refine_1 =>
      by_cases hx : x = a
      case pos => rw [hx, setHost_host_self]; exact hc
      case neg => rw [setHost_host_of_ne hx]; exact o.clean x
    case refine_2 =>
      rw [ht']
      by_cases hx : x = a
      case neg => rw [setHost_host_of_ne hx]; exact o.sessions x r
      case pos =>
        rw [hx, setHost_host_self]
        exact (o.sessions a r).transfer (by rw [ht]) (fun _ => ⟨hk, hl ▸ rfl, hl ▸ rfl⟩) ⟨rfl, rfl, rfl, fun _ _ h => h⟩
  case read a i result =>
    split at h
    case h_1 u hu => exact o.read hu h
    case h_2      => contradiction
  case link a b k =>
    cases hl : s.link a b <;> simp only [hl, Option.some.injEq, reduceCtorEq] at h
    case cons m ms =>
      subst h
      refine o.keep (fun _ => post_monitor) (fun x p h => ?_) fun x r => by rw [traffic_deliver hl]; exact o.sessions x r
      exact (mem_post_events h).resolve_right (by simp)

theorem reachable (r : Reachable ((system Channel.queue).restrict fun s l =>
    Taking (fun d e => d.Plain e ∧ d.Fresh e) s.host l) s) : Orderly s := by
  induction r
  case init h    => exact .init h
  case step h hi => exact hi.step h.left h.right

end Orderly

end Network
end Parsip
