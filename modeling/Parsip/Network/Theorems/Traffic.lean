import Parsip.Daemon.Theorems.EventHandler
import Parsip.Network.Basic

-- What is underway for a request in a network over plain queues, and how the steps of the network
-- change that.

namespace Parsip

def PeerEvent.messageFrom (p : PeerId) : PeerEvent → Option Message
  | .message q m => if q = p then some m else none
  | _            => none

namespace Message

def Asks (r : UInt32) : Message → Bool
  | .downloadResource r' _ => r' = r
  | _                      => false

def Answers (r : UInt32) : Message → Bool
  | .resourceChunk r' .. | .resourceEnd r' _ => r' = r
  | _                                        => false

theorem not_asks {m : Message} {r : UInt32} (h : ¬m.Moves) : m.Asks r = false := by
  cases m <;> first | rfl | exact absurd trivial h

theorem not_answers {m : Message} {r : UInt32} (h : ¬m.Moves) : m.Answers r = false := by
  cases m <;> first | rfl | exact absurd trivial h

theorem answers_chunk {r : UInt32} {id : ResourceId} {off : UInt64} {data : Bytes} :
    (Message.resourceChunk r id off data).Answers r = true :=
  decide_eq_true rfl

theorem answers_end {r : UInt32} {id : ResourceId} : (Message.resourceEnd r id).Answers r = true :=
  decide_eq_true rfl

end Message

def Upload.Serves (a : PeerId) (r : UInt32) (u : Upload) : Bool :=
  u.target = a ∧ u.requestId = r

-- For a request of one daemon and by the other one: the request itself underway, the threads that serve
-- it and what they have sent that is underway. `finished` are all uploads that have come to their end.
@[ext]
structure Traffic where
  asks : PeerId → List Message
  threads : PeerId → List Upload
  answers : PeerId → List Message
  finished : PeerId → List Upload

namespace Network

abbrev Queued :=
  Network (Channel.queue : Channel Message Unit)

-- Messages from `a` to `b` that the event loop of `b` has not handled yet, the oldest one first.
def underway (s : Queued) (a b : PeerId) : List Message :=
  (s.host b).events.filterMap (·.messageFrom a) ++ s.link a b

-- What is underway for the request `r` of `a`.
def traffic (s : Queued) (a : PeerId) (r : UInt32) : Traffic where
  asks q     := (s.underway a q).filter (·.Asks r)
  threads q  := (s.host q).uploads.filter (·.Serves a r)
  answers q  := (s.underway q a).filter (·.Answers r)
  finished q := (s.host q).finished

variable {κ : Type} {c : Channel Message κ} {n n' : Network c}
variable {s s' : Queued} {a b x y p q : PeerId} {h : Host} {m : Message} {e : PeerEvent} {r r' : UInt32}
variable {f : Effect} {fx : List Effect} {events : List PeerEvent} {d : Daemon}

@[simp] theorem setHost_host_self : (n.setHost a h).host a = h := Function.update_self ..
@[simp] theorem setHost_link : (n.setHost a h).link = n.link := rfl
@[simp] theorem setHost_connected : (n.setHost a h).connected = n.connected := rfl

theorem setHost_host_of_ne (hx : x ≠ a) : (n.setHost a h).host x = n.host x :=
  Function.update_of_ne hx ..

-- What a host keeps, all hosts keep.
theorem setHost_preserves {α : Type} (k : Host → α) (hk : k h = k (n.host a)) :
    k ((n.setHost a h).host x) = k (n.host x) := by
  by_cases hx : x = a
  case pos => rw [hx, setHost_host_self, hk]
  case neg => rw [setHost_host_of_ne hx]

@[simp]
theorem send_host : (n.send a b m).host = n.host := by
  simp only [send]
  split <;> rfl

theorem link_send : (s.send a b m).link x y =
    s.link x y ++ if x = a ∧ y = b ∧ s.connected a b then [m] else [] := by
  simp only [send]
  split
  case isFalse hc => simp [hc]
  case isTrue hc =>
    simp only [setLink, hc, and_true]
    by_cases hx : x = a
    case neg => simp [hx]
    case pos =>
      subst hx
      by_cases hy : y = b
      case neg => simp [hy]
      case pos => subst hy; simp

theorem underway_setHost_of_ne (hy : y ≠ a) : (s.setHost a h).underway x y = s.underway x y := by
  simp only [underway, setHost_host_of_ne hy, setHost_link]

theorem underway_setHost (he : h.events = (s.host a).events) :
    (s.setHost a h).underway x y = s.underway x y := by
  by_cases hy : y = a
  case pos => subst hy; simp only [underway, setHost_host_self, setHost_link, he]
  case neg => exact underway_setHost_of_ne hy

theorem underway_send : (s.send a b m).underway x y =
    s.underway x y ++ if x = a ∧ y = b ∧ s.connected a b then [m] else [] := by
  simp only [underway, send_host, link_send, List.append_assoc]

theorem underway_post (he : e.messageFrom x = none) : (s.post a e).underway x y = s.underway x y := by
  by_cases hy : y = a
  case neg => exact underway_setHost_of_ne hy
  case pos => subst hy; simp [underway, post, he]

-- A message that a connection delivers is underway as before.
theorem underway_deliver {l : List Message} (hl : s.link a b = m :: l) :
    ((s.setLink a b l).post b (.message a m)).underway x y = s.underway x y := by
  by_cases hx : x = a
  case neg =>
    rw [underway_post (by simp [PeerEvent.messageFrom, Ne.symm hx])]
    simp [underway, setLink, hx]
  case pos =>
    subst hx
    by_cases hy : y = b
    case pos =>
      subst hy
      simp [underway, post, setHost, setLink, PeerEvent.messageFrom, hl]
    case neg => simp [underway, post, setHost, setLink, hy]

-- The event loop takes the oldest event.
theorem underway_handled (he : (s.host a).events = e :: events) :
    s.underway x y = (if y = a then (e.messageFrom x).toList else []) ++ (s.handled a e events d fx).underway x y := by
  by_cases hy : y = a
  case neg => simp [underway_setHost_of_ne hy, handled, hy]
  case pos =>
    subst hy
    simp only [underway, handled, setHost_host_self, setHost_link, he, List.filterMap_cons, if_pos]
    cases e.messageFrom x <;> rfl

theorem traffic_eq (ha : ∀ q, s'.underway a q = s.underway a q) (hb : ∀ q, s'.underway q a = s.underway q a)
    (hu : ∀ q, (s'.host q).uploads = (s.host q).uploads) (hf : ∀ q, (s'.host q).finished = (s.host q).finished) :
    s'.traffic a r = s.traffic a r := by
  simp only [traffic, ha, hb, hu, hf]

theorem traffic_setHost (he : h.events = (s.host a).events) (hu : h.uploads = (s.host a).uploads)
    (hf : h.finished = (s.host a).finished) : (s.setHost a h).traffic x r = s.traffic x r := by
  exact traffic_eq (fun _ => underway_setHost he) (fun _ => underway_setHost he)
    (fun _ => setHost_preserves Host.uploads hu) fun _ => setHost_preserves Host.finished hf

theorem traffic_post (he : ∀ x, e.messageFrom x = none) : (s.post a e).traffic x r = s.traffic x r :=
  traffic_eq (fun _ => underway_post (he _)) (fun _ => underway_post (he _))
    (fun _ => setHost_preserves Host.uploads rfl) fun _ => setHost_preserves Host.finished rfl

theorem traffic_deliver {l : List Message} (hl : s.link a b = m :: l) :
    ((s.setLink a b l).post b (.message a m)).traffic x r = s.traffic x r :=
  traffic_eq (fun _ => underway_deliver hl) (fun _ => underway_deliver hl)
    (fun _ => setHost_preserves Host.uploads rfl) fun _ => setHost_preserves Host.finished rfl

theorem send_of_not_connected (hc : ¬s.connected a b) : s.send a b m = s :=
  if_neg hc

theorem traffic_send_of_not (hm : ¬m.Moves) : (s.send a b m).traffic x r = s.traffic x r := by
  have hk {k : Message → Bool} (h : k m = false) (y z : PeerId) :
      ((s.send a b m).underway y z).filter k = (s.underway y z).filter k := by
    rw [underway_send]
    split <;> simp [h]
  ext1 <;> simp only [traffic, send_host, hk (Message.not_asks hm), hk (Message.not_answers hm)]

-- What moves nothing changes nothing here.
theorem traffic_performAll (hf : ∀ f ∈ fx, ¬f.Moves) : (s.performAll a fx).traffic x r = s.traffic x r := by
  induction fx generalizing s
  case nil => rfl
  case cons f fx hi =>
    refine (hi fun f' hf' => hf f' (List.mem_cons_of_mem _ hf')).trans ?_
    have hf := hf f (List.mem_cons_self ..)
    cases f
    case send   => exact traffic_send_of_not hf
    case upload => exact absurd trivial hf
    case respond | connect | scanTimer => rfl

-- A request goes out.
theorem traffic_ask {id : ResourceId} (hc : s.connected a b) :
    (s.send a b (.downloadResource r id)).traffic x r' = if x = a ∧ r' = r then
      { s.traffic a r with asks := Function.update (s.traffic a r).asks b ((s.traffic a r).asks b ++ [.downloadResource r id]) }
    else s.traffic x r' := by
  have hn (y z : PeerId) : ((s.send a b (.downloadResource r id)).underway y z).filter (·.Answers r') =
      (s.underway y z).filter (·.Answers r') := by
    rw [underway_send]
    split <;> simp [Message.Answers]
  split
  case isTrue h =>
    obtain ⟨rfl, rfl⟩ := h
    ext1 <;> simp only [traffic, send_host, hn]
    funext q
    by_cases hq : q = b
    case pos => subst hq; simp [underway_send, hc, Message.Asks]
    case neg => simp [underway_send, hq]
  case isFalse h =>
    ext1 <;> simp only [traffic, send_host, hn]
    funext q
    by_cases hx : x = a ∧ q = b
    case pos =>
      have hr : ¬r = r' := fun he => h ⟨hx.left, he.symm⟩
      simp [underway_send, hx, hc, Message.Asks, hr]
    case neg => simp [underway_send, ← and_assoc, hx]

-- Without a connection it is lost.
theorem traffic_request {id : ResourceId} : ∃ ms, (ms = [] ∨ ms = [.downloadResource r id]) ∧
    (s.send a b (.downloadResource r id)).traffic x r' = if x = a ∧ r' = r then
      { s.traffic a r with asks := Function.update (s.traffic a r).asks b ((s.traffic a r).asks b ++ ms) }
    else s.traffic x r' := by
  by_cases hc : s.connected a b
  case pos => exact ⟨_, .inr rfl, traffic_ask hc⟩
  case neg =>
    refine ⟨[], .inl rfl, ?_⟩
    rw [send_of_not_connected hc, List.append_nil, Function.update_eq_self]
    split
    case isTrue h  => rw [h.left, h.right]
    case isFalse h => rfl

-- A part of an answer goes out.
theorem traffic_answer (hc : s.connected a b) (hm : ∀ r', m.Answers r' = decide (r' = r)) (hn : ∀ r', m.Asks r' = false) :
    (s.send a b m).traffic x r' = if x = b ∧ r' = r then
      { s.traffic b r with answers := Function.update (s.traffic b r).answers a ((s.traffic b r).answers a ++ [m]) }
    else s.traffic x r' := by
  have hn (y z : PeerId) : ((s.send a b m).underway y z).filter (·.Asks r') =
      (s.underway y z).filter (·.Asks r') := by
    rw [underway_send]
    split <;> simp [hn]
  split
  case isTrue h =>
    obtain ⟨rfl, rfl⟩ := h
    ext1 <;> simp only [traffic, send_host, hn]
    funext q
    by_cases hq : q = a
    case pos => subst hq; simp [underway_send, hc, hm]
    case neg => simp [underway_send, hq]
  case isFalse h =>
    ext1 <;> simp only [traffic, send_host, hn]
    funext q
    by_cases hx : q = a ∧ x = b
    case pos =>
      have hr : ¬r' = r := fun he => h ⟨hx.right, he⟩
      simp [underway_send, hx, hc, hm, hr]
    case neg => simp [underway_send, ← and_assoc, hx]

-- A thread starts.
theorem traffic_upload {t : PeerId} {id : ResourceId} {path : PosixPath.Path} :
    (s.perform a (.upload t r id path)).traffic x r' = if x = t ∧ r' = r then
      { s.traffic t r with threads := Function.update (s.traffic t r).threads a ((s.traffic t r).threads a ++ [.start t r id]) }
    else s.traffic x r' := by
  have hf (q : PeerId) : ((s.perform a (.upload t r id path)).host q).finished = (s.host q).finished :=
    setHost_preserves Host.finished rfl
  have hw (y z : PeerId) : (s.perform a (.upload t r id path)).underway y z = s.underway y z :=
    underway_setHost rfl
  split
  case isTrue h =>
    obtain ⟨rfl, rfl⟩ := h
    ext1 <;> simp only [traffic, hf, hw]
    funext q
    by_cases hq : q = a
    case pos => subst hq; simp [perform, Upload.Serves, Upload.start]
    case neg => simp [perform, setHost_host_of_ne hq, hq]
  case isFalse h =>
    ext1 <;> simp only [traffic, hf, hw]
    funext q
    by_cases hq : q = a
    case neg => simp [perform, setHost_host_of_ne hq]
    case pos =>
      subst hq
      have hs : (Upload.start t r id).Serves x r' = false :=
        decide_eq_false fun hs => h ⟨hs.left.symm, hs.right.symm⟩
      simp [perform, hs]

-- What the loop has taken was underway before all the rest.
theorem traffic_handled (he : (s.host a).events = e :: events) : s.traffic x r = {
      asks q     := ((if q = a then (e.messageFrom x).toList else []).filter (·.Asks r)) ++
        ((s.handled a e events d fx).traffic x r).asks q
      threads    := ((s.handled a e events d fx).traffic x r).threads
      answers q  := ((if x = a then (e.messageFrom q).toList else []).filter (·.Answers r)) ++
        ((s.handled a e events d fx).traffic x r).answers q
      finished   := ((s.handled a e events d fx).traffic x r).finished
    } := by
  have hu (q : PeerId) : ((s.handled a e events d fx).host q).uploads = (s.host q).uploads :=
    setHost_preserves Host.uploads rfl
  have hf (q : PeerId) : ((s.handled a e events d fx).host q).finished = (s.host q).finished :=
    setHost_preserves Host.finished rfl
  ext1 <;> simp only [traffic, hu, hf]
  all_goals
    funext q
    rw [← List.filter_append, ← underway_handled he]

-- Nothing for the request is taken.
theorem traffic_handled_of_not (he : (s.host a).events = e :: events)
    (hm : ∀ {p m}, e = .message p m → (x = p → m.Asks r = false) ∧ (x = a → m.Answers r = false)) :
    (s.handled a e events d fx).traffic x r = s.traffic x r := by
  rw [traffic_handled (s := s) he]
  ext1 <;> try rfl
  all_goals
    funext q
    refine (List.append_left_eq_self.mpr <| List.filter_eq_nil_iff.mpr fun m hq => ?_).symm
    simp only [List.mem_ite_nil_right, Option.mem_toList] at hq
    obtain ⟨hq, hf⟩ := hq
    cases e <;> simp only [PeerEvent.messageFrom, reduceCtorEq, Option.ite_none_right_eq_some, Option.some.injEq] at hf
    obtain ⟨rfl, rfl⟩ := hf
  case asks    => simp [(hm rfl).left rfl]
  case answers => simp [(hm rfl).right hq]

theorem filter_messageFrom {P : Prop} [Decidable P] {k : Message → Bool} :
    (if P then ((PeerEvent.message p m).messageFrom q).toList else []).filter k =
      if P ∧ q = p ∧ k m then [m] else [] := by
  by_cases hq : q = p
  case neg => simp [PeerEvent.messageFrom, hq, Ne.symm hq]
  case pos =>
    subst hq
    by_cases hp : P <;> cases hk : k m <;> simp [PeerEvent.messageFrom, hp, hk]

-- The loop takes the request.
theorem traffic_asked (he : (s.host a).events = .message p m :: events) (hm : m.Asks r = true) (hn : m.Answers r = false) :
    ∃ ms, (s.traffic p r).asks a = m :: ms ∧ (s.handled a (.message p m) events d fx).traffic p r =
      { s.traffic p r with asks := Function.update (s.traffic p r).asks a ms } := by
  refine ⟨((s.handled a (.message p m) events d fx).traffic p r).asks a, ?_⟩
  rw [@traffic_handled s a p _ r fx events d he]
  simp only [filter_messageFrom, hm, hn]
  refine ⟨by simp, ?_⟩
  ext1 <;> simp
  funext q
  by_cases hq : q = a
  case pos => subst hq; simp
  case neg => simp [hq]

theorem answers_cons (he : (s.host a).events = .message p m :: events) (hm : m.Answers r = true) :
    ∃ ms, (s.traffic a r).answers p = m :: ms := by
  simp [traffic, underway, he, PeerEvent.messageFrom, hm]

-- The loop takes the next part of the answer.
theorem traffic_answered {ms : List Message} (he : (s.host a).events = .message p m :: events)
    (hm : m.Answers r = true) (hn : m.Asks r = false) (h : (s.traffic a r).answers p = m :: ms) :
    (s.handled a (.message p m) events d fx).traffic a r =
      { s.traffic a r with answers := Function.update (s.traffic a r).answers p ms } := by
  rw [@traffic_handled s a a _ r fx events d he] at h ⊢
  simp only [if_true, PeerEvent.messageFrom, Option.toList_some, hm, List.filter_cons_of_pos, List.filter_nil,
    List.singleton_append, List.cons.injEq, true_and] at h
  simp only [filter_messageFrom, hm, hn]
  ext1 <;> simp
  funext q
  by_cases hq : q = p
  case pos => subst hq; simp [h]
  case neg => simp [hq]

end Network

namespace Host

variable {h : Host} {i : Nat} {u v : Upload} {u' : Option Upload} {k : Upload → Bool}

theorem uploads_eq (hu : h.uploads[i]? = some u) :
    h.uploads = h.uploads.take i ++ [u] ++ h.uploads.drop (i + 1) := by
  have ⟨hi, hu⟩ := List.getElem?_eq_some_iff.mp hu
  subst hu
  simp

-- Other uploads than the one that goes on.
theorem setUpload_filter_of_not (hu : h.uploads[i]? = some u) (hk : k u = false) (hk' : ∀ v ∈ u', k v = false) :
    (h.setUpload i u').uploads.filter k = h.uploads.filter k := by
  have he : h.uploads.filter k = _ := congrArg _ (uploads_eq hu)
  have hn : u'.toList.filter k = [] := List.filter_eq_nil_iff.mpr fun v hv => by simp [hk' v (Option.mem_toList.mp hv)]
  simp [he, setUpload, hk, hn]

theorem setUpload_filter (hu : h.uploads[i]? = some u) (hk : k u = true) (hs : h.uploads.filter k = [v]) :
    v = u ∧ (h.setUpload i u').uploads.filter k = u'.toList.filter k := by
  rw [uploads_eq hu, List.filter_append, List.filter_append, List.filter_cons_of_pos hk, List.filter_nil] at hs
  have hl := congrArg List.length hs
  simp only [List.length_append, List.length_cons, List.length_nil] at hl
  have ht : (h.uploads.take i).filter k = [] := List.length_eq_zero_iff.mp <| by omega
  have hd : (h.uploads.drop (i + 1)).filter k = [] := List.length_eq_zero_iff.mp <| by omega
  rw [ht, hd] at hs
  exact ⟨(List.cons.inj hs).left.symm, by simp [setUpload, ht, hd]⟩

end Host

namespace Network

variable {s : Queued} {a x : PeerId} {i : Nat} {u v : Upload} {u' : Option Upload} {us : List Upload} {r : UInt32}

-- The `i`-th upload of `a` goes on as `u'` or not at all, and is finished with `us`.
def turned (s : Queued) (a : PeerId) (i : Nat) (u' : Option Upload) (us : List Upload) : Queued :=
  let h := (s.host a).setUpload i u'
  s.setHost a { h with finished := h.finished ++ us }

theorem turned_monitor : ((s.turned a i u' us).host x).monitor = (s.host x).monitor :=
  setHost_preserves Host.monitor rfl

theorem turned_events : ((s.turned a i u' us).host x).events = (s.host x).events :=
  setHost_preserves Host.events rfl

theorem turned_threads (q : PeerId) (k : Upload → Bool) : ((s.turned a i u' us).host q).uploads.filter k =
    if q = a then ((s.host a).setUpload i u').uploads.filter k else (s.host q).uploads.filter k := by
  split
  case isTrue h  => rw [h, turned, setHost_host_self]
  case isFalse h => rw [turned, setHost_host_of_ne h]

theorem turned_finished (q : PeerId) : ((s.turned a i u' us).host q).finished =
    if q = a then (s.host q).finished ++ us else (s.host q).finished := by
  split
  case isTrue h  => rw [h, turned, setHost_host_self]; rfl
  case isFalse h => rw [turned, setHost_host_of_ne h]

theorem traffic_turned_of_not (hu : (s.host a).uploads[i]? = some u) (hk : u.Serves x r = false)
    (hk' : ∀ v ∈ u', v.Serves x r = false) : (s.turned a i u' us).traffic x r =
      { s.traffic x r with finished := ((s.turned a i u' us).traffic x r).finished } := by
  have hw (y z : PeerId) : (s.turned a i u' us).underway y z = s.underway y z := underway_setHost rfl
  ext1 <;> simp only [traffic, hw, turned_threads, Host.setUpload_filter_of_not hu hk hk']
  funext q
  split
  case isTrue h  => rw [h]
  case isFalse h => rfl

theorem traffic_turned (hu : (s.host a).uploads[i]? = some u) (hk : u.Serves x r = true)
    (hk' : ∀ v ∈ u', v.Serves x r = true) (hs : (s.traffic x r).threads a = [v]) : v = u ∧
      (s.turned a i u' us).traffic x r = { s.traffic x r with
        threads  := Function.update (s.traffic x r).threads a u'.toList
        finished := ((s.turned a i u' us).traffic x r).finished } := by
  have hw (y z : PeerId) : (s.turned a i u' us).underway y z = s.underway y z := underway_setHost rfl
  have ⟨he, hf⟩ : v = u ∧ ((s.host a).setUpload i u').uploads.filter (·.Serves x r) = u'.toList.filter (·.Serves x r) :=
    Host.setUpload_filter hu hk hs
  have hl : u'.toList.filter (·.Serves x r) = u'.toList :=
    List.filter_eq_self.mpr fun v hv => hk' v (Option.mem_toList.mp hv)
  refine ⟨he, ?_⟩
  ext1 <;> simp only [traffic, hw, turned_threads]
  funext q
  split
  case isTrue h  => rw [h, Function.update_self, hf, hl]
  case isFalse h => rw [Function.update_of_ne h]

end Network
end Parsip
