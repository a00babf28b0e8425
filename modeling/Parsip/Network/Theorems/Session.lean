import Parsip.Daemon.Theorems.Integrity
import Parsip.Daemon.Theorems.Serving
import Parsip.Network.Theorems.Traffic

-- What belongs to one request: the transfer and the download at the daemon that has asked, and what is
-- underway for it.

namespace Parsip

namespace Chunk

variable {id : ResourceId} {c : Chunk} {cs cs' : List Chunk} {n : Nat}

def message (id : ResourceId) (c : Chunk) : Message :=
  .resourceChunk c.requestId id c.offset c.data

theorem ConsecutiveFrom.offset (h : ConsecutiveFrom n (cs ++ c :: cs')) : c.offset.toNat = n + (bytes cs).length := by
  induction cs generalizing n
  case nil => exact h.left
  case cons c' cs hi =>
    rw [hi h.right, bytes, bytes, List.flatMap_cons, List.length_append, Nat.add_assoc]

end Chunk

-- What `u` has read has gone out from `p` as the chunks `cs`.
structure Upload.Sent (u : Upload) (p : PeerId) (cs : List Chunk) : Prop where
  counts      : u.Counts
  data        : cs.map (·.data) = u.reads
  source      : ∀ c ∈ cs, c.sender = p ∧ c.requestId = u.requestId
  consecutive : Chunk.Consecutive cs

namespace Upload.Sent

variable {u : Upload} {p q : PeerId} {r : UInt32} {id : ResourceId} {c : Chunk} {cs cs' : List Chunk} {data : Bytes}

theorem start : (Upload.start q r id).Sent p [] :=
  ⟨.start, rfl, nofun, trivial⟩

theorem bytes (h : u.Sent p cs) : Chunk.bytes cs = u.reads.flatten := by
  rw [← h.data, Chunk.bytes, List.flatMap_def]

theorem length_lt (h : u.Sent p (cs ++ cs')) : (Chunk.bytes cs).length < 2 ^ 64 := by
  have := h.counts.bounded
  rw [← h.bytes, Chunk.bytes, List.flatMap_append, List.length_append] at this
  exact Nat.lt_of_le_of_lt (Nat.le_add_right ..) this

theorem advance (h : u.Sent p cs) (hr : u.Readable data) (hd : data ≠ []) :
    (u.advance data).Sent p (cs ++ [⟨p, u.requestId, u.offset, data⟩]) where
  counts := h.counts.advance hr hd
  data   := by simp [Upload.advance, h.data]
  source c hc := by
    obtain hc | hc := List.mem_append.mp hc
    case inl => exact h.source c hc
    case inr => obtain rfl := List.mem_singleton.mp hc; exact ⟨rfl, rfl⟩
  consecutive := h.consecutive.append <| by
    have := h.counts.bounded
    rw [h.counts.offset, h.bytes, Nat.zero_add, UInt64.toNat_ofNat_of_lt' this]

end Upload.Sent

namespace Traffic

-- Nothing is underway between the daemon that has asked and `q`.
structure Idle (k : Traffic) (q : PeerId) : Prop where
  asks    : k.asks q = []
  threads : k.threads q = []
  answers : k.answers q = []

-- The thread that sends `u` still reads, or has given up, or has come to the end and said so.
inductive Tail (k : Traffic) (p : PeerId) (u : Upload) : List Message → Prop
  | sending (threads : k.threads p = [u]) : Tail k p u []
  | stopped (threads : k.threads p = []) : Tail k p u []
  | ended (threads : k.threads p = []) (finished : u ∈ k.finished p) : Tail k p u [.resourceEnd u.requestId u.id]

-- How far the answer from `p` to the request `r` of `a` for `id` is, of which the chunks `accepted` have come.
inductive Stage (k : Traffic) (a p : PeerId) (r : UInt32) (id : ResourceId) (accepted : List Chunk) : Prop
  | asked (asks : k.asks p = [.downloadResource r id]) (threads : k.threads p = []) (answers : k.answers p = [])
    (none : accepted = [])
  | answered (u : Upload) (pending : List Chunk) (last : List Message) (asks : k.asks p = [])
    (answers : k.answers p = pending.map (·.message id) ++ last) (serves : u.Serves a r = true) (resource : u.id = id)
    (sent : u.Sent p (accepted ++ pending)) (tail : k.Tail p u last)

-- Only further uploads have come to their end.
structure Grows (k k' : Traffic) : Prop where
  asks     : k'.asks = k.asks
  threads  : k'.threads = k.threads
  answers  : k'.answers = k.answers
  finished : ∀ q, k.finished q ⊆ k'.finished q

variable {k k' : Traffic} {a p : PeerId} {r : UInt32} {id id' : ResourceId} {accepted : List Chunk} {u : Upload}
variable {off : UInt64} {data : Bytes} {last ms : List Message}

-- A request that is answered by nothing but silence.
theorem Stage.silent (ha : k.asks p = []) (ht : k.threads p = []) (hs : k.answers p = []) : k.Stage a p r id [] :=
  .answered (.start a r id) [] [] ha hs (decide_eq_true ⟨rfl, rfl⟩) rfl .start (.stopped ht)

theorem Tail.transfer (h : k.Tail p u last) (ht : k'.threads p = k.threads p)
    (hf : k.finished p ⊆ k'.finished p) : k'.Tail p u last := by
  cases h
  case sending h   => exact .sending (ht.trans h)
  case stopped h   => exact .stopped (ht.trans h)
  case ended h hm  => exact .ended (ht.trans h) (hf hm)

theorem Idle.transfer (h : k.Idle p) (g : k.Grows k') : k'.Idle p :=
  ⟨g.asks ▸ h.asks, g.threads ▸ h.threads, g.answers ▸ h.answers⟩

theorem Stage.transfer (h : k.Stage a p r id accepted) (g : k.Grows k') : k'.Stage a p r id accepted := by
  cases h
  case asked ha ht hs hn => exact .asked (g.asks ▸ ha) (g.threads ▸ ht) (g.answers ▸ hs) hn
  case answered u pending last ha hs hr hi hu hl =>
    exact .answered u pending last (g.asks ▸ ha) (g.answers ▸ hs) hr hi hu (hl.transfer (g.threads ▸ rfl) (g.finished p))

-- The daemon that is asked takes the request.
theorem Stage.taken {m : Message} (h : k.Stage a p r id accepted) (ha : k.asks p = m :: ms) :
    m = .downloadResource r id ∧ ms = [] ∧ k.threads p = [] ∧ k.answers p = [] ∧ accepted = [] := by
  cases h
  case asked h ht hn he =>
    rw [h, List.cons.injEq] at ha
    exact ⟨ha.left.symm, ha.right.symm, ht, hn, he⟩
  case answered h _ _ _ _ _ => rw [h] at ha; contradiction

-- The next chunk goes on where the accepted ones end.
theorem Stage.chunk (h : k.Stage a p r id accepted) (hs : k.answers p = .resourceChunk r id' off data :: ms) :
    id' = id ∧ off.toNat = (Chunk.bytes accepted).length ∧
      (Chunk.bytes (accepted ++ [⟨p, r, off, data⟩])).length < 2 ^ 64 ∧
      ∀ {k'}, k'.asks p = k.asks p → k'.threads p = k.threads p → k'.answers p = ms → k'.finished = k.finished →
        Stage k' a p r id (accepted ++ [⟨p, r, off, data⟩]) := by
  cases h
  case asked h _ => rw [h] at hs; contradiction
  case answered u pending last ha hh hr hi hu hl =>
    rw [hh] at hs
    cases pending
    case nil => cases hl <;> cases hs
    case cons c pending =>
      obtain ⟨q, r', off', data'⟩ := c
      simp only [List.map_cons, List.cons_append, List.cons.injEq, Chunk.message, Message.resourceChunk.injEq] at hs
      obtain ⟨⟨rfl, rfl, rfl, rfl⟩, rfl⟩ := hs
      obtain ⟨rfl, _⟩ := hu.source ⟨q, r', off', data'⟩ (by simp)
      have hc := List.append_cons accepted ⟨q, r', off', data'⟩ pending
      refine ⟨rfl, ?_, (hc ▸ hu).length_lt, fun {k'} h₁ h₂ h₃ h₄ => ?_⟩
      case refine_1 => exact hu.consecutive.offset.trans (Nat.zero_add _)
      case refine_2 => exact .answered u pending last (h₁.trans ha) h₃ hr hi (hc ▸ hu) (hl.transfer h₂ (h₄ ▸ fun _ h => h))

-- With the end all of it has come.
theorem Stage.end_ (h : k.Stage a p r id accepted) (hs : k.answers p = .resourceEnd r id' :: ms) :
    id' = id ∧ ms = [] ∧ k.asks p = [] ∧ k.threads p = [] ∧
      ∃ u ∈ k.finished p, u.Serves a r = true ∧ u.id = id ∧ u.Sent p accepted := by
  cases h
  case asked h _ => rw [h] at hs; contradiction
  case answered u pending last ha hh hr hi hu hl =>
    rw [hh] at hs
    cases pending
    case cons c pending => cases hs
    case nil =>
      cases hl <;> cases hs
      case ended ht hm => exact ⟨hi, rfl, ha, ht, u, hm, hr, hi, List.append_nil accepted ▸ hu⟩

-- No other thread serves the request.
theorem Stage.alone (h : k.Stage a p r id accepted) (hu : u ∈ k.threads p) : k.threads p = [u] := by
  have one {us : List Upload} (h : k.threads p = us) (hn : us = [] ∨ ∃ v, us = [v]) : k.threads p = [u] := by
    rw [h] at hu ⊢
    obtain rfl | ⟨v, rfl⟩ := hn
    case inl => contradiction
    case inr => rw [List.mem_singleton.mp hu]
  cases h
  case asked _ ht _ _ => exact one ht (.inl rfl)
  case answered v _ _ _ _ _ _ _ hl =>
    cases hl
    case sending ht _                => exact one ht (.inr ⟨v, rfl⟩)
    case stopped ht _ | ended ht _ _ => exact one ht (.inl rfl)

-- The thread goes on.
theorem Stage.thread (h : k.Stage a p r id accepted) (ht : k.threads p = [u]) : u.Serves a r = true ∧ u.id = id ∧
    k.asks p = [] ∧ ∃ pending : List Chunk, k.answers p = pending.map (·.message id) ∧ u.Sent p (accepted ++ pending) := by
  cases h
  case asked h _ _ => rw [h] at ht; contradiction
  case answered v pending last ha hh hr hi hu hl =>
    cases hl
    case sending h =>
      obtain rfl := List.singleton_inj.mp <| h.symm.trans ht
      exact ⟨hr, hi, ha, pending, hh.trans (List.append_nil _), hu⟩
    case stopped h | ended h _ => rw [h] at ht; contradiction

variable {finished : PeerId → List Upload}

theorem Stage.stop (h : k.Stage a p r id accepted) (ht : k.threads p = [u]) :
    Stage { k with threads := Function.update k.threads p [], finished } a p r id accepted := by
  have ⟨hr, hi, ha, pending, hs, hu⟩ := h.thread ht
  exact .answered u pending [] ha (hs.trans (List.append_nil _).symm) hr hi hu (.stopped (Function.update_self ..))

theorem Stage.finish (h : k.Stage a p r id accepted) (ht : k.threads p = [u]) (hf : u ∈ finished p) :
    Stage { k with
      threads := Function.update k.threads p []
      answers := Function.update k.answers p (k.answers p ++ [.resourceEnd u.requestId u.id])
      finished } a p r id accepted := by
  have ⟨hr, hi, ha, pending, hs, hu⟩ := h.thread ht
  exact .answered u pending _ ha (by simp [hs]) hr hi hu (.ended (Function.update_self ..) hf)

theorem Stage.advance (h : k.Stage a p r id accepted) (ht : k.threads p = [u]) (hd : u.Readable data) (hn : data ≠ []) :
    Stage { k with
      threads := Function.update k.threads p [u.advance data]
      answers := Function.update k.answers p (k.answers p ++ [u.chunk data])
      finished } a p r id accepted := by
  have ⟨hr, hi, ha, pending, hs, hu⟩ := h.thread ht
  refine .answered (u.advance data) (pending ++ [⟨p, u.requestId, u.offset, data⟩]) [] ha ?_ hr hi ?_
    (.sending (Function.update_self ..))
  case refine_1 => simp [hs, Upload.chunk, Chunk.message, hi]
  case refine_2 => exact List.append_assoc .. ▸ hu.advance hd hn

end Traffic

-- The event is about the download of `id`.
def PeerEvent.Brings (id : ResourceId) : PeerEvent → Prop
  | .message _ (.resourceChunk _ id' _ _) | .message _ (.resourceEnd _ id') => id' = id
  | _                                                                      => False

namespace Monitor

-- The download of `id` goes on and has accepted what it had accepted.
structure Keeps (m m' : Monitor) (id : ResourceId) : Prop where
  download : ∀ {d}, m.daemon.downloadMgr.downloads.lookup id = some d →
    ∃ d', m'.daemon.downloadMgr.downloads.lookup id = some d'
  asked    : m'.log.asked id = m.log.asked id
  accepted : m'.log.accepted id = m.log.accepted id

-- The download of a transfer is there and has accepted the first chunks of what its peer has read.
structure Running (m : Monitor) (k : Traffic) (a : PeerId) (r : UInt32) (t : Transfer) : Prop where
  download : ∃ d, m.daemon.downloadMgr.downloads.lookup t.resourceId = some d
  asked    : m.log.asked t.resourceId = some (t.peerId, r)
  counted  : t.bytesTransferred.toNat = (Chunk.bytes (m.log.accepted t.resourceId)).length
  stage    : k.Stage a t.peerId r t.resourceId (m.log.accepted t.resourceId)

-- For a request something is underway only from and to the peer of its transfer.
structure Session (m : Monitor) (k : Traffic) (a : PeerId) (r : UInt32) : Prop where
  running : ∀ {t}, m.daemon.transferMgr.transfers.lookup r = some t → m.Running k a r t
  idle    : ∀ q, (∀ {t}, m.daemon.transferMgr.transfers.lookup r = some t → t.peerId ≠ q) → k.Idle q

variable {m m' : Monitor} {k k' : Traffic} {r r' : UInt32} {a p q : PeerId} {t t' : Transfer} {id id' : ResourceId}
variable {env : Env} {fx : List Effect} {off : UInt64} {data : Bytes} {ms : List Message} {u : Upload}

theorem Running.transfer (h : m.Running k a r t) (hm : m.Keeps m' t.resourceId) (g : k.Grows k') : m'.Running k' a r t where
  download := have ⟨_, hd⟩ := h.download; hm.download hd
  asked    := hm.asked ▸ h.asked
  counted  := hm.accepted ▸ h.counted
  stage    := hm.accepted ▸ h.stage.transfer g

-- Other downloads keep what they have.
theorem Handles.keeps {e : PeerEvent} {d : ActiveDownload} (h : m.Handles env fx m' e) (o : m.Owned)
    (he : ∀ p, e ≠ .disconnected p) (hb : ¬e.Brings id) (hd : m.daemon.downloadMgr.downloads.lookup id = some d) :
    m.Keeps m' id := by
  cases h
  case quiet hs _ hl | refused hs hl => exact ⟨fun h => ⟨_, hs.downloadMgr ▸ h⟩, hl ▸ rfl, hl ▸ rfl⟩
  case list hm _ _ _ hl              => exact ⟨fun h => ⟨_, hm ▸ h⟩, hl ▸ rfl, hl ▸ rfl⟩
  case notStarted hm _ hl            => exact ⟨fun h => ⟨_, hm ▸ h⟩, hl ▸ rfl, hl ▸ rfl⟩
  case disconnected                  => exact absurd rfl (he _)
  case accepted id' _ _ download hd' _ hm _ _ _ hl =>
    have hk := m.daemon.downloadMgr.keyed hd'
    refine ⟨fun {d} h => ⟨d, ?_⟩, hl ▸ rfl, ?_⟩
    case refine_1 => rw [hm, DownloadManager.put_lookup, if_neg fun hi => hb (hi.trans hk).symm, h]
    case refine_2 => rw [hl]; exact Function.update_of_ne (Ne.symm hb) ..
  case failed hc _ _ hl _ | completed hc _ _ hl _ =>
    refine ⟨fun {d} h => ⟨d, ?_⟩, hl ▸ rfl, hl ▸ rfl⟩
    rw [DownloadManager.completeDownload_lookup hc, if_neg (Ne.symm hb), h]
  case started p id' info _ _ hi hs _ _ _ _ hl =>
    have hk := (o.listed hi).left
    obtain ⟨_, h, _⟩ | ⟨_, hn, _, _, _, hm, _⟩ := DownloadManager.startDownload_cases hs
    case inl => contradiction
    case inr =>
      -- There was no download of the resource that is asked for.
      have hne : id ≠ info.id := fun hi => by rw [← hi, hd] at hn; contradiction
      refine ⟨fun {d} h => ⟨d, ?_⟩, ?_, ?_⟩
      case refine_1 => rw [hm, DownloadManager.put_lookup, if_neg hne, h]
      case refine_2 | refine_3 => rw [hl]; exact Function.update_of_ne (hk ▸ hne) ..

-- Other transfers stay as they are.
theorem Handles.lookup {e : PeerEvent} (h : m.Handles env fx m' e) (he : ∀ p, e ≠ .disconnected p)
    (hr : ∀ {p msg}, e = .message p msg → msg.Answers r = false)
    (hn : ∀ {p id}, .send p (.downloadResource r id) ∉ fx) :
    m'.daemon.transferMgr.transfers.lookup r = m.daemon.transferMgr.transfers.lookup r := by
  cases h
  case quiet hs _ _ | refused hs _ => rw [hs.transferMgr]
  case list ht _ _                 => rw [ht]
  case notStarted hm _ _           => rw [hm]
  case failed ht _ _ _             => rw [ht]
  case disconnected                => exact absurd rfl (he _)
  case accepted ht _ _             =>
    have hr := hr rfl
    simp only [Message.Answers, decide_eq_false_iff_not] at hr
    rw [ht, TransferManager.updateProgress_lookup, if_neg (Ne.symm hr)]
  case completed ht _ _ _ =>
    have hr := hr rfl
    simp only [Message.Answers, decide_eq_false_iff_not] at hr
    rw [ht, TransferManager.complete_lookup, if_neg (Ne.symm hr)]
  case started p id _ _ _ _ _ _ ht _ hf _ =>
    rw [ht, TransferManager.register_lookup]
    refine if_neg fun (h : r = m.daemon.reqTracker.nextId) => @hn p id ?_
    rw [hf, h]
    exact List.mem_singleton.mpr rfl

namespace Session

theorem transfer (s : m.Session k a r) (ht : m'.daemon.transferMgr.transfers.lookup r = m.daemon.transferMgr.transfers.lookup r)
    (hm : ∀ {t}, m.daemon.transferMgr.transfers.lookup r = some t → m.Keeps m' t.resourceId) (g : k.Grows k') :
    m'.Session k' a r where
  running h := (s.running (ht ▸ h)).transfer (hm (ht ▸ h)) g
  idle q h  := (s.idle q fun h' => h (ht ▸ h')).transfer g

-- Where something is underway for a request, its transfer is.
theorem peer (s : m.Session k a r) (h : ¬k.Idle q) :
    ∃ t, m.daemon.transferMgr.transfers.lookup r = some t ∧ t.peerId = q := by
  by_contra hn
  exact h <| s.idle q fun ht hq => hn ⟨_, ht, hq⟩

-- Two requests do not share a resource.
theorem resource_ne (s : m.Session k a r) (s' : m.Session k' a r') (hr : r ≠ r')
    (ht : m.daemon.transferMgr.transfers.lookup r = some t)
    (ht' : m.daemon.transferMgr.transfers.lookup r' = some t') : t.resourceId ≠ t'.resourceId := by
  intro hi
  have ha := (s.running ht).asked
  rw [hi, (s'.running ht').asked] at ha
  exact hr <| (congrArg Prod.snd <| Option.some.inj ha).symm

-- The peer takes the request, and one thread serves it or none.
theorem serve {us : List Upload} (s : m.Session k a r)
    (h : k.asks p = .downloadResource r id :: ms) (hu : us = [] ∨ us = [.start a r id]) :
    m.Session { k with asks := Function.update k.asks p ms, threads := Function.update k.threads p (k.threads p ++ us) } a r := by
  obtain ⟨t, ht, rfl⟩ := s.peer (q := p) fun hi => by rw [hi.asks] at h; contradiction
  have run := s.running ht
  obtain ⟨hi, rfl, hth, hn, ha⟩ := run.stage.taken h
  obtain rfl : id = t.resourceId := by simpa using hi
  constructor
  case idle =>
    intro q' hq
    have hq' := hq ht
    have i := s.idle q' hq
    exact ⟨by simp [hq'.symm, i.asks], by simp [hq'.symm, i.threads], i.answers⟩
  case running =>
    intro t' ht'
    cases ht.symm.trans ht'
    refine ⟨run.download, run.asked, run.counted, ?_⟩
    rw [ha]
    obtain rfl | rfl := hu
    case inl => exact .silent (by simp) (by simp [hth]) hn
    case inr => exact .answered (.start a r t.resourceId) [] [] (by simp) hn (decide_eq_true ⟨rfl, rfl⟩) rfl .start (.sending (by simp [hth]))

theorem alone (s : m.Session k a r) (hu : u ∈ k.threads p) : k.threads p = [u] := by
  obtain ⟨t, hl, rfl⟩ := s.peer (q := p) fun hi => by rw [hi.threads] at hu; contradiction
  exact (s.running hl).stage.alone hu

-- The thread takes a turn.
theorem turn (s : m.Session k a r) (ht : k.threads p = [u])
    (hk : ∀ q, q ≠ p → k'.asks q = k.asks q ∧ k'.threads q = k.threads q ∧ k'.answers q = k.answers q)
    (hs : ∀ {id accepted}, k.Stage a p r id accepted → k'.Stage a p r id accepted) : m.Session k' a r := by
  obtain ⟨t, hl, rfl⟩ := s.peer (q := p) fun hi => by rw [hi.threads] at ht; contradiction
  have run := s.running hl
  constructor
  case idle =>
    intro q hq
    have i := s.idle q hq
    have ⟨ha, hh, hn⟩ := hk q (hq hl).symm
    exact ⟨ha.trans i.asks, hh.trans i.threads, hn.trans i.answers⟩
  case running =>
    intro t' hl'
    cases hl.symm.trans hl'
    exact ⟨run.download, run.asked, run.counted, hs run.stage⟩

-- The next chunk belongs to the download of the transfer.
theorem chunk (s : m.Session k a r) (h : k.answers p = .resourceChunk r id off data :: ms) :
    ∃ t, m.daemon.transferMgr.transfers.lookup r = some t ∧ t.peerId = p ∧ t.resourceId = id ∧
      m.log.asked id = some (p, r) ∧ off.toNat = (Chunk.bytes (m.log.accepted id)).length := by
  obtain ⟨t, hl, rfl⟩ := s.peer (q := p) fun hi => by rw [hi.answers] at h; contradiction
  have run := s.running hl
  obtain ⟨rfl, ho, _⟩ := run.stage.chunk h
  exact ⟨t, hl, rfl, rfl, run.asked, ho⟩

theorem accept (s : m.Session k a r) (h : k.answers p = .resourceChunk r id off data :: ms)
    (ha : m.daemon.downloadMgr.Accepts id) (hm : m.Handles env fx m' (.message p (.resourceChunk r id off data))) :
    m'.Session { k with answers := Function.update k.answers p ms } a r := by
  obtain ⟨t, hl, rfl⟩ := s.peer (q := p) fun hi => by rw [hi.answers] at h; contradiction
  have run := s.running hl
  obtain ⟨rfl, _, hb, hs⟩ := run.stage.chunk h
  cases hm
  case quiet _ hc _    => exact absurd trivial hc
  case refused _ hn _  => exact absurd ha hn
  case accepted d _ _ _ hd hm ht hg =>
    have hl' : m'.daemon.transferMgr.transfers.lookup r = some (t.progress env.now (.ofNat data.length)).fst := by
      rw [ht, TransferManager.updateProgress_lookup, if_pos rfl, hl, Option.map_some]
    constructor
    case idle =>
      intro q hq
      have hq := Transfer.progress_peerId ▸ hq hl'
      have i := s.idle q fun hl'' => by cases hl.symm.trans hl''; exact hq
      exact ⟨i.asks, i.threads, by simp [hq.symm, i.answers]⟩
    case running =>
      intro t' hl''
      cases hl'.symm.trans hl''
      have hk := m.daemon.downloadMgr.keyed hd
      have hc : m'.log.accepted t.resourceId = m.log.accepted t.resourceId ++ [⟨t.peerId, r, off, data⟩] := by
        rw [hg]
        exact Function.update_self ..
      refine ⟨⟨d.receive data, ?_⟩, ?_, ?_, ?_⟩ <;> simp only [Transfer.progress_resourceId, Transfer.progress_peerId]
      case refine_1 => rw [hm, DownloadManager.put_lookup]; exact if_pos hk.symm
      case refine_2 => rw [hg]; exact run.asked
      case refine_3 =>
        rw [Chunk.bytes_append, List.length_append] at hb
        have hd : data.length < 2 ^ 64 := Nat.lt_of_le_of_lt (Nat.le_add_left ..) hb
        rw [hc, Chunk.bytes_append, List.length_append, Transfer.progress_bytesTransferred, UInt64.toNat_add, run.counted,
          UInt64.toNat_ofNat_of_lt' hd, Nat.mod_eq_of_lt hb]
      case refine_4 => rw [hc]; exact hs rfl rfl (Function.update_self ..) rfl

-- The end belongs to the download of the transfer, too, and comes after all of the file.
theorem ended (s : m.Session k a r) (h : k.answers p = .resourceEnd r id :: ms) :
    ∃ t, m.daemon.transferMgr.transfers.lookup r = some t ∧ t.peerId = p ∧ t.resourceId = id ∧ m.Running k a r t ∧
      ∃ u ∈ k.finished p, u.Serves a r = true ∧ u.id = id ∧ u.Sent p (m.log.accepted id) := by
  obtain ⟨t, hl, rfl⟩ := s.peer (q := p) fun hi => by rw [hi.answers] at h; contradiction
  have run := s.running hl
  obtain ⟨rfl, _, _, _, hu⟩ := run.stage.end_ h
  exact ⟨t, hl, rfl, rfl, run, hu⟩

theorem finish (s : m.Session k a r) (h : k.answers p = .resourceEnd r id :: ms)
    (hc : m.daemon.downloadMgr.Completes m.daemon.storage env.io id)
    (hm : m.Handles env fx m' (.message p (.resourceEnd r id))) :
    m'.Session { k with answers := Function.update k.answers p ms } a r := by
  obtain ⟨t, hl, rfl⟩ := s.peer (q := p) fun hi => by rw [hi.answers] at h; contradiction
  obtain ⟨rfl, rfl, ha, ht, _⟩ := (s.running hl).stage.end_ h
  have hn : m'.daemon.transferMgr.transfers.lookup r = none := by
    cases hm
    case quiet _ hc _              => exact absurd trivial hc
    case failed hf _               => simpa using (DownloadManager.completes_iff hf).mp hc
    case completed ht _ _ _        => rw [ht, TransferManager.complete_lookup, if_pos rfl]
  constructor
  case running => intro t ht; rw [hn] at ht; contradiction
  case idle =>
    intro q _
    by_cases hq : q = t.peerId
    case pos => subst hq; exact ⟨ha, ht, Function.update_self ..⟩
    case neg =>
      have i := s.idle q fun hl' => by cases hl.symm.trans hl'; exact Ne.symm hq
      exact ⟨i.asks, i.threads, by simp [hq, i.answers]⟩

-- A download is started under a request for which there is no transfer.
theorem start {pa ra : String} {c : ReplyTo} (s : m.Session k a r) (o : m.Owned)
    (hn : m.daemon.transferMgr.transfers.lookup r = none)
    (hm : m.Handles env [.send p (.downloadResource r id)] m' (.controlRequest (.getResource pa ra) c))
    (hs : ms = [] ∨ ms = [.downloadResource r id]) :
    m'.Session { k with asks := Function.update k.asks p (k.asks p ++ ms) } a r := by
  have i q : k.Idle q := s.idle q fun ht => by rw [hn] at ht; contradiction
  cases hm
  case quiet _ hc _         => exact absurd trivial hc
  case notStarted hf _      => cases hf
  case started p' id' info hi hd _ ht hf _ _ _ hl =>
    simp only [List.cons.injEq, Effect.send.injEq, Message.downloadResource.injEq, and_true] at hf
    obtain ⟨rfl, rfl, rfl⟩ := hf
    have hk := (o.listed hi).left
    have hl' : m'.daemon.transferMgr.transfers.lookup m.daemon.reqTracker.nextId =
        some (m.daemon.transfer env p id info.size) := by
      rw [ht, TransferManager.register_lookup]
      exact if_pos rfl
    have ha : m'.log.accepted id = [] := by
      rw [hl]
      exact Function.update_self ..
    constructor
    case idle =>
      intro q hq
      have hq : q ≠ p := (hq hl').symm
      exact ⟨by simp [hq, (i q).asks], (i q).threads, (i q).answers⟩
    case running =>
      intro t ht
      cases hl'.symm.trans ht
      obtain ⟨_, h, _⟩ | ⟨_, _, _, _, _, hm, _⟩ := DownloadManager.startDownload_cases hd
      case inl => contradiction
      case inr =>
        constructor
        case download => exact ⟨_, by rw [hm, DownloadManager.put_lookup]; exact if_pos hk.symm⟩
        case asked    => rw [hl]; exact Function.update_self ..
        case counted  => exact ha ▸ rfl
        case stage    =>
          show Traffic.Stage _ a p _ id (m'.log.accepted id)
          rw [ha]
          obtain rfl | rfl := hs
          case inl => exact .silent (by simp [(i p).asks]) (i p).threads (i p).answers
          case inr => exact .asked (by simp [(i p).asks]) (i p).threads (i p).answers rfl

end Session
end Monitor
end Parsip
