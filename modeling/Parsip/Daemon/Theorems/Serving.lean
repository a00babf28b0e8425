import Parsip.Daemon.Serving

-- When an upload stays on the connection that has asked for it.

namespace Parsip

open Transition

namespace Upload

variable {r : UInt32} {id : ResourceId} {n m : Nat} {ds : List Bytes} {d : Bytes} {u : Upload}

-- The chunks in which some reads are sent, the first one of them at `n`.
def chunksFrom (r : UInt32) (id : ResourceId) : Nat → List Bytes → List Message
  | _, []      => []
  | n, d :: ds => .resourceChunk r id (.ofNat n) d :: chunksFrom r id (n + d.length) ds

def chunks (u : Upload) : List Message :=
  chunksFrom u.requestId u.id 0 u.reads

theorem chunksFrom_append :
    chunksFrom r id n (ds ++ [d]) = chunksFrom r id n ds ++ [.resourceChunk r id (.ofNat (n + ds.flatten.length)) d] := by
  induction ds generalizing n
  case nil          => rfl
  case cons d ds hi => simp only [List.cons_append, chunksFrom, hi, List.flatten_cons, List.length_append, Nat.add_assoc]

-- What has been read is not empty and fits into the offset, which counts it.
structure Counts (u : Upload) : Prop where
  offset   : u.offset = .ofNat u.reads.flatten.length
  bounded  : u.reads.flatten.length < 2 ^ 64
  nonempty : ∀ d ∈ u.reads, d ≠ []

namespace Counts

theorem start {p : PeerId} : (Upload.start p r id).Counts :=
  ⟨rfl, Nat.two_pow_pos 64, fun _ h => absurd h List.not_mem_nil⟩

theorem advance (k : u.Counts) (h : u.Readable d) (hd : d ≠ []) : (u.advance d).Counts := by
  constructor
  case offset   => simp [Upload.advance, k.offset]
  case bounded  => simpa [Upload.advance] using h.right
  case nonempty =>
    intro d' hm
    obtain hm | hm := List.mem_append.mp hm
    case inl => exact k.nonempty d' hm
    case inr => exact List.mem_singleton.mp hm ▸ hd

theorem chunks (k : u.Counts) : (u.advance d).chunks = u.chunks ++ [u.chunk d] := by
  have h := @chunksFrom_append u.requestId u.id 0 u.reads d
  rw [Nat.zero_add, ← k.offset] at h
  exact h

end Counts
end Upload

def Message.offset : Message → Option UInt64
  | .resourceChunk _ _ offset _ => some offset
  | _                           => none

namespace Upload

variable {r : UInt32} {id : ResourceId} {n : Nat} {ds : List Bytes} {u : Upload}

theorem chunksFrom_offsets (hn : n + ds.flatten.length < 2 ^ 64) (hd : ∀ d ∈ ds, d ≠ []) :
    ((chunksFrom r id n ds).filterMap Message.offset).Pairwise (· < ·) ∧
      ∀ o ∈ (chunksFrom r id n ds).filterMap Message.offset, n ≤ o.toNat := by
  induction ds generalizing n
  case nil => exact ⟨.nil, fun _ h => absurd h List.not_mem_nil⟩
  case cons d ds hi =>
    rw [List.flatten_cons, List.length_append, ← Nat.add_assoc] at hn
    have ⟨hp, hl⟩ := hi hn fun d hm => hd d (List.mem_cons_of_mem _ hm)
    have hd := List.length_pos_of_ne_nil (hd d List.mem_cons_self)
    have ho : (UInt64.ofNat n).toNat = n := by simp; omega
    simp only [chunksFrom, List.filterMap_cons, Message.offset, List.pairwise_cons, List.mem_cons]
    refine ⟨⟨fun o h => ?_, hp⟩, fun o h => ?_⟩
    case refine_1 =>
      have := hl o h
      rw [UInt64.lt_iff_toNat_lt]
      omega
    case refine_2 =>
      obtain rfl | h := h
      case inl => omega
      case inr => have := hl o h; omega

theorem Counts.offsets (k : u.Counts) : (u.chunks.filterMap Message.offset).Pairwise (· < ·) :=
  (chunksFrom_offsets (by rw [Nat.zero_add]; exact k.bounded) k.nonempty).left

end Upload
namespace UploadThread

variable {t t' : UploadThread} {sent : List Message} {m : Message} {c : ConnId} {tables : ConnectionTables Unit}
variable {result : Except Error Bytes}

-- A frame is on its way that comes next after those that have been sent.
def Next (t : UploadThread) (sent : List Message) (m : Message) : Prop :=
  sent ++ [m] = t.upload.chunks ∨ sent = t.upload.chunks ∧ m = t.last

-- What a thread has sent so far, and where it sends the next frame.
def Holds (t : UploadThread) (sent : List Message) : UploadPhase → Prop
  | .read                  => sent = t.upload.chunks
  | .lookUp m              => t.Next sent m
  | .fetch c m | .push c m => t.Next sent m ∧ c = t.origin
  | .ended                 => sent <+: t.upload.chunks ++ [t.last]

structure Sound (t : UploadThread) (sent : List Message) : Prop where
  counts : t.upload.Counts
  phase  : t.Holds sent t.phase

theorem Next.isPrefix (h : t.Next sent m) : sent <+: t.upload.chunks ++ [t.last] := by
  obtain h | ⟨h, _⟩ := h
  case inl => exact ⟨[m, t.last], by rw [← h]; simp⟩
  case inr => exact ⟨[t.last], by rw [h]⟩

namespace Sound

theorem start {p : PeerId} {r : UInt32} {id : ResourceId} : (UploadThread.start p r id c).Sound [] :=
  ⟨.start, rfl⟩

theorem isPrefix (k : t.Sound sent) : sent <+: t.upload.chunks ++ [t.last] := by
  obtain ⟨_, hp⟩ := k
  cases h : t.phase <;> rw [h] at hp
  case read         => exact hp ▸ List.prefix_append ..
  case lookUp       => exact Next.isPrefix hp
  case fetch | push => exact Next.isPrefix hp.left
  case ended        => exact hp

-- The end carries no offset.
theorem offsets (k : t.Sound sent) : (sent.filterMap Message.offset).Pairwise (· < ·) := by
  have ⟨rest, hr⟩ := k.isPrefix
  have h := k.counts.offsets
  have he : (t.upload.chunks ++ [t.last]).filterMap Message.offset = t.upload.chunks.filterMap Message.offset := by
    rw [List.filterMap_append]
    exact List.append_nil _
  rw [← he, ← hr, List.filterMap_append] at h
  exact (List.pairwise_append.mp h).left

theorem read (k : t.Sound sent) (h : t.read result = some t') : t'.Sound sent ∧ t'.origin = t.origin := by
  obtain ⟨hc, hp⟩ := k
  simp only [UploadThread.read] at h
  split at h
  case h_3 => contradiction
  case h_1 he =>
    cases h
    rw [he] at hp
    exact ⟨⟨hc, hp ▸ List.prefix_append ..⟩, rfl⟩
  case h_2 data he =>
    rw [he] at hp
    split at h
    case isTrue => cases h; exact ⟨⟨hc, .inr ⟨hp, rfl⟩⟩, rfl⟩
    case isFalse hd =>
      split at h <;> cases h
      case isTrue hr => exact ⟨⟨hc.advance hr hd, .inl <| by rw [hc.chunks, hp]⟩, rfl⟩

-- The connection that is registered is the one that the request has come on, or there is none.
theorem lookUp (k : t.Sound sent) (ho : ∀ c, tables.peerIndex.lookup t.upload.target = some c → c = t.origin)
    (h : t.lookUp tables = some t') : t'.Sound sent ∧ t'.origin = t.origin := by
  obtain ⟨hc, hp⟩ := k
  simp only [UploadThread.lookUp] at h
  split at h <;> cases h
  case h_1 m he =>
    rw [he] at hp
    refine ⟨⟨hc, ?_⟩, rfl⟩
    cases hl : tables.peerIndex.lookup t.upload.target
    case none   => exact hp.isPrefix
    case some c => exact ⟨hp, ho c hl⟩

theorem fetch (k : t.Sound sent) (h : t.fetch tables = some t') : t'.Sound sent ∧ t'.origin = t.origin := by
  obtain ⟨hc, hp⟩ := k
  simp only [UploadThread.fetch] at h
  split at h <;> cases h
  case h_1 c m he =>
    rw [he] at hp
    cases hb : tables.entries.contains c
    case true  => exact ⟨⟨hc, by simp only [if_true]; exact hp⟩, rfl⟩
    case false => exact ⟨⟨hc, by simp only [Bool.false_eq_true, if_false]; exact hp.left.isPrefix⟩, rfl⟩

-- The writer thread has returned.
theorem fail (k : t.Sound sent) : { t with phase := .ended }.Sound sent :=
  ⟨k.counts, k.isPrefix⟩

theorem push (k : t.Sound sent) (h : t.phase = .push c m) : (t.next m).Sound (sent ++ [m]) ∧ c = t.origin := by
  obtain ⟨hc, hp⟩ := k
  rw [h] at hp
  refine ⟨⟨hc, ?_⟩, hp.right⟩
  simp only [UploadThread.next]
  obtain hn | ⟨hs, rfl⟩ := hp.left
  case inr =>
    rw [if_pos rfl, hs]
    exact List.prefix_rfl
  case inl =>
    split
    case isTrue  => exact hn ▸ List.prefix_append ..
    case isFalse => exact hn

end Sound
end UploadThread
namespace Serving

variable {s s' : Serving} {l : Label} {t t' : UploadThread} {c : ConnId} {f : OutgoingFrame} {i : Nat} {m : Message}

-- What a thread has put into the queue of a connection.
def sentBy (s : Serving) (i : Nat) (c : ConnId) : List Message :=
  (s.queued c).filter (·.thread = some i) |>.map (·.message)

-- What of it has arrived.
def receivedFrom (s : Serving) (i : Nat) (c : ConnId) : List Message :=
  (s.queued c).take (s.arrived c) |>.filter (·.thread = some i) |>.map (·.message)

-- What a thread sends goes out on the connection on which the request has come, and arrives in the
-- order of the file.
structure Stays (s : Serving) : Prop where
  origin  : ∀ {c f i}, f ∈ s.queued c → f.thread = some i → ∃ t, s.threads[i]? = some t ∧ t.origin = c
  ordered : ∀ i c, ((s.receivedFrom i c).filterMap Message.offset).Pairwise (· < ·)

-- When a thread looks for a connection of its peer, it finds the one on which the request has come, or none.
def Steady (s : Serving) : Label → Prop
  | .lookUp i => ∀ t c, s.threads[i]? = some t → s.tables.peerIndex.lookup t.upload.target = some c → c = t.origin
  | _         => True

structure Orderly (s : Serving) : Prop where
  sound  : ∀ {i} {t : UploadThread}, s.threads[i]? = some t → t.Sound (s.sentBy i t.origin)
  origin : ∀ {i c}, s.sentBy i c ≠ [] → ∃ t, s.threads[i]? = some t ∧ t.origin = c

theorem put_threads : (s.put c f).threads = s.threads := by
  rw [put]
  split <;> rfl

theorem sentBy_put (h : s.closed c = false) {c' : ConnId} :
    (s.put c f).sentBy i c' = s.sentBy i c' ++ if f.thread = some i ∧ c' = c then [f.message] else [] := by
  simp only [sentBy, put, h, Bool.false_eq_true, if_false]
  by_cases hc : c' = c
  case neg => simp [hc]
  case pos =>
    subst hc
    by_cases hf : f.thread = some i <;> simp [hf]

theorem put_closed (h : s.closed c = true) : s.put c f = s :=
  if_pos h

namespace Orderly

-- The threads are the same, and so is what they have sent.
theorem keep (k : s.Orderly) (ht : s'.threads = s.threads) (hq : ∀ i c, s'.sentBy i c = s.sentBy i c) : s'.Orderly where
  sound h  := hq .. ▸ k.sound (ht ▸ h)
  origin h := ht ▸ k.origin (hq .. ▸ h)

-- A frame of the event loop.
theorem put (k : s.Orderly) (h : f.thread = none) : (s.put c f).Orderly := by
  refine k.keep put_threads fun i c' => ?_
  cases hc : s.closed c
  case true  => rw [put_closed hc]
  case false => simp [sentBy_put hc, h]

-- A thread that has been started has not sent anything.
theorem start {p : PeerId} {r : UInt32} {id : ResourceId} (k : s.Orderly) :
    Orderly { s with threads := s.threads ++ [.start p r id c] } := by
  constructor
  case sound =>
    intro i t h
    replace h : (s.threads ++ [UploadThread.start p r id c])[i]? = some t := h
    rw [List.getElem?_append] at h
    split at h
    case isTrue  => exact k.sound h
    case isFalse hi =>
      have hs : s.sentBy i t.origin = [] := by
        by_contra hn
        have ⟨_, hj, _⟩ := k.origin hn
        exact hi (List.getElem?_eq_some_iff.mp hj).choose
      obtain rfl : t = .start p r id c := by simpa using List.mem_of_getElem? h
      show UploadThread.Sound _ (s.sentBy ..)
      exact hs ▸ .start
  case origin =>
    intro i c' h
    have ⟨t, ht, ho⟩ := k.origin h
    exact ⟨t, by rw [List.getElem?_append_left (List.getElem?_eq_some_iff.mp ht).choose]; exact ht, ho⟩

theorem perform {origin : Option ConnId} {e : Effect} (k : s.Orderly) : (s.perform origin e).Orderly := by
  cases e
  case respond | connect | scanTimer => exact k
  case send target m =>
    simp only [Serving.perform]
    cases s.tables.oldConnId target
    case none   => exact k
    case some c => exact k.put rfl
  case upload =>
    cases origin
    case none   => exact k.keep (List.append_nil _) fun _ _ => rfl
    case some c => exact k.start

theorem performs {origin : Option ConnId} {fx : List Effect} (k : s.Orderly) :
    (fx.foldl (Serving.perform origin) s).Orderly := by
  induction fx generalizing s
  case nil     => exact k
  case cons hi => exact hi k.perform

-- A thread goes on and puts some frames into the queue of its connection.
theorem turn {ms : List Message} (k : s.Orderly) (h : s.threads[i]? = some t) (ht : s'.threads = s.threads.set i t')
    (hq : ∀ j c, s'.sentBy j c = s.sentBy j c ++ if i = j ∧ c = t.origin then ms else [])
    (hs : t'.Sound (s.sentBy i t.origin ++ ms) ∧ t'.origin = t.origin) : s'.Orderly := by
  have ⟨hs, ho⟩ := hs
  have hl := (List.getElem?_eq_some_iff.mp h).choose
  constructor
  case sound =>
    intro j t'' hj
    rw [ht, List.getElem?_set] at hj
    split at hj
    case isFalse he => simpa [hq, he] using k.sound hj
    case isTrue he =>
      subst he
      cases hj
      simpa [hq, ho] using hs
  case origin =>
    intro j c hn
    rw [ht, List.getElem?_set]
    split
    case isFalse he => exact k.origin <| by simpa [hq, he] using hn
    case isTrue he =>
      subst he
      refine ⟨t', rfl, ?_⟩
      by_cases hc : c = t.origin
      case pos => exact hc ▸ ho
      case neg =>
        have hn : s.sentBy i c ≠ [] := by simpa [hq, hc] using hn
        have ⟨t'', h'', hc⟩ := k.origin hn
        cases h.symm.trans h''
        exact ho.trans hc

theorem silent (k : s.Orderly) (h : s.threads[i]? = some t)
    (hs : t'.Sound (s.sentBy i t.origin) ∧ t'.origin = t.origin) : (s.setThread i t').Orderly :=
  @turn _ _ _ t' _ [] k h rfl (by simp [sentBy, setThread]) (by simpa using hs)

theorem push (k : s.Orderly) (h : s.threads[i]? = some t) (hs : s.push i t = some s') : s'.Orderly := by
  simp only [Serving.push] at hs
  split at hs
  case h_2 => contradiction
  case h_1 c m hp =>
    split at hs <;> cases hs
    case isTrue => exact k.silent h ⟨(k.sound h).fail, rfl⟩
    case isFalse hc =>
      obtain ⟨ht, rfl⟩ := (k.sound h).push hp
      refine k.turn h (congrArg (List.set · i _) put_threads) (fun j c => ?_) ⟨ht, rfl⟩
      show (s.put _ ⟨some i, m⟩).sentBy j c = _
      simp [sentBy_put (Bool.eq_false_iff.mpr hc)]

theorem init (h : Initial s) : s.Orderly := by
  obtain ⟨_, _, rfl⟩ := h
  exact ⟨fun h => absurd h (by simp [Serving.new]), fun h => absurd rfl h⟩

-- What has arrived is a first part of what has been sent.
theorem stays (k : s.Orderly) : s.Stays := by
  have origin {c f i} (hf : f ∈ s.queued c) (hi : f.thread = some i) : ∃ t, s.threads[i]? = some t ∧ t.origin = c :=
    k.origin <| List.ne_nil_of_mem <| List.mem_map_of_mem <| List.mem_filter.mpr ⟨hf, decide_eq_true hi⟩
  refine ⟨origin, fun i c => ?_⟩
  have hr : s.receivedFrom i c <+: s.sentBy i c := ((List.take_prefix ..).filter _).map _
  by_cases hn : s.sentBy i c = []
  case pos =>
    rw [hn, List.prefix_nil] at hr
    rw [hr]
    exact .nil
  case neg =>
    obtain ⟨t, ht, rfl⟩ := k.origin hn
    exact (k.sound ht).offsets.sublist (hr.filterMap _).sublist

variable [Crypto] {me : PeerId}

theorem handle {env : Env} (k : s.Orderly) (h : s.handle env = some s') : s'.Orderly := by
  simp only [Serving.handle] at h
  split at h
  case h_2 => contradiction
  case h_1 => exact Option.some.inj h ▸ Orderly.performs (k.keep rfl fun _ _ => rfl)

theorem step (k : s.Orderly) (h : s.step me l = some s') (hc : s.Steady l) : s'.Orderly := by
  cases l
  case node l =>
    cases l
    case handle => contradiction
    all_goals
      have ⟨_, _, h⟩ := Option.map_eq_some_iff.mp h
      exact h ▸ k.keep rfl fun _ _ => rfl
  case handle => exact k.handle h
  case read i result =>
    have ⟨t, ht, h⟩ := Option.bind_eq_some_iff.mp h
    have ⟨t', hr, h⟩ := Option.map_eq_some_iff.mp h
    exact h ▸ k.silent ht ((k.sound ht).read hr)
  case lookUp i =>
    have ⟨t, ht, h⟩ := Option.bind_eq_some_iff.mp h
    have ⟨t', hr, h⟩ := Option.map_eq_some_iff.mp h
    exact h ▸ k.silent ht ((k.sound ht).lookUp (hc t · ht) hr)
  case fetch i =>
    have ⟨t, ht, h⟩ := Option.bind_eq_some_iff.mp h
    have ⟨t', hr, h⟩ := Option.map_eq_some_iff.mp h
    exact h ▸ k.silent ht ((k.sound ht).fetch hr)
  case push i =>
    have ⟨t, ht, h⟩ := Option.bind_eq_some_iff.mp h
    exact k.push ht h
  case close =>
    cases h
    exact k.keep rfl fun _ _ => rfl
  case write | arrive =>
    simp only [Serving.step] at h
    split at h <;> cases h
    exact k.keep rfl fun _ _ => rfl

theorem reachable (r : Reachable (system me |>.restrict Steady) s) : s.Orderly :=
  have i : Invariant (system me |>.restrict Steady) Orderly := ⟨init, fun k h => k.step h.left h.right⟩
  i.reachable r

end Orderly

-- What a thread has begun on a connection, it does not go on with on another one.
theorem stays_of_steady [Crypto] {me : PeerId} (r : Reachable (system me |>.restrict Steady) s) : s.Stays :=
  (Orderly.reachable r).stays

def daemonId : PeerId :=
  ⟨.replicate 32 1⟩

def peer : PeerId :=
  ⟨.replicate 32 9⟩

def photo : ResourceId :=
  ⟨.replicate 32 7⟩

def fresh : Serving :=
  .new <| .new <| .new ⟨(∅ : Table _ _).insert photo ("/srv/photo".toList, ⟨photo, "photo", 2⟩)⟩ "/downloads".toList .empty

-- A peer asks for a file, and the thread that sends it has sent the first chunk of it.
def serving : List Label := [
  .node <| .register ⟨peer, .incoming, ()⟩,
  .node <| .read 1 <| .ok <| some (Message.downloadResource 4 photo).toFrame,
  .handle <| .fine 0,
  .read 0 <| .ok [1],
  .lookUp 0,
  .fetch 0,
  .push 0,
  .write 1,
  .arrive 1
]

-- The peer connects again, and the thread finds the second connection.
def reconnecting : List Label := [
  .node <| .register ⟨peer, .incoming, ()⟩,
  .read 0 <| .ok [2],
  .lookUp 0,
  .fetch 0,
  .push 0
]

def served : Serving :=
  (serving.foldlM (@step .transparent daemonId) fresh).getD fresh

def strayed : Serving :=
  (reconnecting.foldlM (@step .transparent daemonId) served).getD served

theorem fresh_initial : Initial fresh :=
  ⟨_, ⟨_, _, _, rfl⟩, rfl⟩

theorem served_run : Run (@system .transparent daemonId |>.restrict Steady) fresh serving served := by
  refine .step ⟨rfl, trivial⟩ <| .step ⟨rfl, trivial⟩ <| .step ⟨rfl, trivial⟩ <| .step ⟨rfl, trivial⟩ <|
    .step ⟨rfl, fun t c ht hc => ?_⟩ <| .step ⟨rfl, trivial⟩ <| .step ⟨rfl, trivial⟩ <| .step ⟨rfl, trivial⟩ <|
    .step ⟨rfl, trivial⟩ .refl
  cases ht
  cases hc
  rfl

theorem stays_of_steady_served : served.Stays :=
  @stays_of_steady served .transparent daemonId <| served_run.reachable <| .init fresh_initial

theorem strayed_run : Run (@system .transparent daemonId) served reconnecting strayed :=
  .ofFn (rfl : reconnecting.foldlM (@step .transparent daemonId) served = _)

theorem strayed_not_stays : Reachable (@system .transparent daemonId) strayed ∧ ¬strayed.Stays := by
  refine ⟨strayed_run.reachable (served_run.reachable <| .init fresh_initial).of_restrict, fun x => ?_⟩
  have hf : ⟨some 0, .resourceChunk 4 photo 1 [2]⟩ ∈ strayed.queued 2 := by decide +kernel
  have ht : strayed.threads[0]?.map (·.origin) = some 1 := by decide +kernel
  obtain ⟨t, h, ho⟩ := x.origin hf rfl
  rw [h, Option.map_some, ho] at ht
  contradiction

end Serving
end Parsip
