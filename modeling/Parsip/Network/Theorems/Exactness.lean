import Parsip.Network.Theorems.Orderly
import Parsip.Network.Theorems.Refinement
import Parsip.Network.Theorems.Wire

-- What a daemon reports as a complete download is what its peer has read.

namespace Parsip

open PosixPath Transition

namespace Network

variable {s : Queued} {a : PeerId} {e : PeerEvent} {events : List PeerEvent} {d : Daemon} {fx : List Effect} {env : Env}

-- The upload `u` of `q` has come to its end, all that it has read is in place at `a`, whose daemon is `d`
-- now, and `bytes` counts it.
structure Delivered (host : PeerId → Host) (a q : PeerId) (d : Daemon) (u : Upload) (bytes : UInt64) : Prop where
  target   : u.target = a
  finished : u ∈ (host q).finished
  transfer : ∃ t, (host a).monitor.daemon.transferMgr.transfers.lookup u.requestId = some t ∧
    t.peerId = q ∧ t.resourceId = u.id
  file     : ∃ download, (host a).monitor.daemon.downloadMgr.downloads.lookup u.id = some download ∧
    d.storage.disk.read (resolve <| (host a).monitor.daemon.downloadMgr.finalPath download.info) = some u.reads.flatten
  count    : bytes.toNat = u.reads.flatten.length
  sent     : u.Sent q ((host a).monitor.log.accepted u.id)

-- Every download that `a` reports complete on an event is.
def Exact (host : PeerId → Host) (a : PeerId) (e : PeerEvent) (d : Daemon) (fx : List Effect) : Prop :=
  ∀ sender bytes elapsed, .respond sender (.downloadComplete bytes elapsed) ∈ fx →
    ∃ q u, e = .message q (.resourceEnd u.requestId u.id) ∧
      (host a).monitor.daemon.reqTracker.get u.requestId = some sender ∧ Delivered host a q d u bytes

theorem Orderly.exact [Crypto] (o : Orderly s) (he : (s.host a).events = e :: events)
    (hd : (s.host a).monitor.daemon.handleEvent (s.env a env) e = .ok (d, fx)) : Exact s.host a e d fx := by
  intro sender bytes elapsed hf
  obtain ⟨q, r, id, rfl⟩ := (Daemon.handleEvent_emits hd hf).ends trivial
  have ⟨_, result, hc, hr⟩ := Daemon.resourceEnd_spec (Except.ok.inj hd)
  obtain ⟨_, _, rfl⟩ | ⟨rfl, _, hr⟩ := hr
  case inl => contradiction
  case inr =>
    have ⟨t, sender', ht, hg, he'⟩ := hr _ hf
    cases he'
    have ⟨ms, h⟩ := answers_cons he Message.answers_end
    obtain ⟨t', ht', rfl, rfl, run, u, hu, hs, hi, sent⟩ := (o.sessions a r).ended h
    cases ht.symm.trans ht'
    obtain ⟨rfl, rfl⟩ := of_decide_eq_true hs
    have ⟨download, hl, hr⟩ := ((o.clean _).traced.holds.complete hc fun _ {_ _ _} hd _ _ => (o.clean _).finalPath_ne hd).right rfl
    refine ⟨t.peerId, u, hi ▸ rfl, hg, rfl, hu, ⟨t, ht, rfl, hi.symm⟩, ⟨download, hi ▸ hl, ?_⟩, ?_, hi ▸ sent⟩
    case refine_1 => rw [hr, sent.bytes]
    case refine_2 => rw [run.counted, sent.bytes]

theorem taking_forget {κ : Type} {P : Daemon → PeerEvent → Prop} {host : PeerId → Host} {l : Label κ} :
    Taking P host l.forget = Taking P host l := by
  cases l <;> rfl

-- As long as no identifier of a transfer that is not over is used again, what is reported is exact.
theorem exact_of_fresh [Crypto] {s : Network Wire.channel} (r : Reachable ((system Wire.channel).restrict fun s l =>
    Taking (fun d e => d.Plain e ∧ d.Fresh e) s.host l) s) (he : (s.host a).events = e :: events)
    (hd : (s.host a).monitor.daemon.handleEvent (s.env a env) e = .ok (d, fx)) : Exact s.host a e d fx := by
  have r : Reachable ((system Wire.channel).restrict fun s l =>
      Taking (fun d e => d.Plain e ∧ d.Fresh e) s.host l.forget) s := by simpa only [taking_forget] using r
  have ⟨t, ht, rt⟩ := Refines.reachable Wire.fifo r
  simp only [taking_forget] at ht
  have hv : t.env a env = s.env a env := rfl
  rw [← rt.host] at he hd ⊢
  exact (Orderly.reachable ht).exact he (hv ▸ hd)

def asker : PeerId :=
  ⟨.replicate 32 1⟩

def holder : PeerId :=
  ⟨.replicate 32 2⟩

def fresh : Network Wire.channel where
  host _ := ⟨.fresh, [], [], []⟩
  link _ _ := .empty
  connected _ _ := false

theorem fresh_initial : Initial fresh :=
  ⟨fun _ => ⟨Monitor.fresh_initial, rfl, rfl, rfl⟩, fun _ _ => rfl, fun _ _ => rfl⟩

def handling (a : PeerId) (e : PeerEvent) (env : Env) : List (Label Wire.Turn) :=
  [.post a e, .loop a env]

-- A message passes from `a` to `b` in one piece.
def passing (a b : PeerId) (m : Message) : List (Label Wire.Turn) :=
  let n := (HandOff.encode m).length
  [.link a b .take, .link a b (.move (.write n)), .link a b (.move (.deliver n)), .link a b (.move (.read n)),
    .link a b .decode]

def opening (contents : Bytes) : Env :=
  { Env.fine 0 with openFile _ := .ok ⟨.ok (.ofNat contents.length), contents⟩ }

def song : ResourceInfo where
  id := ⟨@Crypto.sha256 .transparent [7, 7]⟩
  name := "song"
  size := 2

def poem : ResourceInfo where
  id := ⟨@Crypto.sha256 .transparent [8]⟩
  name := "poem"
  size := 1

-- One daemon offers two files. The other one asks for the first and gets all of it, but not the end.
def sending : List (Label Wire.Turn) :=
  [.connect asker holder, .connect holder asker] ++
  handling holder (.controlRequest (.addResource "/poem") 0) (opening [8]) ++
  handling holder (.controlRequest (.addResource "/song") 0) (opening [7, 7]) ++
  handling asker (.newConnection holder) (.fine 0) ++
  handling asker (.controlRequest (.listResources "p1") 0) (.fine 0) ++
  passing asker holder (.listResources 1) ++
  [.loop holder (.fine 0)] ++
  passing holder asker (.resourceList 1 [song, poem]) ++
  [.loop asker (.fine 0)] ++
  handling asker (.controlRequest (.getResource "p1" "r1") 0) (.fine 0) ++
  passing asker holder (.downloadResource 2 song.id) ++
  [.loop holder (.fine 0), .read holder 0 (.ok [7, 7])] ++
  passing holder asker (.resourceChunk 2 song.id 0 [7, 7]) ++
  [.loop asker (.fine 0)]

-- Meanwhile it asks for the second as well, and gets its first chunk.
def joining : List (Label Wire.Turn) :=
  handling asker (.controlRequest (.getResource "p1" "r2") 1) (.fine 0) ++
  passing asker holder (.downloadResource 3 poem.id) ++
  [.loop holder (.fine 0), .read holder 1 (.ok [8])] ++
  passing holder asker (.resourceChunk 3 poem.id 0 [8]) ++
  [.loop asker (.fine 0)]

def ending : List (Label Wire.Turn) :=
  [.read holder 0 (.ok [])] ++ passing holder asker (.resourceEnd 2 song.id)

def last : PeerEvent :=
  .message holder <| .resourceEnd 2 song.id

-- A step under a condition on the events that loops take.
def stepIf (P : Daemon → PeerEvent → Prop) [∀ d e, Decidable (P d e)] (s : Network Wire.channel) (l : Label Wire.Turn) :
    Option (Network Wire.channel) :=
  if Taking P s.host l then @step _ _ .transparent s l else none

theorem stepIf_run {P : Daemon → PeerEvent → Prop} [∀ d e, Decidable (P d e)] {s : Network Wire.channel}
    {ls : List (Label Wire.Turn)} (h : (ls.foldlM (stepIf P) s).isSome) :
    Run (@system _ .transparent Wire.channel |>.restrict fun s l => Taking P s.host l) s ls
      ((ls.foldlM (stepIf P) s).getD s) :=
  .ofFn_restrict (Option.getD_of_ne_none (Option.isSome_iff_ne_none.mp h) s).symm

def ended : Network Wire.channel :=
  ((sending ++ joining ++ ending).foldlM (stepIf fun d e => d.Plain e ∧ d.Fresh e) fresh).getD fresh

def ended' : Daemon × List Effect :=
  (ended.host asker).monitor.daemon.handleMessage (ended.env asker (.fine 0)) holder <| .resourceEnd 2 song.id

deriving instance DecidableEq for PeerEvent

theorem ended_reachable : Reachable (@system _ .transparent Wire.channel |>.restrict fun s l =>
    Taking (fun d e => d.Plain e ∧ d.Fresh e) s.host l) ended :=
  (stepIf_run (by decide +kernel)).reachable <| .init fresh_initial

theorem ended_events : (ended.host asker).events = [last] := by
  decide +kernel

theorem exact_of_fresh_ended : .respond 0 (.downloadComplete 2 0) ∈ ended'.snd ∧
    ended'.fst.downloadMgr.downloads.contains poem.id ∧ Exact ended.host asker last ended'.fst ended'.snd :=
  ⟨by decide +kernel, by decide +kernel,
    @exact_of_fresh asker last [] _ _ (.fine 0) .transparent ended ended_reachable ended_events <|
      congrArg Except.ok Prod.mk.eta.symm⟩

-- A scan that cannot be broadcast, and what many of them leave behind.
def scan : PeerEvent :=
  .controlRequest .scan 0

def unsent : Env :=
  { Env.fine 0 with broadcastScan := .error ⟨.other, ""⟩ }

end Network

namespace Host

def scanned (h : Host) (n : Nat) : Host :=
  { h with monitor := {
    daemon := { h.monitor.daemon with reqTracker := { h.monitor.daemon.reqTracker with
      nextId := h.monitor.daemon.reqTracker.nextId + .ofNat n } }
    log    := { h.monitor.log with handled := h.monitor.log.handled ++ List.replicate n Network.scan } } }

variable {h : Host} {n : Nat}

theorem scanned_zero : h.scanned 0 = h := by
  simp [scanned]

theorem scanned_succ : (h.scanned n).scanned 1 = h.scanned (n + 1) := by
  simp [scanned, List.replicate_succ', UInt32.add_assoc]

end Host

namespace Network

variable {κ : Type} {c : Channel Message κ} {n : Network c} {k : Nat}

def scans (a : PeerId) : Nat → List (Label κ)
  | 0     => []
  | k + 1 => scans a k ++ [.post a scan, .loop a unsent]

theorem scan_handled [Crypto] {d : Daemon} (env : Env) (hb : env.broadcastScan = .error ⟨.other, ""⟩)
    (hd : d.aliases.discoveredPeers = ∅) (hp : d.reqTracker.get d.reqTracker.nextId = none) :
    d.handleEvent env scan = .ok ({ d with reqTracker := { d.reqTracker with nextId := d.reqTracker.nextId + 1 } },
      [.respond 0 <| .error "Failed to broadcast: "]) := by
  have ha : { d.aliases with discoveredPeers := ∅ } = d.aliases := by rw [← hd]
  have ht : (d.reqTracker.pendingRequests.insert d.reqTracker.nextId 0).erase d.reqTracker.nextId =
      d.reqTracker.pendingRequests := Table.erase_insert hp
  simp [Daemon.handleEvent, Daemon.handleControl, scan, hb, Daemon.finish, RequestTracker.complete,
    RequestTracker.register, RequestTracker.advance, ha, ht]

theorem scan_run [Crypto] (he : (n.host a).events = []) (hd : (n.host a).monitor.daemon.aliases.discoveredPeers = ∅)
    (hp : (n.host a).monitor.daemon.reqTracker.get (n.host a).monitor.daemon.reqTracker.nextId = none) :
    Run ((system c).restrict fun s l => Taking Daemon.Plain s.host l) n [.post a scan, .loop a unsent]
      (n.setHost a ((n.host a).scanned 1)) := by
  refine .step ⟨rfl, trivial⟩ <| .step ⟨?_, fun e he' => ?_⟩ .refl
  case refine_2 =>
    obtain rfl : scan = e := by simpa [post, he] using he'
    simp [Daemon.Plain, Daemon.wanted, scan]
  case refine_1 =>
    have hh := scan_handled (Network.env (n.post a scan) a unsent) rfl hd hp
    show Network.step (n.post a scan) (.loop a unsent) = some _
    have hm : ((n.post a scan).host a).monitor = (n.host a).monitor := post_monitor
    have hv : ((n.post a scan).host a).events = [scan] := by simp [post, he]
    simp only [step, hv, hm, hh]
    simp [handled, performAll, perform, post, setHost, Host.scanned, he, Log.record, Log.observe, scan]

theorem scans_run [Crypto] (he : (n.host a).events = []) (hd : (n.host a).monitor.daemon.aliases.discoveredPeers = ∅)
    (hp : ∀ i < k, (n.host a).monitor.daemon.reqTracker.get
      ((n.host a).monitor.daemon.reqTracker.nextId + .ofNat i) = none) :
    Run ((system c).restrict fun s l => Taking Daemon.Plain s.host l) n (scans a k)
      (n.setHost a ((n.host a).scanned k)) := by
  induction k
  case zero =>
    rw [Host.scanned_zero, setHost, Function.update_eq_self]
    exact .refl
  case succ k hi =>
    refine (hi fun i h => hp i (Nat.lt_succ_of_lt h)).append ?_
    have r := scan_run (a := a) (n := n.setHost a ((n.host a).scanned k))
    simp only [setHost_host_self, Host.scanned_succ] at r
    have hs {h h' : Host} : (n.setHost a h).setHost a h' = n.setHost a h' := by simp [setHost]
    rw [hs] at r
    exact r he hd (hp k (Nat.lt_succ_self k))

def sent : Network Wire.channel :=
  (sending.foldlM (stepIf Daemon.Plain) fresh).getD fresh

-- All identifiers have been used once when it asks for the other file, and then comes the end of the
-- first one.
def lapped : Network Wire.channel :=
  sent.setHost asker <| (sent.host asker).scanned (2 ^ 32 - 1)

def repeating : List (Label Wire.Turn) :=
  handling asker (.controlRequest (.getResource "p1" "r2") 0) (.fine 0) ++ ending

def repeated : Network Wire.channel :=
  (repeating.foldlM (stepIf Daemon.Plain) lapped).getD lapped

def repeated' : Daemon × List Effect :=
  (repeated.host asker).monitor.daemon.handleMessage (repeated.env asker (.fine 0)) holder <| .resourceEnd 2 song.id

theorem repeated_reachable : Reachable (@system _ .transparent Wire.channel |>.restrict fun s l =>
    Taking Daemon.Plain s.host l) repeated := by
  let _ := Crypto.transparent
  have hs : Run _ fresh sending sent := stepIf_run (by decide +kernel)
  have hl : Run ((system Wire.channel).restrict fun s l => Taking Daemon.Plain s.host l) sent (scans asker (2 ^ 32 - 1)) lapped := by
    have hd : (sent.host asker).monitor.daemon.aliases.discoveredPeers.toList = [] := by decide +kernel
    refine scans_run (by decide +kernel) (Table.eq_empty_of_toList hd) fun i hi => ?_
    have hn : (sent.host asker).monitor.daemon.reqTracker.nextId = 3 := by decide +kernel
    have ht : (sent.host asker).monitor.daemon.reqTracker.pendingRequests.toList = [(2, 0)] := by decide +kernel
    refine Option.eq_none_iff_forall_ne_some.mpr fun c h => ?_
    have hm := ht ▸ Table.mem_toList.mpr h
    have hm := congrArg (UInt32.toNat ∘ Prod.fst) <| List.mem_singleton.mp hm
    simp [hn] at hm
    omega
  exact ((hs.append hl).append (stepIf_run (by decide +kernel))).reachable <| .init fresh_initial

-- All of the file is there, and nothing is reported.
theorem repeated_not_exact : Reachable (@system _ .transparent Wire.channel |>.restrict fun s l =>
      Taking Daemon.Plain s.host l) repeated ∧ (repeated.host asker).events = [last] ∧
    @Daemon.handleEvent .transparent (repeated.env asker (.fine 0)) (repeated.host asker).monitor.daemon last = .ok repeated' ∧
    ¬Exact repeated.host asker last repeated'.fst repeated'.snd := by
  refine ⟨repeated_reachable, by decide +kernel, rfl, fun h => ?_⟩
  have hf : .respond 0 (.downloadComplete 0 0) ∈ repeated'.snd := by decide +kernel
  obtain ⟨q, u, he, _, dl⟩ := h 0 0 0 hf
  obtain ⟨download, hl, hr⟩ := dl.file
  have hu : u.id = song.id := by
    simp only [last, PeerEvent.message.injEq, Message.resourceEnd.injEq] at he
    exact he.right.right.symm
  have hi : ((repeated.host asker).monitor.daemon.downloadMgr.downloads.lookup song.id).map (·.info) = some song := by
    decide +kernel
  have hs : (repeated'.fst.storage.disk.read <| resolve <|
      (repeated.host asker).monitor.daemon.downloadMgr.finalPath song).map List.length = some 2 := by decide +kernel
  have hi : download.info = song := by simpa [← hu, hl] using hi
  rw [← hi, hr, Option.map_some, ← dl.count] at hs
  exact absurd hs (by decide)

end Network
end Parsip
