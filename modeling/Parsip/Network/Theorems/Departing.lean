import Parsip.Daemon.Theorems.Endings
import Parsip.Daemon.Theorems.Superseded
import Parsip.Network.Departing
import Parsip.Network.Theorems.Mesh.Routing

-- When a peer that has gone away stays away until it comes back.

namespace Parsip

open Transition

namespace Departing

variable {me p : PeerId} {s s' : Departing} {l : Label} {c : ConnId} {env : Env}

-- Who has gone away is not connected, and there is no transfer from it.
structure Parted (s : Departing) : Prop where
  disconnected : ∀ {p c}, (p, c) ∈ s.departed → s.tables.isConnected p = false
  transfers    : ∀ {p c r t}, (p, c) ∈ s.departed → s.daemon.transferMgr.transfers.lookup r = some t → t.peerId ≠ p

-- Nothing gets into the queue of a connection of a peer that has gone away.
def Quiet (s s' : Departing) : Prop :=
  ∀ p c, (p, c) ∈ s.departed → s'.queued c = s.queued c

-- The end of a connection is handled after the reader has removed it, and until a peer is connected again
-- no download from it is started.
def Careful (s : Departing) : Label → Prop
  | .handle env =>
    match s.node.events with
    | ⟨some c, .disconnected _⟩ :: _ => ¬s.node.Closing c
    | ⟨_, .controlRequest (.getResource peerAlias resourceAlias) _⟩ :: _ =>
      ∀ p c, (p, c) ∈ s.departed → s.daemon.aliases.getPeer peerAlias = some p → ¬s.daemon.Starts env peerAlias resourceAlias
    | _ => True
  | _ => True

theorem departs_eq (h : s.departs = some (p, c)) : ∃ events, s.node.events = ⟨some c, .disconnected p⟩ :: events ∧
    ∀ c', s.tables.peerIndex.lookup p = some c' → c' = c := by
  simp only [departs] at h
  split at h
  case h_2 => contradiction
  case h_1 he =>
    split at h <;> cases h
    case isTrue hc => exact ⟨_, he, fun c' h => hc c' h⟩

theorem departs_of_index {events : List QueuedEvent} (h : s.node.events = ⟨some c, .disconnected p⟩ :: events)
    (hc : s.tables.peerIndex.lookup p = some c) : s.departs = some (p, c) := by
  simp only [departs, h, hc]
  simp

theorem careful_disconnected {events : List QueuedEvent}
    (h : s.node.events = ⟨some c, .disconnected p⟩ :: events) : s.Careful (.handle env) ↔ ¬s.node.Closing c := by
  simp only [Careful, h]

theorem careful_getResource {origin : Option ConnId} {events : List QueuedEvent} {peerAlias resourceAlias : String}
    {sender : ReplyTo} (h : s.node.events = ⟨origin, .controlRequest (.getResource peerAlias resourceAlias) sender⟩ :: events) :
    s.Careful (.handle env) ↔ ∀ p c, (p, c) ∈ s.departed → s.daemon.aliases.getPeer peerAlias = some p →
      ¬s.daemon.Starts env peerAlias resourceAlias := by
  simp only [Careful, h]

variable [Crypto]

theorem handle_spec (h : s.step me (.handle env) = some s') : ∃ e events d fx, s.node.events = e :: events ∧ s.sending = [] ∧
    s.daemon.handleEvent env e.event = .ok (d, fx) ∧
    s.node.step me (.handle env) = some s'.node ∧
    s' = { s with
      node     := { s.node with daemon := d, events, effects := s.node.effects ++ fx }
      sending  := fx.filterMap Effect.call
      departed := s.departed ++ s.departs.toList } := by
  simp only [step, handle] at h
  split at h <;> cases h
  case h_1 node hs hn =>
    replace hn : s.node.step me (.handle env) = some node := hn
    cases Node.takes hn
    case handle e events d fx he hd => exact ⟨e, events, d, fx, he, hs, hd, hn, by simp⟩

omit [Crypto] in
theorem put_node {m : Message} : (s.put c m).node = s.node := by
  rw [put]
  split <;> rfl

omit [Crypto] in
theorem put_departed {m : Message} : (s.put c m).departed = s.departed := by
  rw [put]
  split <;> rfl

omit [Crypto] in
theorem put_queued_of_ne {c' : ConnId} {m : Message} (h : c' ≠ c) : (s.put c m).queued c' = s.queued c' := by
  rw [put]
  split
  case isTrue  => rfl
  case isFalse => exact Function.update_of_ne h ..

-- The daemon and its connections take a step, and events are handled one after another, or they stay as they are.
theorem step_cases (h : s.step me l = some s') :
    (∃ l' node, l = .node l' ∧ (∀ env, l' ≠ .handle env) ∧ s.node.step me l' = some node ∧
      s' = { s with node, departed := s.departed.filter fun (p, _) => s.inserts me l' ≠ some p }) ∨
    (∃ env, l = .handle env ∧ s.step me (.handle env) = some s') ∨
    (∀ env, l ≠ .handle env) ∧ s'.node = s.node ∧ s'.departed = s.departed ∧
      (∀ x ∈ s'.sending, x ∈ s.sending ∨ ∃ y ∈ s.sending, y.next s.tables = some x) ∧
      ∀ c, s'.queued c ≠ s.queued c → ∃ x ∈ s.sending, x.phase = .push c := by
  cases l
  case node l' =>
    by_cases hl : ∀ env, l' ≠ .handle env
    case neg =>
      cases l' <;> first | contradiction | exact absurd (fun _ => Node.Label.noConfusion) hl
    case pos =>
      have h : (s.node.step me l').map (fun node =>
          { s with node, departed := s.departed.filter fun (p, _) => s.inserts me l' ≠ some p }) = some s' := by
        cases l' <;> first | exact h | exact absurd rfl <| hl _
      obtain ⟨node, hn, rfl⟩ := Option.map_eq_some_iff.mp h
      exact .inl ⟨l', node, rfl, hl, hn, rfl⟩
  case handle env => exact .inr <| .inl ⟨env, rfl, h⟩
  case send =>
    refine .inr <| .inr ⟨fun _ => Label.noConfusion, ?_⟩
    simp only [step, send] at h
    split at h <;> cases h
    case h_3 x sending _ hs =>
      refine ⟨rfl, rfl, fun y hm => ?_, fun _ hn => absurd rfl hn⟩
      obtain hm | hm := List.mem_append.mp hm
      case inl => exact .inr ⟨x, hs ▸ List.mem_cons_self .., Option.mem_toList.mp hm⟩
      case inr => exact .inl <| hs ▸ List.mem_cons_of_mem _ hm
  case push =>
    refine .inr <| .inr ⟨fun _ => Label.noConfusion, ?_⟩
    simp only [step, push] at h
    split at h <;> cases h
    case h_1 x m n sending hs =>
      refine ⟨put_node, put_departed, fun y hm => .inl (hs ▸ List.mem_cons_of_mem _ hm), fun c hn => ?_⟩
      refine ⟨_, hs ▸ List.mem_cons_self .., ?_⟩
      by_contra hc
      exact hn <| put_queued_of_ne fun he => hc (he ▸ rfl)
  case close =>
    cases h
    exact .inr <| .inr ⟨fun _ => Label.noConfusion, rfl, rfl, fun _ hm => .inl hm, fun _ hn => absurd rfl hn⟩

-- The connections of the peers that have gone away have been theirs.
structure Tidy (s : Departing) : Prop where
  sound     : s.node.Sound
  attended  : s.node.Attended
  announced : s.node.Announced
  remote    : ∀ {p c}, (p, c) ∈ s.departed → s.node.remote c = some p

namespace Tidy

omit [Crypto] in
theorem init (h : Initial s) : Tidy s := by
  obtain ⟨node, hn, rfl⟩ := h
  exact ⟨.init hn, .init hn, .init hn, nofun⟩

-- The node takes a step, and who has gone away has done so before or goes away with the next event.
theorem move {l' : Node.Label} (t : Tidy s) (h : s.node.step me l' = some s'.node)
    (hd : ∀ {p c}, (p, c) ∈ s'.departed → (p, c) ∈ s.departed ∨ s.departs = some (p, c)) : Tidy s' where
  sound     := t.sound.step h
  attended  := (t.attended.step h).left
  announced := t.announced.step t.attended h
  remote hm := by
    refine (t.attended.step h).right ?_
    obtain hm | hm := hd hm
    case inl => exact t.remote hm
    case inr =>
      obtain ⟨events, he, _⟩ := departs_eq hm
      exact t.announced.remote <| he ▸ List.mem_cons_self ..

theorem step (t : Tidy s) (h : s.step me l = some s') : Tidy s' := by
  obtain ⟨l', node, _, _, hn, rfl⟩ | ⟨env, _, h⟩ | ⟨_, hn, hd, _, _⟩ := step_cases h
  case inl => exact t.move hn fun hm => .inl (List.mem_filter.mp hm).left
  case inr.inl =>
    obtain ⟨e, events, d, fx, _, _, _, hn, hs⟩ := handle_spec h
    refine t.move hn fun hm => ?_
    rw [hs, List.mem_append, Option.mem_toList] at hm
    exact hm
  case inr.inr => exact ⟨hn ▸ t.sound, hn ▸ t.attended, hn ▸ t.announced, fun hm => hn ▸ t.remote (hd ▸ hm)⟩

theorem reachable (r : Reachable (system me) s) : Tidy s :=
  Invariant.reachable ⟨init, step⟩ r

end Tidy

-- A call that has found a connection has found one of its peer, and the peer has not gone away.
structure Settled (s : Departing) : Prop where
  parted : s.Parted
  calls  : ∀ {x c}, x ∈ s.sending → x.At c → s.node.remote c = some x.target ∧ ∀ p, (p, c) ∉ s.departed

namespace Settled

omit [Crypto] in
theorem init (h : Initial s) : Settled s := by
  obtain ⟨node, _, rfl⟩ := h
  exact ⟨⟨nofun, nofun⟩, nofun⟩

omit [Crypto] in
-- The index does not know the connections of peers that have gone away.
theorem next {x y : Sending} (k : Settled s) (t : Tidy s) (hx : x ∈ s.sending) (h : x.next s.tables = some y) (hc : y.At c) :
    s.node.remote c = some y.target ∧ ∀ p, (p, c) ∉ s.departed := by
  simp only [Sending.next] at h
  split at h
  case h_3 => contradiction
  case h_1 =>
    obtain ⟨c', hl, rfl⟩ := Option.map_eq_some_iff.mp h
    obtain hc | hc := hc <;> cases hc
    have hr := t.attended.indexed hl
    refine ⟨hr, fun p hm => ?_⟩
    cases hr.symm.trans <| t.remote hm
    have hn := Table.contains_eq_false.mp <| k.parted.disconnected hm
    cases hn.symm.trans hl
  case h_2 c' hp =>
    split at h <;> cases h
    obtain hc | hc := hc <;> cases hc
    exact @k.calls x c hx <| .inl hp

theorem move {l' : Node.Label} {node : Node} (k : Settled s) (t : Tidy s) (hl : ∀ env, l' ≠ .handle env)
    (h : s.node.step me l' = some node) :
    Settled { s with node, departed := s.departed.filter fun (p, _) => s.inserts me l' ≠ some p } := by
  refine ⟨⟨fun hm => ?_, fun hm ht => ?_⟩, fun hx hc => ?_⟩
  case refine_1 =>
    obtain ⟨hm, hi⟩ := List.mem_filter.mp hm
    refine Node.step_isConnected t.sound.consistent h (k.parted.disconnected hm) fun connection he hp => ?_
    subst he hp
    cases hc : (s.node.manager.insertConnection connection me).fst
    case error e => exact ⟨e, rfl⟩
    case ok      => simp [inserts, hc] at hi
  case refine_2 =>
    have hm := (List.mem_filter.mp hm).left
    exact k.parted.transfers hm <| Node.step_transferMgr h hl ▸ ht
  case refine_3 =>
    obtain ⟨hr, hn⟩ := k.calls hx hc
    exact ⟨(t.attended.step h).right hr, fun p hm => hn p (List.mem_filter.mp hm).left⟩

theorem handle (k : Settled s) (t : Tidy s) (h : s.step me (.handle env) = some s') (hc : s.Careful (.handle env)) : Settled s' := by
  obtain ⟨e, events, d, fx, he, _, hd, _, rfl⟩ := handle_spec h
  refine ⟨⟨fun {p c} hm => ?_, fun {p c r t'} hm ht => ?_⟩, fun hx hc => ?_⟩
  case refine_1 =>
    obtain hm | hm := List.mem_append.mp hm
    case inl => exact k.parted.disconnected hm
    case inr =>
      obtain ⟨_, he', hu⟩ := departs_eq <| Option.mem_toList.mp hm
      rw [careful_disconnected he'] at hc
      refine Table.contains_eq_false.mpr <| Option.eq_none_iff_forall_ne_some.mpr fun c' hl => hc ?_
      obtain ⟨entry, hl, _⟩ := t.sound.consistent.inverse.indexed <| hu c' hl ▸ hl
      exact t.announced.closing (he' ▸ List.mem_cons_self ..) <| Table.contains_eq_true.mpr ⟨entry, hl⟩
  case refine_2 =>
    obtain hm | hm := List.mem_append.mp hm
    case inl =>
      obtain ⟨t₀, ht₀, hp⟩ | ⟨peerAlias, resourceAlias, c', hg, hs, hp, _⟩ := Daemon.handleEvent_peer hd ht
      case inl => exact hp ▸ k.parted.transfers hm ht₀
      case inr =>
        obtain ⟨origin, _⟩ := e
        subst hg
        exact fun hq => (careful_getResource he).mp hc p c hm (hq ▸ hp) hs
    case inr =>
      obtain ⟨_, he', _⟩ := departs_eq <| Option.mem_toList.mp hm
      cases he.symm.trans he'
      have hm := (Daemon.disconnected_spec (Except.ok.inj hd)).right
      rw [hm, TransferManager.cancelForPeer_lookup, Option.filter_eq_some_iff] at ht
      simpa using ht.right
  case refine_3 =>
    obtain ⟨f, _, hf⟩ := List.mem_filterMap.mp hx
    cases f <;> cases hf
    obtain hc | hc := hc <;> contradiction

theorem step (k : Settled s) (t : Tidy s) (h : s.step me l = some s') (hc : s.Careful l) : Settled s' := by
  obtain ⟨l', node, _, hl, hn, rfl⟩ | ⟨env, rfl, h⟩ | ⟨_, hn, hd, hx, _⟩ := step_cases h
  case inl     => exact k.move t hl hn
  case inr.inl => exact k.handle t h hc
  case inr.inr =>
    refine ⟨⟨fun hm => ?_, fun hm ht => ?_⟩, fun {x c} hm hc => ?_⟩
    case refine_1 => rw [tables, hn]; exact k.parted.disconnected (hd ▸ hm)
    case refine_2 => rw [daemon, hn] at ht; exact k.parted.transfers (hd ▸ hm) ht
    case refine_3 =>
      rw [hn, hd]
      obtain hm | ⟨y, hm, hy⟩ := hx x hm
      case inl => exact k.calls hm hc
      case inr => exact k.next t hm hy hc

theorem quiet (k : Settled s) (h : s.step me l = some s') : s.Quiet s' := by
  intro p c hm
  obtain ⟨_, _, _, _, _, rfl⟩ | ⟨env, _, h⟩ | ⟨_, _, _, _, hq⟩ := step_cases h
  case inl     => rfl
  case inr.inl =>
    obtain ⟨_, _, _, _, _, _, _, _, rfl⟩ := handle_spec h
    rfl
  case inr.inr =>
    by_contra hn
    obtain ⟨x, hx, hp⟩ := hq c hn
    exact (k.calls hx <| .inr hp).right p hm

theorem reachable (r : Reachable (system me |>.restrict Careful) s) : Settled s :=
  Invariant.relative (Q := Tidy) (fun r => .reachable r.of_restrict) init (fun t k h => k.step t h.left h.right) r

end Settled

theorem careful_of_parted (t : Tidy s) (h : s.step me l = some s') (k : s'.Parted) : s.Careful l := by
  cases l <;> try trivial
  case handle env =>
    obtain ⟨e, events, d, fx, he, _, hd, _, rfl⟩ := handle_spec h
    simp only [Careful]
    split
    case h_3 => trivial
    case h_1 c p _ he' =>
      rintro ⟨_, hc⟩
      obtain ⟨entry, hl⟩ := Table.contains_eq_true.mp hc
      have hi := t.sound.consistent.inverse.entered hl
      have hr := t.announced.remote (c := c) (p := p) <| he' ▸ List.mem_cons_self ..
      cases hr.symm.trans <| t.attended.indexed hi
      have hm : (entry.connection.remotePeerId, c) ∈ s.departed ++ s.departs.toList :=
        List.mem_append_right _ <| Option.mem_toList.mpr <| departs_of_index he' hi
      cases (Table.contains_eq_false.mp <| k.disconnected hm).symm.trans hi
    case h_2 origin peerAlias resourceAlias sender _ he' =>
      intro p c hm hp hs
      cases he.symm.trans he'
      obtain ⟨r, t', ht, hq⟩ := Daemon.getResource_peer (Except.ok.inj hd) hs hp
      exact k.transfers (List.mem_append_left _ hm) ht hq

-- As long as every step is careful, who has gone away is not connected, nothing gets into the queues
-- of its connections and no transfer from it is registered, and with the first that is not this ends.
theorem parted_of_careful (r : Reachable (system me |>.restrict Careful) s) : s.Parted ∧
    ∀ l s', s.step me l = some s' → (s'.Parted ∧ s.Quiet s' ↔ s.Careful l) := by
  have t := Tidy.reachable r.of_restrict
  have k := Settled.reachable r
  refine ⟨k.parted, fun l s' h => ⟨fun hp => ?_, fun hc => ?_⟩⟩
  case refine_1 => exact careful_of_parted t h hp.left
  case refine_2 => exact ⟨(k.step t h hc).parted, k.quiet h⟩

def fresh : Departing :=
  .new Node.fresh

omit [Crypto] in
theorem fresh_initial : Initial fresh :=
  ⟨Node.fresh, ⟨_, _, _, rfl⟩, rfl⟩

-- A connection of a peer comes to its end. The reader tells of it, removes the connection, and then the
-- event loop handles what it has been told.
def leaving : List Label := [
  .node <| .register ⟨Node.peer, .outgoing, ()⟩,
  .node <| .read 1 (.ok none),
  .node <| .remove 1,
  .handle (.fine 0)
]

def left : Departing :=
  (leaving.foldlM (@step .transparent Node.daemonId) fresh).getD fresh

-- The event loop is faster, and then it is asked for a file of the peer.
def lingering : List Label := [
  .node <| .register ⟨Node.peer, .outgoing, ()⟩,
  .node <| .announce 1,
  .handle (.fine 0),
  .node <| .read 1 (.ok <| some Node.listing.toFrame),
  .handle (.fine 0),
  .node <| .read 1 (.ok none),
  .handle (.fine 0),
  .node <| .post <| .controlRequest (.getResource "p1" "r1") 0,
  .handle (.fine 0),
  .send,
  .send
]

def lingered : Departing :=
  (lingering.foldlM (@step .transparent Node.daemonId) fresh).getD fresh

def misled : Departing :=
  (@step .transparent Node.daemonId lingered .push).getD lingered

omit [Crypto] in
theorem left_reachable : Reachable (@system .transparent Node.daemonId |>.restrict Careful) left := by
  let _ := Crypto.transparent
  have next {s s' : Departing} (r : Reachable (system Node.daemonId |>.restrict Careful) s) (l : Label)
      (h : s.step Node.daemonId l = some s') (hc : s.Careful l) : Reachable (system Node.daemonId |>.restrict Careful) s' :=
    .step r ⟨h, hc⟩
  have r₁ := next (.init fresh_initial) (.node <| .register ⟨Node.peer, .outgoing, ()⟩) rfl trivial
  have r₂ := next r₁ (.node <| .read 1 (.ok none)) rfl trivial
  have r₃ := next r₂ (.node <| .remove 1) rfl trivial
  refine next r₃ (.handle (.fine 0)) rfl ?_
  rintro ⟨_, hc⟩
  exact Bool.false_ne_true hc

omit [Crypto] in
theorem parted_of_careful_left : left.Parted :=
  (@parted_of_careful Node.daemonId left .transparent left_reachable).left

omit [Crypto] in
theorem lingered_not_parted : Reachable (@system .transparent Node.daemonId) lingered ∧
    @step .transparent Node.daemonId lingered .push = some misled ∧ ¬lingered.Quiet misled ∧ ¬misled.Parted := by
  have r : Run (@system .transparent Node.daemonId) fresh lingering lingered :=
    .ofFn (rfl : lingering.foldlM (@step .transparent Node.daemonId) fresh = _)
  have hm : (Node.peer, 1) ∈ lingered.departed := by decide +kernel
  refine ⟨r.reachable <| .init fresh_initial, rfl, fun hq => ?_, fun k => ?_⟩
  case refine_1 =>
    have hq := congrArg List.length <| hq Node.peer 1 hm
    have hl : (lingered.queued 1).length = 0 := by decide +kernel
    have hl' : (misled.queued 1).length = 1 := by decide +kernel
    omega
  case refine_2 =>
    have hc : misled.tables.isConnected Node.peer = true := by decide +kernel
    have hm : (Node.peer, 1) ∈ misled.departed := by decide +kernel
    exact Bool.false_ne_true <| (k.disconnected hm).symm.trans hc

end Departing
end Parsip
