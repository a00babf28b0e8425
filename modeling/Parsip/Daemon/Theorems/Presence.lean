import Parsip.Daemon.Theorems.Aliases
import Parsip.Daemon.Theorems.Readers
import Parsip.Daemon.Theorems.Superseded
import Parsip.Protocol.Theorems.Machine

-- Who is connected, and whom `ListPeers` shows.

namespace Parsip.Node

open Transition

-- A thread reads from a connection to the peer, or is about to remove it, and no other one has replaced it.
def Serves (s : Node) (c : ConnId) (p : PeerId) : Prop :=
  (∃ reader, s.readers.lookup c = some reader ∧ reader.peerId = p ∧ reader.phase ≠ .ended) ∧ s.replacedBy c = none

-- What a read loop gets from the codec.
def Label.Decoded : Label → Prop
  | .read _ (.ok (some f)) => f.Fits
  | _                      => True

variable {me p q : PeerId} {s s' : Node} {l : Label} {c c' : ConnId} {reader reader' : Reader} {env : Env}

theorem serves_setReader (h : s.readers.lookup c = some reader) (hi : reader'.peerId = reader.peerId)
    (hp : reader'.phase ≠ .ended ↔ reader.phase ≠ .ended) : (s.setReader c reader').Serves c' p ↔ s.Serves c' p := by
  refine and_congr_left fun _ => ?_
  simp only [setReader, Table.lookup_insert]
  by_cases hc : c' = c
  case neg => simp only [hc, if_false]
  case pos => simp only [hc, if_true, h, Option.some.injEq, exists_eq_left', hi, hp]

theorem not_panic {result : Except Error (Option Frame)} (h : Label.Decoded (.read c result)) : readTurn result ≠ .panic := by
  cases result
  case error => exact Turn.noConfusion
  case ok frame =>
    cases frame
    case none => exact Turn.noConfusion
    case some f =>
      have hf : f.payload.length ≤ maxFrameSize := by
        have h : 1 + f.payload.length ≤ maxFrameSize := h
        omega
      have hn := Machine.message_ne_panic hf
      simp only [readTurn]
      split
      case h_1 => split <;> exact Turn.noConfusion
      case h_2 => exact Turn.noConfusion
      case h_3 ht => exact absurd ht hn

-- The connections that have been replaced after `insert_connection` has put another one in the place of `old`.
theorem replaced_iff {t : ConnectionTables Unit} {replacedBy : ConnId → Option ConnId} (i : t.Inverse) :
    (match t.oldConnId p with
      | some old => Function.update replacedBy old (some c')
      | none     => replacedBy) c = none ↔ replacedBy c = none ∧ t.peerIndex.lookup p ≠ some c := by
  rw [i.oldConnId_eq]
  cases t.peerIndex.lookup p
  case none => simp
  case some old =>
    by_cases h : c = old
    case pos => simp [h]
    case neg => simp [Function.update_of_ne h, Ne.symm h]

-- The index has the connections that somebody reads from, apart from those that have been replaced.
def Manned (s : Node) : Prop :=
  ∀ p c, s.manager.tables.peerIndex.lookup p = some c ↔ s.Serves c p

namespace Manned

theorem init (h : Initial s) : Manned s := by
  obtain ⟨_, _, _, rfl⟩ := h
  exact fun p c => iff_of_false nofun fun h => by obtain ⟨⟨_, h, _⟩, _⟩ := h; contradiction

theorem keep (k : Manned s) (hm : s'.manager = s.manager) (hs : ∀ {c p}, s'.Serves c p ↔ s.Serves c p) : Manned s' :=
  fun p c => hm ▸ (k p c).trans hs.symm

theorem register {connection : Connection Unit} (k : Manned s) (a : Attended s) (o : Sound s) :
    Manned (s.register me connection) := by
  cases h : s.manager.tables.insertConnection s.manager.nextConnId connection me
  case mk result t =>
    have hm : s.manager.insertConnection connection me = (result, ⟨t, s.manager.nextConnId + 1⟩) := by
      simp only [ConnectionManager.insertConnection, h]
    obtain ⟨⟨e, rfl, _⟩, rfl, _⟩ | ⟨rfl, _, hp, _⟩ := o.consistent.inverse.insertConnection_cases h
    all_goals simp only [Node.register, hm]
    case inl => exact fun p c => k p c
    case inr =>
      intro p c
      refine Iff.trans ?_ <| and_congr_right fun _ => (replaced_iff o.consistent.inverse).symm
      simp only [setReader, hp, Table.lookup_insert]
      by_cases hc : c = s.manager.nextConnId
      case pos =>
        subst hc
        have fresh {p} : s.manager.tables.peerIndex.lookup p ≠ some s.manager.nextConnId := fun h =>
          Nat.lt_irrefl _ <| a.below (a.indexed h)
        have hn : s.replacedBy s.manager.nextConnId = none := Option.eq_none_iff_forall_ne_some.mpr fun c' hr =>
          Nat.lt_irrefl _ (o.replaced hr).left
        by_cases hq : p = connection.remotePeerId
        case pos => simp [hq, hn, fresh]
        case neg => simp [hq, Ne.symm hq, fresh]
      case neg =>
        rw [if_neg hc, ← and_assoc]
        refine Iff.trans ?_ (and_congr_left fun _ => k p c)
        by_cases hq : p = connection.remotePeerId
        case pos => simp [hq, Ne.symm hc]
        case neg =>
          rw [if_neg hq]
          refine (and_iff_left_of_imp fun h h' => hq ?_).symm
          exact o.consistent.inverse.peer_unique h h'

theorem remove (k : Manned s) (o : Sound s) (h : s.readers.lookup c = some reader) :
    Manned ({ s with manager := s.manager.remove c }.setReader c { reader with phase := .ended }) := by
  intro p c'
  show (s.manager.remove c).tables.peerIndex.lookup p = some c' ↔ _
  rw [o.consistent.lookup_remove]
  by_cases hc : c' = c
  case pos =>
    subst hc
    refine iff_of_false ?_ ?_
    case refine_1 => split <;> simp_all
    case refine_2 =>
      rintro ⟨⟨reader', hr, _, he⟩, _⟩
      simp only [setReader, Table.lookup_insert, if_true, Option.some.injEq] at hr
      exact he (hr ▸ rfl)
  case neg =>
    have hs : ({ s with manager := s.manager.remove c }.setReader c { reader with phase := .ended }).Serves c' p ↔
        s.Serves c' p := by
      simp only [Serves, setReader, Table.lookup_insert, hc, if_false]
    rw [hs, ← k p c']
    split
    case isFalse   => exact Iff.rfl
    case isTrue hp => simp [hp, Ne.symm hc]

variable [Crypto]

theorem step (k : Manned s) (a : Attended s) (o : Sound s) (h : s.step me l = some s') (hd : l.Decoded) : Manned s' := by
  cases takes h
  case register                          => exact k.register a o
  case message | post | handle | writer | detached => exact k.keep rfl Iff.rfl
  case announce hr                       => exact k.keep rfl <| serves_setReader (s := s.push _ _) hr rfl Iff.rfl
  case leave hr hp _                     => exact k.keep rfl <| serves_setReader (s := s.push _ _) hr rfl <| by simp [hp]
  case panic ht                          => exact absurd ht <| not_panic hd
  case remove hr _                       => exact k.remove o hr

theorem reachable (r : Reachable ((system me).restrict fun _ l => l.Decoded) s) : Manned s := by
  refine Invariant.relative (Q := fun s => Attended s ∧ Sound s) ?_ init ?_ r
  case refine_1 => exact fun r => ⟨Invariant.reachable ⟨.init, fun k h => (k.step h).left⟩ r.of_restrict, .reachable r.of_restrict⟩
  case refine_2 => exact fun ⟨a, o⟩ k h => k.step a o h.left h.right

end Manned

-- Only the event loop changes aliases.
theorem step_aliases [Crypto] {P : AliasRegistry → Prop} (h : s.step me l = some s')
    (hh : ∀ {env e d fx}, s.daemon.handleEvent env e = .ok (d, fx) → P d.aliases) (hp : P s.daemon.aliases) : P s'.daemon.aliases := by
  cases takes h
  case register =>
    simp only [register]
    split <;> exact hp
  case announce | message | leave | panic | remove | post => exact hp
  case handle hd                                           => exact hh hd
  case writer ha _ _ | detached ha _ _                     => exact ha ▸ hp

-- As long as the event loop works on an event, that stays the next one.
theorem step_next [Crypto] {e : QueuedEvent} {events : List QueuedEvent} (h : s.step me l = some s')
    (hl : ∀ env, l ≠ .handle env) (he : s.events = e :: events) :
    (∃ events, s'.events = e :: events) ∧ s'.daemon.aliases = s.daemon.aliases := by
  cases takes h
  case handle => exact absurd rfl (hl _)
  case register =>
    simp only [register]
    split <;> exact ⟨⟨_, he⟩, rfl⟩
  case announce | message | leave | post =>
    exact ⟨⟨_, (congrArg (· ++ [_]) he).trans (List.cons_append ..)⟩, rfl⟩
  case panic | remove                  => exact ⟨⟨_, he⟩, rfl⟩
  case writer ha _ _ | detached ha _ _ => exact ⟨⟨_, he⟩, ha⟩

theorem orderly_reachable [Crypto] (r : Reachable (system me) s) : s.daemon.aliases.Orderly := by
  refine Invariant.reachable (P := fun s => s.daemon.aliases.Orderly) ⟨?_, ?_⟩ r
  case refine_1 => rintro _ ⟨_, _, _, rfl⟩; exact .new
  case refine_2 => exact fun o h => step_aliases h (fun hd => Daemon.handleEvent_aliases hd (fun _ _ => o.addPeer) .change o) o

theorem step_keeps [Crypto] (h : s.step me l = some s') : s.daemon.aliases.Keeps s'.daemon.aliases :=
  step_aliases h (fun hd => Daemon.handleEvent_aliases hd (fun _ _ => .addPeer .refl) .change .refl) .refl

theorem Serves.of_setReader (k : (s.setReader c reader').Serves c' p) (h : s.readers.lookup c = some reader)
    (hi : reader'.peerId = reader.peerId) (hp : reader'.phase ≠ .ended → reader.phase ≠ .ended) : s.Serves c' p := by
  obtain ⟨⟨reader'', hr, rfl, he⟩, hn⟩ := k
  refine ⟨?_, hn⟩
  simp only [setReader, Table.lookup_insert] at hr
  by_cases hc : c' = c
  case neg =>
    rw [if_neg hc] at hr
    exact ⟨_, hr, rfl, he⟩
  case pos =>
    rw [if_pos hc] at hr
    cases hr
    exact ⟨_, hc ▸ h, hi.symm, hp he⟩

theorem unannounced_insert {r : Reader} (h : s.readers.lookup c = some reader) (ha : reader'.announced = reader.announced)
    (hr : s.readers.lookup c' = some r) (hn : r.announced = false) :
    ∃ r', (s.readers.insert c reader').lookup c' = some r' ∧ r'.announced = false := by
  rw [Table.lookup_insert]
  by_cases hc : c' = c
  case neg => exact ⟨r, by rw [if_neg hc, hr], hn⟩
  case pos =>
    subst hc
    cases h.symm.trans hr
    exact ⟨reader', if_pos rfl, ha.trans hn⟩

-- A connected peer has an alias, or is about to get one.
def Introduced (s : Node) : Prop :=
  ∀ c p, s.Serves c p → (∃ name, s.daemon.aliases.peerIdToAlias.lookup p = some name) ∨
    (∃ e ∈ s.events, e.event = .newConnection p) ∨ ∃ reader, s.readers.lookup c = some reader ∧ reader.announced = false

namespace Introduced

theorem init (h : Initial s) : Introduced s := by
  obtain ⟨_, _, _, rfl⟩ := h
  rintro c p ⟨⟨_, h, _⟩, _⟩
  contradiction

-- Nobody new is connected, and what is known or about to be announced stays so.
theorem keep (k : Introduced s) (hs : ∀ {c p}, s'.Serves c p → s.Serves c p)
    (ha : s.daemon.aliases.Keeps s'.daemon.aliases)
    (he : ∀ {e p}, e ∈ s.events → e.event = .newConnection p →
      (∃ name, s'.daemon.aliases.peerIdToAlias.lookup p = some name) ∨ e ∈ s'.events)
    (hr : ∀ {c reader}, s.readers.lookup c = some reader → reader.announced = false →
      (∃ reader', s'.readers.lookup c = some reader' ∧ reader'.announced = false) ∨
        ∃ e ∈ s'.events, e.event = .newConnection reader.peerId) : Introduced s' := by
  intro c p h
  obtain ⟨name, hn⟩ | ⟨e, hm, hp⟩ | ⟨reader, hl, hn⟩ := k c p (hs h)
  case inl     => exact .inl ⟨name, ha.peers hn⟩
  case inr.inl => exact (he hm hp).imp_right fun hm => .inl ⟨e, hm, hp⟩
  case inr.inr =>
    obtain ⟨⟨reader', hl', rfl, _⟩, _⟩ := hs h
    cases hl.symm.trans hl'
    exact .inr (hr hl hn).symm

theorem register {connection : Connection Unit} (k : Introduced s) (o : Sound s) :
    Introduced (s.register me connection) := by
  cases h : s.manager.tables.insertConnection s.manager.nextConnId connection me
  case mk result t =>
    have hm : s.manager.insertConnection connection me = (result, ⟨t, s.manager.nextConnId + 1⟩) := by
      simp only [ConnectionManager.insertConnection, h]
    cases result <;> simp only [Node.register, hm]
    case error => exact k
    case ok n =>
      intro c p hc
      have hl := (replaced_iff o.consistent.inverse).mp hc.right
      obtain ⟨⟨reader, hr, hp, hg⟩, _⟩ := hc
      simp only [setReader, Table.lookup_insert] at hr ⊢
      by_cases hn : c = n
      case pos => exact .inr <| .inr ⟨_, if_pos hn, rfl⟩
      case neg =>
        rw [if_neg hn] at hr ⊢
        exact k c p ⟨⟨reader, hr, hp, hg⟩, hl.left⟩

variable [Crypto]

theorem step (k : Introduced s) (o : Sound s) (h : s.step me l = some s') : Introduced s' := by
  have ks := step_keeps h
  cases takes h
  case register => exact k.register o
  case message | post => exact k.keep id ks (fun hm _ => .inr <| List.mem_append_left _ hm) fun h hn => .inl ⟨_, h, hn⟩
  case writer | detached => exact k.keep id ks (fun hm _ => .inr hm) fun h hn => .inl ⟨_, h, hn⟩
  case announce c₀ p₀ phase hl =>
    refine k.keep (fun h => h.of_setReader (s := s.push _ _) hl rfl id) ks
      (fun hm _ => .inr <| List.mem_append_left _ hm) fun {c' reader} hr hn => ?_
    by_cases hc : c' = c₀
    case neg => exact .inl ⟨reader, Table.lookup_insert.trans <| (if_neg hc).trans hr, hn⟩
    case pos =>
      subst hc
      cases hl.symm.trans hr
      exact .inr ⟨_, List.mem_append_right _ (List.mem_singleton_self _), rfl⟩
  case leave hl hp _ =>
    refine k.keep (fun h => h.of_setReader (s := s.push _ _) hl rfl fun _ => ?_) ks
      (fun hm _ => .inr <| List.mem_append_left _ hm) fun h hn => .inl <| unannounced_insert hl rfl h hn
    rw [hp]
    exact ReaderPhase.noConfusion
  case panic hl _ _ =>
    exact k.keep (fun h => h.of_setReader hl rfl fun hn => absurd rfl hn) ks (fun hm _ => .inr hm) fun h hn =>
      .inl <| unannounced_insert hl rfl h hn
  case remove hl _ =>
    exact k.keep (fun h => h.of_setReader (s := { s with manager := _ }) hl rfl fun hn => absurd rfl hn) ks
      (fun hm _ => .inr hm) fun h hn => .inl <| unannounced_insert hl rfl h hn
  case handle e events d fx he hd =>
    refine k.keep id ks (fun {e' p} hm hp => ?_) fun h hn => .inl ⟨_, h, hn⟩
    rw [he] at hm
    refine (List.mem_cons.mp hm).imp_left ?_
    rintro rfl
    rw [hp] at hd
    cases hd
    exact ⟨_, AliasRegistry.addPeer_self⟩

theorem reachable (r : Reachable (system me) s) : Introduced s :=
  Invariant.relative Sound.reachable init (fun o k h => k.step o h) r

end Introduced

-- A peer counts as connected exactly as long as a thread reads from a connection to it that has not been replaced,
-- or is about to remove it.
theorem connected_iff [Crypto] (r : Reachable ((system me).restrict fun _ l => l.Decoded) s) :
    s.manager.tables.peerIndex.lookup p = some c ↔ s.Serves c p :=
  Manned.reachable r p c

-- The peer connects a second time, and is introduced.
def introducing : List Label := [
  .register ⟨peer, .outgoing, ()⟩,
  .register ⟨peer, .outgoing, ()⟩,
  .announce 2,
  .handle (.fine 0)
]

def introduced : Node :=
  (introducing.foldlM (@step .transparent daemonId) fresh).getD fresh

theorem introduced_reachable :
    Reachable ((@system .transparent daemonId).restrict fun _ l => l.Decoded) introduced := by
  have r : Run ((@system .transparent daemonId).restrict fun _ l => l.Decoded) fresh introducing introduced :=
    .step ⟨rfl, trivial⟩ <| .step ⟨rfl, trivial⟩ <| .step ⟨rfl, trivial⟩ <| .step ⟨rfl, trivial⟩ .refl
  exact r.reachable <| .init ⟨_, _, _, rfl⟩

theorem connected_iff_introduced : introduced.manager.tables.peerIndex.lookup peer = some 2 ↔ introduced.Serves 2 peer :=
  @connected_iff _ _ _ _ .transparent introduced_reachable

end Parsip.Node
