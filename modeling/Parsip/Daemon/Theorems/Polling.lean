import Parsip.Daemon.Polling
import Parsip.Daemon.Theorems.Presence

-- Whom `ListPeers` shows.

namespace Parsip.Polling

open Transition

def Label.Decoded : Label → Prop
  | .node l => l.Decoded
  | .ask _  => True

-- The system in which read loops get what the codec can give.
abbrev decoding [Crypto] (me : PeerId) : System Polling Label :=
  (system me).restrict fun _ l => l.Decoded

variable [Crypto] {me p : PeerId} {s s' s₁ s₂ s₃ : Polling} {l : Label} {ls : List Label} {env : Env} {name : String}
variable {q : QueuedEvent} {events : List QueuedEvent} {sender : ReplyTo} {origin : Option ConnId}

-- A step is one of the other threads, the answer to all that has been asked, or one more alias.
inductive Takes (me : PeerId) (s : Polling) : Label → Polling → Prop
  | node {l' node} (other : ∀ env, l' ≠ .handle env) (step : s.node.step me l' = some node) :
    Takes me s (.node l') { s with node }
  | handle {env' node} (asked : s.lists → ∀ peer ∈ s.node.daemon.aliases.peerAliases.toList, s.asked.contains peer.fst)
    (step : s.node.step me (.handle (s.env env')) = some node) : Takes me s (.node (.handle env')) (.new node)
  | ask {name' p'} (lists : s.lists = true) (lookup : s.node.daemon.aliases.peerAliases.lookup name' = some p') :
    Takes me s (.ask name') { s with asked := s.asked.insert name' (s.node.manager.tables.isConnected p') }

theorem takes (h : s.step me l = some s') : s.Takes me l s' := by
  cases l
  case ask name =>
    simp only [step, ask] at h
    split at h <;> cases h
    case h_1 hs hp _ => exact .ask hs hp
  case node l =>
    by_cases hl : ∀ env, l ≠ .handle env
    case neg =>
      obtain ⟨env, rfl⟩ : ∃ env, l = .handle env := by simpa using hl
      have ⟨ha, h⟩ := Option.ite_none_right_eq_some.mp h
      obtain ⟨node, hn, rfl⟩ := Option.map_eq_some_iff.mp h
      exact .handle ha hn
    case pos =>
      have h : (s.node.step me l).map ({ s with node := · }) = some s' := by
        cases l <;> first | exact h | exact absurd rfl (hl _)
      obtain ⟨node, hn, rfl⟩ := Option.map_eq_some_iff.mp h
      exact .node hl hn

theorem node_reachable (r : Reachable (decoding me) s) :
    Reachable ((Node.system me).restrict fun _ l => l.Decoded) s.node := by
  refine Invariant.reachable (P := fun s : Polling => Reachable ((Node.system me).restrict fun _ l => l.Decoded) s.node) ⟨?_, ?_⟩ r
  case refine_1 =>
    rintro _ ⟨node, hi, rfl⟩
    exact .init hi
  case refine_2 =>
    rintro s l s' hr ⟨h, hd⟩
    cases takes h
    case node hn   => exact hr.step ⟨hn, hd⟩
    case handle hn => exact hr.step ⟨hn, trivial⟩
    case ask       => exact hr

-- While the event loop works on an event, it is the next one, and what `is_connected` has returned was so at some
-- moment.
theorem asked_sometime (r : Run (decoding me) s₁ ls s₂) (hs : s₁.asked = ∅)
    (he : s₁.node.events = q :: events) (hl : ∀ env, .node (.handle env) ∉ ls) :
    (∃ events, s₂.node.events = q :: events) ∧ s₂.node.daemon.aliases = s₁.node.daemon.aliases ∧
      ∀ name b, s₂.asked.lookup name = some b → ∃ p, s₁.node.daemon.aliases.peerAliases.lookup name = some p ∧
        (decoding me).Sometime s₁ ls fun s => s.node.manager.tables.isConnected p = b := by
  let P (ls : List Label) (s : Polling) := (∀ env, .node (.handle env) ∉ ls) →
    (∃ events, s.node.events = q :: events) ∧ s.node.daemon.aliases = s₁.node.daemon.aliases ∧
      ∀ name b, s.asked.lookup name = some b → ∃ p, s₁.node.daemon.aliases.peerAliases.lookup name = some p ∧
        (decoding me).Sometime s₁ ls fun s => s.node.manager.tables.isConnected p = b
  refine r.history (P := P) (fun _ => ⟨⟨_, he⟩, rfl, fun _ _ h => by simp [hs] at h⟩) (fun {ls s l s'} r hi h hl => ?_) hl
  have ⟨⟨events, he⟩, ha, hk⟩ := hi fun env hm => hl env <| List.mem_append_left _ hm
  have kept name b (h : s.asked.lookup name = some b) : ∃ p, s₁.node.daemon.aliases.peerAliases.lookup name = some p ∧
      (decoding me).Sometime s₁ (ls ++ [l]) fun s => s.node.manager.tables.isConnected p = b :=
    (hk name b h).imp fun _ => And.imp_right System.Sometime.later
  have t := takes h.left
  clear h
  cases t
  case handle env' _ _ _ => exact absurd (List.mem_append_right _ (List.mem_singleton_self _)) (hl env')
  case node hn hs =>
    have ⟨he, ha'⟩ := Node.step_next hs hn he
    exact ⟨he, ha'.trans ha, kept⟩
  case ask name p _ hp =>
    refine ⟨⟨_, he⟩, ha, fun name' b hb => ?_⟩
    simp only [Table.lookup_insert] at hb
    split at hb
    case isFalse       => exact kept name' b hb
    case isTrue hname  =>
      cases hb
      exact ⟨p, by rw [← ha, hname, hp], r.sometime rfl⟩

-- `ListPeers` shows everybody who has an alias once at most, nobody who was not connected at some moment while it was
-- handled, and leaves nobody out who was connected all the time. Who is connected without having an alias is about to
-- get one.
theorem listPeers_exact (r : Reachable (decoding me) s₁)
    (hp : s₁.node.daemon.aliases.peers.Spare) (hs : s₁.asked = ∅)
    (he : s₁.node.events = ⟨origin, .controlRequest .listPeers sender⟩ :: events)
    (r' : Run (decoding me) s₁ ls s₂) (hl : ∀ env, .node (.handle env) ∉ ls)
    (h : s₂.step me (.node (.handle env)) = some s₃) :
    ∃ peers, s₃.node.effects = s₂.node.effects ++ [.respond sender <| .peersList peers] ∧
      (peers.map (·.peerId)).Nodup ∧
      (∀ info ∈ peers, s₁.node.daemon.aliases.peerIdToAlias.lookup info.peerId = some info.alias ∧
        (decoding me).Sometime s₁ ls fun s => ∃ c, s.node.Serves c info.peerId) ∧
      (∀ p name, s₁.node.daemon.aliases.peerIdToAlias.lookup p = some name → ⟨name, p⟩ ∈ peers ∨
        (decoding me).Sometime s₁ ls fun s => ∀ c, ¬s.node.Serves c p) ∧
      ∀ c p, s₂.node.Serves c p → (∃ name, s₁.node.daemon.aliases.peerIdToAlias.lookup p = some name) ∨
        (∃ e ∈ s₂.node.events, e.event = .newConnection p) ∨
        ∃ reader, s₂.node.readers.lookup c = some reader ∧ reader.announced = false := by
  have ⟨⟨events, he₂⟩, ha, hk⟩ := asked_sometime r' hs he hl
  have hi := (Node.orderly_reachable (node_reachable r).of_restrict).peers hp
  have hm {name p} : (name, p) ∈ s₁.node.daemon.aliases.peerAliases.toList ↔
      s₁.node.daemon.aliases.peerIdToAlias.lookup p = some name := Table.mem_toList.trans hi.inverse.symm
  have sometime {ls P Q} (hs : (decoding me).Sometime s₁ ls P)
      (hq : ∀ {s}, Reachable (decoding me) s → P s → Q s) :
      (decoding me).Sometime s₁ ls Q := by
    obtain ⟨ls₁, ls₂, s, rfl, r', hs⟩ := hs
    exact ⟨ls₁, ls₂, s, rfl, r', hq (r'.reachable r) hs⟩
  have hc {s p} (r : Reachable (decoding me) s) :
      s.node.manager.tables.isConnected p = true ↔ ∃ c, s.node.Serves c p :=
    Table.contains_eq_true.trans <| exists_congr fun c => Node.connected_iff (node_reachable r)
  have r₂ := r'.reachable r
  cases takes h
  case node hn _ => exact absurd rfl (hn env)
  case handle node hask hn =>
    have hq : s₂.lists = true := by rw [lists, he₂]
    cases Node.takes hn
    case handle he hd =>
      cases he₂.symm.trans he
      cases hd
      have found {name p} (h : (name, p) ∈ s₁.node.daemon.aliases.peerAliases.toList) {b} (hb : s₂.asked.lookup name = some b) :
          (decoding me).Sometime s₁ ls fun s => s.node.manager.tables.isConnected p = b := by
        obtain ⟨p', hp, hs⟩ := hk name b hb
        cases hp.symm.trans (Table.mem_toList.mp h)
        exact hs
      refine ⟨_, rfl, ?_, fun info hm' => ?_, fun p name h => ?_, fun c p h => ?_⟩
      case refine_1 =>
        rw [ha, List.map_map]
        refine (Table.nodup_toList.filter _).map_on fun a h b h' he => ?_
        have h := hm.mp (List.mem_filter.mp h).left
        have h' := hm.mp (List.mem_filter.mp h').left
        exact Prod.ext (Option.some.inj <| h.symm.trans <| (congrArg _ he).trans h') he
      case refine_2 =>
        obtain ⟨⟨name, p⟩, h, rfl⟩ := List.mem_map.mp hm'
        obtain ⟨h, hb⟩ := List.mem_filter.mp (ha ▸ h)
        refine ⟨hm.mp h, sometime (found h <| beq_iff_eq.mp hb) fun r hs => (hc r).mp hs⟩
      case refine_3 =>
        have h := hm.mpr h
        obtain ⟨b, hb⟩ := Table.contains_eq_true.mp <| hask hq _ (ha ▸ h)
        cases b
        case true  => exact .inl <| List.mem_map.mpr ⟨(name, p), List.mem_filter.mpr ⟨ha ▸ h, beq_iff_eq.mpr hb⟩, rfl⟩
        case false =>
          refine .inr <| sometime (found h hb) fun r hs c hv => ?_
          rw [(hc r).mpr ⟨c, hv⟩] at hs
          contradiction
      case refine_4 => exact ha ▸ Node.Introduced.reachable (node_reachable r₂).of_restrict c p h

-- The peer leaves while the answer is made.
def asking : List Label :=
  Node.introducing.map .node ++ [.node <| .post <| .controlRequest .listPeers 0]

def leaving : List Label :=
  [.ask "p1", .node <| .read 2 (.ok none), .node <| .remove 2]

def joined : Polling :=
  (asking.foldlM (@step .transparent Node.daemonId) <| .new Node.fresh).getD <| .new Node.fresh

def left : Polling :=
  (leaving.foldlM (@step .transparent Node.daemonId) joined).getD joined

def answered : Polling :=
  (@step .transparent Node.daemonId left <| .node <| .handle <| .fine 1).getD left

omit [Crypto] in
theorem listPeers_exact_leaving : ∃ peers,
    answered.node.effects = left.node.effects ++ [.respond 0 <| .peersList peers] ∧ (peers.map (·.peerId)).Nodup ∧
      (⟨"p1", Node.peer⟩ ∈ peers ∨ (@decoding .transparent Node.daemonId).Sometime joined leaving fun s =>
        ∀ c, ¬s.node.Serves c Node.peer) := by
  let _ := Crypto.transparent
  have r : Run (decoding Node.daemonId) (.new Node.fresh) asking joined :=
    .step ⟨rfl, trivial⟩ <| .step ⟨rfl, trivial⟩ <| .step ⟨rfl, trivial⟩ <| .step ⟨rfl, trivial⟩ <| .step ⟨rfl, trivial⟩ .refl
  have r' : Run (decoding Node.daemonId) joined leaving left :=
    .step ⟨rfl, trivial⟩ <| .step ⟨rfl, trivial⟩ <| .step ⟨rfl, trivial⟩ .refl
  have h : left.step Node.daemonId (.node <| .handle <| .fine 1) = some answered := rfl
  have ⟨peers, he, hd, _, hp, _⟩ := listPeers_exact (r.reachable <| .init ⟨Node.fresh, ⟨_, _, _, rfl⟩, rfl⟩)
    (by decide +kernel) rfl rfl r' (by simp [leaving]) h
  exact ⟨peers, he, hd, hp Node.peer "p1" (by decide +kernel)⟩

end Parsip.Polling
