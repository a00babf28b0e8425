import Parsip.Network.Basic

-- A network over channels that deliver in order does nothing that a network over plain queues does not.

namespace Parsip.Network

open Transition

variable {κ : Type} {c : Channel Message κ} {Carries : c.State → List Message → Prop}

structure Refines (Carries : c.State → List Message → Prop) (s : Network c) (t : Network Channel.queue) :
    Prop where
  host      : t.host = s.host
  connected : t.connected = s.connected
  link      : ∀ a b, Carries (s.link a b) (t.link a b)

def Label.forget : Label κ → Label Unit
  | .connect a b     => .connect a b
  | .post a e        => .post a e
  | .loop a env      => .loop a env
  | .writer a id     => .writer a id
  | .read a i result => .read a i result
  | .link a b _      => .link a b ()

variable {s s' : Network c} {t : Network Channel.queue} {a b : PeerId} {m : Message} {h : Host}
variable {l : c.State} {l' : List Message} {e : Effect} {fx : List Effect} {label : Label κ}

theorem setLink_link : s.setLink a b (s.link a b) = s := by
  simp only [setLink, Function.update_eq_self]

namespace Refines

theorem setHost (r : Refines Carries s t) : Refines Carries (s.setHost a h) (t.setHost a h) :=
  ⟨by simp [Network.setHost, r.host], r.connected, r.link⟩

theorem setLink (r : Refines Carries s t) (h : Carries l l') :
    Refines Carries (s.setLink a b l) (t.setLink a b l') := by
  refine ⟨r.host, r.connected, fun a' b' => ?_⟩
  simp only [Network.setLink]
  by_cases ha : a' = a
  case neg => rw [Function.update_of_ne ha, Function.update_of_ne ha]; exact r.link a' b'
  case pos =>
    subst ha
    rw [Function.update_self, Function.update_self]
    by_cases hb : b' = b
    case neg => rw [Function.update_of_ne hb, Function.update_of_ne hb]; exact r.link a' b'
    case pos => subst hb; rw [Function.update_self, Function.update_self]; exact h

theorem send (f : c.Fifo Carries) (r : Refines Carries s t) : Refines Carries (s.send a b m) (t.send a b m) := by
  simp only [Network.send, r.connected]
  split
  case isTrue  => exact r.setLink <| f.send <| r.link a b
  case isFalse => exact r

theorem perform (f : c.Fifo Carries) (r : Refines Carries s t) : Refines Carries (s.perform a e) (t.perform a e) := by
  cases e <;> simp only [Network.perform, r.host]
  case send   => exact r.send f
  case upload => exact r.setHost
  case respond | connect | scanTimer => exact r

theorem performAll (f : c.Fifo Carries) (r : Refines Carries s t) :
    Refines Carries (s.performAll a fx) (t.performAll a fx) := by
  induction fx generalizing s t
  case nil          => exact r
  case cons e fx hi => exact hi (r.perform f)

theorem readTurn {i : Nat} {u : Upload} {result : Except Error Bytes} (f : c.Fifo Carries)
    (r : Refines Carries s t) (h : s.readTurn a i u result = some s') :
    ∃ t', t.readTurn a i u result = some t' ∧ Refines Carries s' t' := by
  simp only [Network.readTurn, r.host, r.connected] at h ⊢
  split at h
  case h_1 => cases h; exact ⟨_, rfl, r.setHost⟩
  case h_2 =>
    split at h
    case isTrue hd =>
      cases h
      exact ⟨_, by rw [if_pos hd], r.setHost.send f⟩
    case isFalse hd =>
      split at h
      case isFalse => contradiction
      case isTrue hr =>
        split at h <;> cases h
        case isTrue hc  => exact ⟨_, by rw [if_neg hd, if_pos hr, if_pos hc], r.setHost.send f⟩
        case isFalse hc => exact ⟨_, by rw [if_neg hd, if_pos hr, if_neg hc], r.setHost⟩

variable [Crypto]

theorem loop {env : Env} (f : c.Fifo Carries) (r : Refines Carries s t) (h : s.step (.loop a env) = some s') :
    ∃ t', Refines Carries s' t' ∧ t.step (.loop a env) = some t' := by
  simp only [Network.step] at h ⊢
  split at h
  case h_1 => contradiction
  case h_2 e events he =>
    rw [r.host, he]
    split at h <;> cases h
    case h_1 d fx hd =>
      have hv : t.env a env = s.env a env := rfl
      refine ⟨(t.handled a e events d fx).performAll a fx, ?_, by simp only [hv, hd]⟩
      simp only [handled, r.host]
      exact r.setHost.performAll f

-- The network over queues can follow.
theorem step (f : c.Fifo Carries) (r : Refines Carries s t) (h : s.step label = some s') :
    ∃ t', Refines Carries s' t' ∧ (t' = t ∨ t.step label.forget = some t') := by
  cases label <;> simp only [Network.step, Label.forget] at h ⊢
  case connect =>
    split at h <;> cases h
    case isFalse hn =>
      rw [if_neg hn]
      refine ⟨_, ?_, .inr rfl⟩
      exact ⟨r.host, by simp only [r.connected], r.link⟩
  case post =>
    split at h <;> cases h
    refine ⟨_, ?_, .inr rfl⟩
    simp only [Network.post, r.host]
    exact r.setHost
  case loop =>
    obtain ⟨t', r', ht⟩ := r.loop f h
    exact ⟨t', r', .inr ht⟩
  case writer a id =>
    obtain ⟨d, hd, hs⟩ := Option.map_eq_some_iff.mp h
    subst hs
    rw [r.host, hd]
    exact ⟨_, r.setHost, .inr rfl⟩
  case read a i result =>
    split at h
    case h_2 => contradiction
    case h_1 u hu =>
      obtain ⟨t', ht, r'⟩ := r.readTurn f h
      exact ⟨t', r', .inr (by rw [r.host, hu]; exact ht)⟩
  case link a b k =>
    split at h <;> cases h
    case h_1 l m hm =>
      obtain ⟨ms, hl, hc⟩ := f.move (r.link a b) hm
      have hl : t.link a b = m :: ms := hl
      have r' : Refines Carries (s.setLink a b l) (t.setLink a b ms) := r.setLink hc
      refine ⟨_, ?_, .inr (by rw [hl])⟩
      simp only [Network.post, r'.host]
      exact r'.setHost
    case h_2 l hm =>
      -- Nothing leaves the channel.
      obtain ⟨ms, hl, hc⟩ := f.move (r.link a b) hm
      have hl : t.link a b = ms := hl
      have r' : Refines Carries (s.setLink a b l) (t.setLink a b ms) := r.setLink hc
      rw [← hl, setLink_link] at r'
      exact ⟨t, r', .inl rfl⟩

theorem reachable {P : (PeerId → Host) → Label Unit → Prop} (f : c.Fifo Carries)
    (r : Reachable ((system c).restrict fun s l => P s.host l.forget) s) :
    ∃ t, Reachable ((system Channel.queue).restrict fun t l => P t.host l.forget) t ∧ Refines Carries s t := by
  refine r.simulate (fun {s} h => ?_) fun {s l s' t} r h => ?_
  case refine_1 =>
    have ⟨hh, hl, hc⟩ := h
    exact ⟨⟨s.host, fun _ _ => [], s.connected⟩, ⟨hh, fun _ _ => rfl, hc⟩, rfl, rfl, fun a b => hl a b ▸ f.empty⟩
  case refine_2 =>
    have ⟨t', r', ht⟩ := r.step f h.left
    refine ⟨t', r', ht.imp_right fun ht => ⟨l.forget, ht, ?_⟩⟩
    have hp : P t.host l.forget := r.host ▸ h.right
    cases l <;> exact hp

end Refines
end Parsip.Network
