import Parsip.Cli
import Parsip.Daemon.Theorems.Control

-- What the command line client prints, and when it is done.

namespace Parsip

open Transition

theorem ControlResponse.Closed.tail {response : ControlResponse} {responses : List ControlResponse}
    (h : Closed (response :: responses)) : Closed responses := by
  rintro before last post rfl ht
  exact h (response :: before) last post rfl ht

namespace Cli

open Control

-- The client follows an answer to its end and no further.
theorem follow_eq {responses : List ControlResponse} (h : ControlResponse.Closed responses) :
    follow responses = (responses, responses.any (·.isTerminal)) := by
  induction responses
  case nil => rfl
  case cons response responses hi =>
    cases hr : response.isTerminal
    case false =>
      cases response <;> try contradiction
      case downloadProgress => simp [follow, hi h.tail, hr]
    case true =>
      have hn : responses = [] := h [] response responses rfl <| ControlResponse.isTerminal_iff.mp hr
      subst hn
      cases response <;> first | contradiction | rfl

-- The clients are processes with the given arguments, each of which goes when it has left its loop.
def Drives (args : Nat → List String) (s : Control) : Control.Label → Prop
  | .line i line => ∃ cmd, run (args i) = .ask cmd ∧ line = some cmd ∧ ∀ x, s.clients[i]? = some x → x.asked = []
  | .hangUp i    => ∀ x, s.clients[i]? = some x → (follow x.written).snd = true
  | _            => True

variable {args : Nat → List String} {s s' t : Control} {l : Control.Label} {i j : Nat} {x x' : Client}

-- A process has asked for what its arguments say and for nothing else.
structure Driven (args : Nat → List String) (i : Nat) (x : Client) : Prop where
  asked : x.asked = [] ∨ ∃ cmd c, run (args i) = .ask cmd ∧ x.asked = [some (cmd, c)]
  gone  : x.hungUp = true → (follow x.written).snd = true

namespace Driven

theorem new : Driven args i .new :=
  ⟨.inl rfl, nofun⟩

theorem turn (d : Driven args i x) (hx : s.clients[i]? = some x) (hd : Drives args s l) (h : s.Turn i x l x' t) :
    Driven args i x' := by
  cases h
  case ask =>
    obtain ⟨_, hr, hl, ha⟩ := hd
    cases hl
    exact ⟨.inr ⟨_, s.channels, hr, by simp [Client.read, ha x hx]⟩, d.gone⟩
  case misread => obtain ⟨_, _, hl, _⟩ := hd; contradiction
  case refuse  =>
    refine ⟨by simpa using d.asked, fun hu => ?_⟩
    rw [Client.write_hungUp] at hu
    simpa [Client.write, hu] using d.gone hu
  case write   =>
    refine ⟨by simpa [Client.respond] using d.asked, fun hu => ?_⟩
    have hu : x.hungUp = true := by simpa [Client.respond] using hu
    simpa [Client.respond, Client.write, hu] using d.gone hu
  case hangUp  => exact ⟨d.asked, fun _ => hd x hx⟩
  case receive | lose | close => exact ⟨d.asked, d.gone⟩

variable [Crypto]

theorem reachable (r : Reachable (system.restrict (Drives args)) s) : ∀ i x, s.clients[i]? = some x → Driven args i x := by
  refine Invariant.reachable (P := fun s => ∀ i x, s.clients[i]? = some x → Driven args i x) ⟨?_, ?_⟩ r
  case refine_1 =>
    rintro s ⟨service, _, rfl⟩ i x hx
    contradiction
  case refine_2 =>
    rintro s l s' d ⟨h, hd⟩ i y hy
    cases step_steps h
    case accept =>
      rw [List.getElem?_append] at hy
      split at hy
      case isTrue => exact d i y hy
      case isFalse =>
        cases List.mem_singleton.mp <| List.mem_of_getElem? hy
        exact .new
    case turn j x x' t hx ht =>
      rw [setClient, ht.posts.right.left, List.getElem?_set] at hy
      split at hy
      case isFalse => exact d i y hy
      case isTrue he =>
        split at hy <;> cases hy
        subst he
        exact (d j x hx).turn hx hd ht
    all_goals exact d i y hy

end Driven

variable [Crypto]

-- A process prints what the daemon has sent for its request, goes on as long as the answer does, and when there is
-- nothing left to do in the daemon it is done or its request is still pending.
theorem follow_exact (r : Reachable (system.restrict (Drives args)) s) (hn : s.channels < 2 ^ 32 - 1)
    (hx : s.clients[i]? = some x) : x.asked = [] ∧ x.written = [] ∨ ∃ cmd c left, run (args i) = .ask cmd ∧
      x.asked = [some (cmd, c)] ∧ follow x.written = (x.written, left) ∧ x.written <+: s.service.sent c ∧
        (left = true → x.written = s.service.sent c ∧ s.Answered c) ∧
          (s.AtRest → left = true ∨ ∃ r, s.service.daemon.reqTracker.get r = some c) := by
  have hm := List.mem_of_getElem? hx
  have d := Driven.reachable r i x hx
  have hs := service_reachable r.of_restrict
  have v := (Serves.reachable r.of_restrict).served x hm
  have hp := v.written_prefix
  obtain ha | ⟨cmd, c, hr, ha⟩ := d.asked
  case inl =>
    rw [ha] at hp
    exact .inl ⟨ha, List.prefix_nil.mp hp⟩
  case inr =>
    have hp : x.written <+: s.service.sent c := by simpa [ha, answer] using hp
    have hc := Service.closed_reachable hs c
    have hf := follow_eq <| hc.of_prefix hp
    have hl (h : x.written.any (·.isTerminal) = true) : x.written = s.service.sent c := by
      obtain ⟨response, hm, ht⟩ := List.any_eq_true.mp h
      exact hc.eq_of_prefix hp hm <| ControlResponse.isTerminal_iff.mp ht
    refine .inr ⟨cmd, c, _, hr, ha, hf, hp, fun h => ⟨hl h, ?_⟩, fun hq => ?_⟩
    case refine_1 =>
      obtain ⟨response, hm, ht⟩ := List.any_eq_true.mp h
      exact hc.ends (hl h ▸ hm) <| ControlResponse.isTerminal_iff.mp ht
    case refine_2 =>
      cases hu : x.hungUp
      case true  => exact .inl <| (congrArg Prod.snd hf).symm.trans <| d.gone hu
      case false =>
        obtain ⟨hw, ho⟩ := v.rests r.of_restrict hn hq hm hu
        have hw : x.written = s.service.sent c := by simpa [ha, answer] using hw
        obtain ⟨_, response, he, ht, _⟩ | ⟨hr, _⟩ := ho cmd c (ha ▸ List.mem_singleton.mpr rfl)
        case inr => exact .inr hr
        case inl =>
          refine .inl <| List.any_eq_true.mpr ⟨response, ?_, ControlResponse.isTerminal_iff.mpr ht⟩
          exact hw ▸ he ▸ List.mem_append_right _ (List.mem_singleton.mpr rfl)

-- `parsip peers`
def arguments (_ : Nat) : List String :=
  ["parsip", "peers"]

def asking : List Control.Label :=
  [.accept, .line 0 (some .listPeers), .handle (.fine 0), .receive 0, .write 0]

def answered : Control :=
  (asking.foldlM (@step .transparent) (.new .fresh)).getD (.new .fresh)

omit [Crypto] in
theorem answered_reachable : Reachable ((@system .transparent).restrict (Drives arguments)) answered := by
  refine @Run.reachable _ _ _ _ _ asking (.init ⟨_, Service.fresh_initial, rfl⟩) ?_
  refine .step ⟨rfl, trivial⟩ <| .step ⟨rfl, .listPeers, rfl, rfl, ?_⟩ <| .step ⟨rfl, trivial⟩ <|
    .step ⟨rfl, trivial⟩ <| .step ⟨rfl, trivial⟩ .refl
  intro x hx
  cases hx
  rfl

omit [Crypto] in
theorem follow_exact_answered : ∃ x, answered.clients[0]? = some x ∧ (x.asked = [] ∧ x.written = [] ∨
    ∃ cmd c left, run (arguments 0) = .ask cmd ∧ x.asked = [some (cmd, c)] ∧ follow x.written = (x.written, left) ∧
      x.written <+: answered.service.sent c ∧
        (left = true → x.written = answered.service.sent c ∧ answered.Answered c) ∧
          (@AtRest .transparent answered → left = true ∨ ∃ r, answered.service.daemon.reqTracker.get r = some c)) :=
  ⟨_, rfl, @follow_exact _ _ _ _ .transparent answered_reachable (by decide) rfl⟩

end Cli
end Parsip
