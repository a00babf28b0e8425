import Parsip.Connection.Theorems.Pair

-- Connections that both peers initiate at the same time.

namespace Parsip.Pair

open Transition

variable {ι : Type} [DecidableEq ι] {x : Setup ι} {s s' : State ι} {side : Side} {l l₀ : ι}
variable {c : ConnId} {ls : List (Label ι)} {label : Label ι}

-- `l₀` is the one connection with an initiator whose id is the larger one.
structure Setup.Crossing (x : Setup ι) (l₀ : ι) : Prop where
  larger : (x.id .a).toBytes > (x.id .b).toBytes
  only : ∀ l, x.initiator l = .a ↔ l = l₀

namespace Setup.Crossing

omit [DecidableEq ι] in
theorem keeps_iff (k : x.Crossing l₀) : x.keeps side l = true ↔ l = l₀ := by
  rw [keeps_eq, ← k.only]
  cases h : x.initiator l
  case a => simpa [Side.other] using k.larger
  case b => simpa [Side.other] using List.lt_asymm k.larger

end Setup.Crossing

-- A side on which the connection is the current one from its insertion on.
def Settled (x : Setup ι) (l₀ : ι) (s : State ι) : Prop :=
  ∀ side, s.status side l₀ = .pending ∨ s.Registered x side l₀

namespace Settled

omit [DecidableEq ι] in
theorem not_rejected (t : Settled x l₀ s) : s.status side l₀ ≠ .rejected := by
  intro hr
  obtain h | ⟨_, _, h⟩ := t side <;> rw [hr] at h <;> contradiction

-- The current connection stays the same one on a side where `l₀` is.
theorem step_registered (k : x.Crossing l₀) (n : Sane s) (t : Settled x l₀ s)
    (hx : x.index s side = some c) (hs : s.status side l₀ = .kept c)
    (h : x.step s label = some s') : x.index s' side = some c ∧ s'.status side l₀ = .kept c := by
  cases label
  case insert side' l =>
    have ⟨hp, m, _, hc⟩ := insert_cases n h
    by_cases hd : side = side'
    case neg =>
      obtain ⟨rfl, _⟩ | ⟨rfl, _⟩ := hc <;>
        exact ⟨(Setup.index_set_of_ne hd).trans hx, (State.set_status_of_ne (hd ·.left)).trans hs⟩
    case pos =>
      -- A later one loses the tie-break.
      subst hd
      have hl : l₀ ≠ l := by rintro rfl; rw [hs] at hp; contradiction
      obtain ⟨rfl, ht, _⟩ | ⟨_, hk, _⟩ := hc
      case inl =>
        rw [Setup.index_set_self, State.set_status_of_ne (hl ·.right), ht]
        exact ⟨hx, hs⟩
      case inr => exact absurd (k.keeps_iff.mp <| hk <| hx ▸ rfl).symm hl
  case remove side' l =>
    have ⟨c', hc', hr, m, _, hs', hi⟩ := remove_cases n h
    subst hs'
    have hl : l₀ ≠ l := by rintro rfl; exact t.not_rejected hr
    by_cases hd : side = side'
    case neg => exact ⟨(Setup.index_set_of_ne hd).trans hx, (State.set_status_of_ne (hd ·.left)).trans hs⟩
    case pos =>
      subst hd
      rw [Setup.index_set_self, State.set_status_of_ne (hl ·.right), hi, hx, if_neg]
      case hnc =>
        rintro ⟨⟩
        exact hl <| n.owner hs hc'
      exact ⟨rfl, hs⟩

theorem step (k : x.Crossing l₀) (n : Sane s) (t : Settled x l₀ s)
    (h : x.step s label = some s') : Settled x l₀ s' := by
  intro side
  obtain hp | ⟨c, hx, hs⟩ := t side
  case inr => exact .inr ⟨c, step_registered k n t hx hs h⟩
  case inl =>
    cases label
    case insert side' l =>
      have ⟨_, m, _, hc⟩ := insert_cases n h
      by_cases hd : side = side' ∧ l₀ = l
      case neg =>
        obtain ⟨rfl, _⟩ | ⟨rfl, _⟩ := hc <;> exact .inl <| (State.set_status_of_ne hd).trans hp
      case pos =>
        obtain ⟨rfl, rfl⟩ := hd
        obtain ⟨_, _, _, hk⟩ | ⟨rfl, _, hi⟩ := hc
        case inl =>
          rw [k.keeps_iff.mpr rfl] at hk
          contradiction
        case inr => exact .inr ⟨_, Setup.index_set_self.trans hi, State.set_status_self⟩
    case remove side' l =>
      have ⟨c', hc', _, m, _, hs', _⟩ := remove_cases n h
      subst hs'
      refine .inl <| (State.set_status_of_ne fun hd => ?_).trans hp
      obtain ⟨rfl, rfl⟩ := hd
      rw [hp] at hc'
      contradiction

theorem reachable (k : x.Crossing l₀) (r : Reachable x.system s) : Settled x l₀ s :=
  Invariant.relative Sane.reachable (fun h side => .inl <| h.pending side l₀)
    (fun n t h => t.step k n h) r

end Settled

-- From its insertion on, the connection that the peer with the larger id has initiated is the
-- current one on both sides, and no later insertion or removal changes that.
theorem crossing_converges (k : x.Crossing l₀) (r : Reachable x.system s)
    (h : ∀ side, s.status side l₀ ≠ .pending) :
    ∀ side, ∃ c, s.status side l₀ = .kept c ∧ x.index s side = some c ∧
      ∀ ls s', Run x.system s ls s' → x.index s' side = some c ∧ s'.status side l₀ = .kept c := by
  intro side
  have ⟨c, hx, hs⟩ := (Settled.reachable k r side).resolve_left (h side)
  refine ⟨c, hs, hx, fun ls s' run => ?_⟩
  have hp := run.preserves (P := fun s => Reachable x.system s ∧ x.index s side = some c ∧
    s.status side l₀ = .kept c) (fun _ ⟨hr, hx, hs⟩ h => ⟨.step hr h,
      Settled.step_registered k (.reachable hr) (.reachable k hr) hx hs h⟩) ⟨r, hx, hs⟩
  exact hp.right

-- `true` is the connection of the peer with the larger id. The other one is current on one side for
-- a while, and is removed there after the first peer has rejected it.
def crossing : Setup Bool :=
  .descending fun l => if l then .a else .b

theorem crossing_converges_removed : ∃ s : State Bool, Reachable crossing.system s ∧
    s.status .a false = .rejected ∧ s.status .b false = .removed ∧
    ∀ side, ∃ c, s.status side true = .kept c ∧ crossing.index s side = some c ∧
      ∀ ls s', Run crossing.system s ls s' →
        crossing.index s' side = some c ∧ s'.status side true = .kept c := by
  let s₀ : State Bool := ⟨fun _ => .new, fun _ _ => .pending⟩
  have h₀ : crossing.Initial s₀ := ⟨fun _ => .new, fun _ => rfl, fun _ _ => rfl⟩
  have hs : ([.insert .b false, .insert .a true, .insert .a false, .insert .b true,
    .remove .b false].foldlM crossing.step s₀).isSome := by decide
  have r : Reachable crossing.system _ := Run.reachable (.init h₀) (.ofFn (Option.some_get hs).symm)
  have k : crossing.Crossing true := ⟨by decide, by decide⟩
  refine ⟨_, r, rfl, rfl, crossing_converges k r fun side => ?_⟩
  cases side <;> nofun

end Parsip.Pair
