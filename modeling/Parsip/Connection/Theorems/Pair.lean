import Parsip.Connection.Pair

namespace Parsip.Pair

open Transition

variable {ι : Type} [DecidableEq ι] {x : Setup ι} {s s' : State ι} {side side' : Side} {l l' : ι}
variable {c c' : ConnId} {ls : List (Label ι)} {status : Status} {m : ConnectionManager ι}

namespace State

@[simp]
theorem set_manager_self : (s.set side l m status).manager side = m :=
  Function.update_self ..

theorem set_manager_of_ne (h : side' ≠ side) : (s.set side l m status).manager side' = s.manager side' :=
  Function.update_of_ne h ..

@[simp]
theorem set_status_self : (s.set side l m status).status side l = status := by
  simp [set]

theorem set_status_of_ne (h : ¬(side' = side ∧ l' = l)) :
    (s.set side l m status).status side' l' = s.status side' l' := by
  by_cases hs : side' = side
  case pos =>
    subst hs
    have hl : l' ≠ l := fun hl => h ⟨rfl, hl⟩
    simp [set, hl]
  case neg => simp [set, hs]

theorem set_status_eq : (s.set side l m status).status side' l' =
    if side' = side ∧ l' = l then status else s.status side' l' := by
  split
  case isTrue h  => obtain ⟨rfl, rfl⟩ := h; exact set_status_self
  case isFalse h => exact set_status_of_ne h

end State

namespace Setup

omit [DecidableEq ι] in
theorem id_ne : x.id side.other ≠ x.id side := by
  cases side
  case a => exact x.distinct.symm
  case b => exact x.distinct

-- What the tie-break says about a connection on one of its sides.
def keeps (x : Setup ι) (side : Side) (l : ι) : Bool :=
  ConnectionTables.keepNew (x.id side) (x.id side.other) (x.connection side l).direction

omit [DecidableEq ι] in
-- The two sides of a connection decide alike: they keep it if its initiator has the larger id.
theorem keeps_eq : x.keeps side l = true ↔
    (x.id (x.initiator l)).toBytes > (x.id (x.initiator l).other).toBytes := by
  by_cases h : x.initiator l = side
  case pos => simp [keeps, connection, ConnectionTables.keepNew, h]
  case neg =>
    have ho : x.initiator l = side.other := (Side.eq_or_eq_other ..).resolve_left h
    simp only [keeps, connection, ho, if_neg Side.other_ne, ConnectionTables.keepNew,
      Side.other_other, Bool.not_eq_true', decide_eq_false_iff_not]
    constructor
    case mp  => exact (PeerId.toBytes_trichotomy x.id_ne).resolve_right
    case mpr => exact List.lt_asymm

@[simp]
theorem index_set_self : x.index (s.set side l m status) side =
    m.tables.peerIndex.lookup (x.id side.other) := by
  rw [index, State.set_manager_self]

theorem index_set_of_ne (h : side' ≠ side) :
    x.index (s.set side l m status) side' = x.index s side' := by
  rw [index, State.set_manager_of_ne h]
  rfl

end Setup

-- A connection that is the current one on a side.
def State.Registered (x : Setup ι) (s : State ι) (side : Side) (l : ι) : Prop :=
  ∃ c, x.index s side = some c ∧ s.status side l = .kept c

structure Sane (s : State ι) : Prop where
  consistent : ∀ side, (s.manager side).Consistent
  issued : ∀ {side l c}, s.status side l = .kept c → c < (s.manager side).nextConnId
  owner : ∀ {side l l' c}, s.status side l = .kept c → s.status side l' = .kept c → l = l'

-- A connection is inserted: it is refused, or it becomes the current one.
theorem insert_cases (n : Sane s) (h : x.step s (.insert side l) = some s') :
    s.status side l = .pending ∧ ∃ m, (m.Consistent ∧ m.nextConnId = (s.manager side).nextConnId + 1) ∧
    ((s' = s.set side l m .rejected ∧ m.tables = (s.manager side).tables ∧
      (x.index s side).isSome ∧ x.keeps side l = false) ∨
    (s' = s.set side l m (.kept (s.manager side).nextConnId) ∧
      ((x.index s side).isSome → x.keeps side l = true) ∧
      m.tables.peerIndex.lookup (x.id side.other) = some (s.manager side).nextConnId)) := by
  simp only [Setup.step] at h
  split at h
  case h_2 => contradiction
  case h_1 hp =>
    refine ⟨hp, ?_⟩
    split at h
    case h_1 connId m hi =>
      have ⟨hn, hc⟩ := (n.consistent side).insertConnection_cases hi
      obtain ⟨⟨_, he⟩, _⟩ | ⟨ho, hk, hx⟩ := hc
      case inl => contradiction
      case inr =>
        cases ho
        exact ⟨m, ⟨(n.consistent side).insertConnection hi, hn⟩,
          .inr ⟨(Option.some.inj h).symm, hk, hx⟩⟩
    case h_2 e m hi =>
      have ⟨hn, hc⟩ := (n.consistent side).insertConnection_cases hi
      obtain ⟨_, ht, hx, hk⟩ | ⟨ho, _⟩ := hc
      case inl =>
        exact ⟨m, ⟨(n.consistent side).insertConnection hi, hn⟩,
          .inl ⟨(Option.some.inj h).symm, ht, hx, hk⟩⟩
      case inr => contradiction

theorem remove_cases (n : Sane s) (h : x.step s (.remove side l) = some s') :
    ∃ c, s.status side l = .kept c ∧ s.status side.other l = .rejected ∧
    ∃ m, (m.Consistent ∧ m.nextConnId = (s.manager side).nextConnId) ∧
      s' = s.set side l m .removed ∧
      m.tables.peerIndex.lookup (x.id side.other) =
        if x.index s side = some c then none else x.index s side := by
  simp only [Setup.step] at h
  split at h
  case h_2 => contradiction
  case h_1 c hk hr =>
    exact ⟨c, hk, hr, _, ⟨(n.consistent side).remove, rfl⟩, (Option.some.inj h).symm,
      (n.consistent side).lookup_remove⟩

namespace Sane

omit [DecidableEq ι] in
theorem init (h : x.Initial s) : Sane s where
  consistent     := h.consistent
  issued h'      := by rw [h.pending] at h'; contradiction
  owner h'       := by rw [h.pending] at h'; contradiction

theorem set (n : Sane s) (hm : m.Consistent) (hn : (s.manager side).nextConnId ≤ m.nextConnId)
    (hs : ∀ c, status = .kept c → c = (s.manager side).nextConnId ∧ c < m.nextConnId) :
    Sane (s.set side l m status) := by
  constructor
  case consistent =>
    intro side'
    by_cases h : side' = side
    case pos => subst h; rwa [State.set_manager_self]
    case neg => rw [State.set_manager_of_ne h]; exact n.consistent side'
  case issued =>
    intro side' l' c h
    rw [State.set_status_eq] at h
    by_cases hd : side' = side
    case pos =>
      subst hd
      rw [State.set_manager_self]
      split at h
      case isTrue  => exact (hs c h).right
      case isFalse => exact Nat.lt_of_lt_of_le (n.issued h) hn
    case neg =>
      rw [State.set_manager_of_ne hd]
      rw [if_neg fun h => hd h.left] at h
      exact n.issued h
  case owner =>
    intro side' l₁ l₂ c h₁ h₂
    rw [State.set_status_eq] at h₁ h₂
    split at h₁ <;> split at h₂
    case isTrue.isTrue hl₁ hl₂  => exact hl₁.right.trans hl₂.right.symm
    case isTrue.isFalse hl _    => exact absurd (hs c h₁).left (hl.left ▸ n.issued h₂).ne
    case isFalse.isTrue _ hl    => exact absurd (hs c h₂).left (hl.left ▸ n.issued h₁).ne
    case isFalse.isFalse        => exact n.owner h₁ h₂

theorem step {label : Label ι} (n : Sane s) (h : x.step s label = some s') : Sane s' := by
  cases label
  case insert side l =>
    have ⟨_, m, ⟨hm, hn⟩, hc⟩ := insert_cases n h
    obtain ⟨rfl, _⟩ | ⟨rfl, _⟩ := hc
    case inl => exact n.set hm (hn ▸ Nat.le_succ _) nofun
    case inr =>
      refine n.set hm (hn ▸ Nat.le_succ _) fun c hc => ?_
      cases hc
      exact ⟨rfl, hn ▸ Nat.lt_succ_self _⟩
  case remove side l =>
    have ⟨_, _, _, m, ⟨hm, hn⟩, hs, _⟩ := remove_cases n h
    subst hs
    exact n.set hm hn.ge nofun

theorem reachable (r : Reachable x.system s) : Sane s :=
  Invariant.reachable ⟨init, fun n h => n.step h⟩ r

end Sane

end Parsip.Pair
