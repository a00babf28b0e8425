import Parsip.Connection.Theorems.Pair

-- Several connections that one of the two peers initiates.

namespace Parsip.Pair

open Transition

variable {ι : Type} [DecidableEq ι] {x : Setup ι} {s₀ s s' : State ι} {side side' i : Side}
variable {l l' : ι} {ls : List (Label ι)} {label : Label ι}

def Label.insertedAt (side : Side) : Label ι → Option ι
  | insert side' l => if side' = side then some l else none
  | remove ..      => none

-- The connection that a side inserts last.
def lastInsert (side : Side) (ls : List (Label ι)) : Option ι :=
  (ls.filterMap (Label.insertedAt side)).getLast?

-- In the run `ls` a side inserts a connection while it has none to the other peer.
def InsertedFree (x : Setup ι) (s₀ : State ι) (ls : List (Label ι)) (side : Side) (l : ι) : Prop :=
  ∃ ls₁ ls₂ s, ls = ls₁ ++ .insert side l :: ls₂ ∧ Run x.system s₀ ls₁ s ∧ x.index s side = none

-- Both sides have the same connection to the other one.
def State.Agree (x : Setup ι) (s : State ι) : Prop :=
  ∃ l, s.Registered x .a l ∧ s.Registered x .b l

omit [DecidableEq ι] in
theorem lastInsert_insert : lastInsert side (ls ++ [.insert side l]) = some l := by
  simp [lastInsert, Label.insertedAt]

omit [DecidableEq ι] in
theorem lastInsert_insert_of_ne (h : side' ≠ side) :
    lastInsert side (ls ++ [.insert side' l]) = lastInsert side ls := by
  simp [lastInsert, Label.insertedAt, h]

theorem insertedFree_snoc (r : Run x.system s₀ ls s) :
    InsertedFree x s₀ (ls ++ [label]) side l ↔
      InsertedFree x s₀ ls side l ∨ label = .insert side l ∧ x.index s side = none := by
  constructor
  case mp =>
    rintro ⟨ls₁, ls₂, s₁, hl, r₁, hx⟩
    obtain rfl | ⟨ls₂, label', rfl⟩ := ls₂.eq_nil_or_concat'
    case inl =>
      obtain ⟨rfl, hm⟩ := List.append_inj' hl rfl
      cases hm
      exact .inr ⟨rfl, r.ofFn_eq r₁ ▸ hx⟩
    case inr =>
      rw [← List.cons_append, ← List.append_assoc] at hl
      obtain ⟨rfl, _⟩ := List.append_inj' hl rfl
      exact .inl ⟨ls₁, ls₂, s₁, rfl, r₁, hx⟩
  case mpr =>
    rintro (⟨ls₁, ls₂, s₁, rfl, r₁, hx⟩ | ⟨rfl, hx⟩)
    case inl => exact ⟨ls₁, ls₂ ++ [label], s₁, by simp, r₁, hx⟩
    case inr => exact ⟨ls, [], s, rfl, r, hx⟩

-- With an initiator whose id is the larger one the newest connection wins on each side.
structure Newest (x : Setup ι) (ls : List (Label ι)) (s : State ι) : Prop where
  sane : Sane s
  kept : ∀ side l, s.status side l ≠ .rejected
  last : ∀ side l, lastInsert side ls = some l ↔ s.Registered x side l
  any : ∀ side l, s.status side l ≠ .pending → ∃ l', lastInsert side ls = some l'

namespace Newest

theorem step (k : ∀ side l, x.keeps side l = true) (w : Newest x ls s)
    (h : x.step s label = some s') : Newest x (ls ++ [label]) s' := by
  have n := w.sane.step h
  cases label
  case remove side l =>
    have ⟨_, _, hr, _⟩ := remove_cases w.sane h
    exact absurd hr <| w.kept _ _
  case insert side l =>
    have ⟨_, m, _, hc⟩ := insert_cases w.sane h
    obtain ⟨_, _, _, hk⟩ | ⟨rfl, _, hi⟩ := hc
    case inl => rw [k] at hk; contradiction
    refine ⟨n, fun side' l' => ?_, fun side' l' => ?_, fun side' l' hl => ?_⟩
    case inr.refine_1 =>
      rw [State.set_status_eq]
      split
      case isTrue  => nofun
      case isFalse => exact w.kept side' l'
    case inr.refine_3 =>
      by_cases hd : side' = side
      case pos => exact ⟨l, hd ▸ lastInsert_insert⟩
      case neg =>
        rw [State.set_status_of_ne (hd ·.left)] at hl
        rw [lastInsert_insert_of_ne (Ne.symm hd)]
        exact w.any side' l' hl
    case inr.refine_2 =>
      by_cases hd : side' = side
      case neg =>
        rw [lastInsert_insert_of_ne (Ne.symm hd), w.last]
        simp only [State.Registered, Setup.index_set_of_ne hd, State.set_status_of_ne (hd ·.left)]
      case pos =>
        subst hd
        rw [lastInsert_insert]
        constructor
        case mp =>
          rintro ⟨⟩
          exact ⟨_, Setup.index_set_self.trans hi, State.set_status_self⟩
        case mpr =>
          rintro ⟨c, hx, hs⟩
          rw [Setup.index_set_self, hi] at hx
          cases hx
          exact congrArg some <| n.owner State.set_status_self hs

theorem run (k : ∀ side l, x.keeps side l = true) (h : x.Initial s₀) (r : Run x.system s₀ ls s) :
    Newest x ls s := by
  refine r.history ⟨.init h, fun side l => ?_, fun side l => ?_, fun side l hl => ?_⟩
    fun _ w h => w.step k h
  case refine_1 => rw [h.pending]; nofun
  case refine_2 => simp [lastInsert, State.Registered, h.pending]
  case refine_3 => exact absurd (h.pending side l) hl

omit [DecidableEq ι] in
theorem agree_iff [Nonempty ι] (w : Newest x ls s) (hs : ∀ side l, s.status side l ≠ .pending) :
    s.Agree x ↔ lastInsert .a ls = lastInsert .b ls := by
  constructor
  case mp =>
    rintro ⟨l, ha, hb⟩
    rw [(w.last .a l).mpr ha, (w.last .b l).mpr hb]
  case mpr =>
    intro hl
    have ⟨l₀⟩ := ‹Nonempty ι›
    have ⟨l, ha⟩ := w.any .a l₀ (hs .a l₀)
    exact ⟨l, (w.last .a l).mp ha, (w.last .b l).mp <| hl ▸ ha⟩

end Newest

-- With an initiator whose id is the smaller one the oldest connection wins on each side, until the
-- other side closes it.
structure Oldest (x : Setup ι) (s₀ : State ι) (ls : List (Label ι)) (s : State ι) : Prop where
  sane : Sane s
  free : ∀ side l, InsertedFree x s₀ ls side l ↔
    (∃ c, s.status side l = .kept c) ∨ s.status side l = .removed
  held : ∀ {side l c}, s.status side l = .kept c → x.index s side = some c
  closed : ∀ {side l}, s.status side l = .removed → s.status side.other l = .rejected

namespace Oldest

theorem step (k : ∀ side l, x.keeps side l = false) (r : Run x.system s₀ ls s)
    (o : Oldest x s₀ ls s) (h : x.step s label = some s') : Oldest x s₀ (ls ++ [label]) s' := by
  have n := o.sane.step h
  cases label
  case insert side l =>
    have ⟨hp, m, _, hc⟩ := insert_cases o.sane h
    -- The other end of a closed connection is not the one that is inserted.
    have hne : ∀ {side' l' st}, s.status side' l' = .removed →
        (s.set side l m st).status side'.other l' = .rejected := by
      intro side' l' st hr
      have hr' := o.closed hr
      rw [State.set_status_of_ne, hr']
      rintro ⟨rfl, rfl⟩
      rw [hp] at hr'
      contradiction
    obtain ⟨rfl, ht, hx, _⟩ | ⟨rfl, hx, hi⟩ := hc
    case inl =>
      have hx' : ∀ side', x.index (s.set side l m .rejected) side' = x.index s side' := by
        intro side'
        by_cases hd : side' = side
        case pos => rw [hd, Setup.index_set_self, ht]; rfl
        case neg => exact Setup.index_set_of_ne hd
      refine ⟨n, fun side' l' => ?_, fun {side' l' c} hk => ?_, fun {side' l'} hr => ?_⟩
      case refine_1 =>
        rw [insertedFree_snoc r, o.free, State.set_status_eq]
        split
        case isTrue hd =>
          obtain ⟨rfl, rfl⟩ := hd
          simp [hp, Option.isSome_iff_ne_none.mp hx]
        case isFalse hd =>
          have : ¬(side = side' ∧ l = l') := fun h => hd ⟨h.left.symm, h.right.symm⟩
          simp [this]
      case refine_2 =>
        rw [State.set_status_eq] at hk
        split at hk
        case isTrue  => contradiction
        case isFalse => exact (hx' _).trans <| o.held hk
      case refine_3 =>
        rw [State.set_status_eq] at hr
        split at hr
        case isTrue  => contradiction
        case isFalse => exact hne hr
    case inr =>
      have hf : x.index s side = none := by
        by_contra hc
        have := hx <| Option.isSome_iff_ne_none.mpr hc
        rw [k] at this
        contradiction
      refine ⟨n, fun side' l' => ?_, fun {side' l' c} hk => ?_, fun {side' l'} hr => ?_⟩
      case refine_1 =>
        rw [insertedFree_snoc r, o.free, State.set_status_eq]
        split
        case isTrue hd =>
          obtain ⟨rfl, rfl⟩ := hd
          simp [hf]
        case isFalse hd =>
          have : ¬(side = side' ∧ l = l') := fun h => hd ⟨h.left.symm, h.right.symm⟩
          simp [this]
      case refine_2 =>
        rw [State.set_status_eq] at hk
        split at hk
        case isTrue hd =>
          obtain ⟨rfl, rfl⟩ := hd
          cases hk
          exact Setup.index_set_self.trans hi
        case isFalse hd =>
          by_cases hs : side' = side
          case pos =>
            subst hs
            rw [o.held hk] at hf
            contradiction
          case neg => exact (Setup.index_set_of_ne hs).trans <| o.held hk
      case refine_3 =>
        rw [State.set_status_eq] at hr
        split at hr
        case isTrue  => contradiction
        case isFalse => exact hne hr
  case remove side l =>
    have ⟨c, hk, hr, m, _, hs', hi⟩ := remove_cases o.sane h
    subst hs'
    refine ⟨n, fun side' l' => ?_, fun {side' l' c'} hk' => ?_, fun {side' l'} hr' => ?_⟩
    case refine_1 =>
      rw [insertedFree_snoc r, o.free, State.set_status_eq]
      split
      case isTrue hd =>
        obtain ⟨rfl, rfl⟩ := hd
        simp [hk]
      case isFalse => simp
    case refine_2 =>
      rw [State.set_status_eq] at hk'
      split at hk'
      case isTrue  => contradiction
      case isFalse hd =>
        by_cases hs : side' = side
        case pos =>
          -- Two kept connections on one side would both be the current one.
          subst hs
          have := (o.held hk).symm.trans (o.held hk')
          cases this
          exact absurd ⟨rfl, o.sane.owner hk' hk⟩ hd
        case neg => exact (Setup.index_set_of_ne hs).trans <| o.held hk'
    case refine_3 =>
      rw [State.set_status_eq] at hr'
      have hne : ¬(side'.other = side ∧ l' = l) := by
        rintro ⟨rfl, rfl⟩
        split at hr'
        case isTrue hd => exact Side.other_ne hd.left.symm
        case isFalse =>
          rw [Side.other_other] at hr
          rw [hr] at hr'
          contradiction
      rw [State.set_status_of_ne hne]
      split at hr'
      case isTrue hd =>
        obtain ⟨rfl, rfl⟩ := hd
        exact hr
      case isFalse => exact o.closed hr'

theorem run (k : ∀ side l, x.keeps side l = false) (h : x.Initial s₀) (r : Run x.system s₀ ls s) :
    Oldest x s₀ ls s := by
  refine r.history ⟨.init h, fun side l => ?_, fun {side l c} hk => ?_, fun {side l} hr => ?_⟩
    fun r o h => o.step k r h
  case refine_1 => simp [InsertedFree, h.pending]
  case refine_2 => rw [h.pending] at hk; contradiction
  case refine_3 => rw [h.pending] at hr; contradiction

-- A connection that both sides have taken while free is closed by neither.
theorem agree_iff (o : Oldest x s₀ ls s) : s.Agree x ↔
    ∃ l, InsertedFree x s₀ ls .a l ∧ InsertedFree x s₀ ls .b l := by
  have kept : ∀ {side l}, InsertedFree x s₀ ls side l → InsertedFree x s₀ ls side.other l →
      s.Registered x side l := by
    intro side l h h'
    obtain ⟨c, hk⟩ | hr := (o.free ..).mp h
    case inl => exact ⟨c, o.held hk, hk⟩
    case inr =>
      have hr := o.closed hr
      obtain ⟨_, h⟩ | h := (o.free ..).mp h' <;> rw [hr] at h <;> contradiction
  constructor
  case mp =>
    rintro ⟨l, ⟨c, _, hk⟩, c', _, hk'⟩
    exact ⟨l, (o.free ..).mpr <| .inl ⟨c, hk⟩, (o.free ..).mpr <| .inl ⟨c', hk'⟩⟩
  case mpr => exact fun ⟨l, h, h'⟩ => ⟨l, kept h h', kept h' h⟩

end Oldest

-- When nothing is left to do both sides have seen every connection.
theorem inserted_of_stuck (hs : x.system.Stuck s) : s.status side l ≠ .pending := by
  intro hp
  cases hi : (s.manager side).insertConnection (x.connection side l) (x.id side)
  case mk r m =>
    have he : ∃ s', x.step s (.insert side l) = some s' := by
      cases r <;> exact ⟨_, by simp only [Setup.step, hp, hi]; rfl⟩
    obtain ⟨s', h⟩ := he
    exact hs (.insert side l) s' h

-- The two sides end up with the same connection exactly if the one that both insert last is the
-- same, or, with the smaller id at the initiator, if both take one of them while they have none.
theorem repeated_agree_iff [Nonempty ι] (hi : ∀ l, x.initiator l = i) (h : x.Initial s₀)
    (r : Run x.system s₀ ls s) (hs : x.system.Stuck s) :
    s.Agree x ↔
      (x.id i).toBytes > (x.id i.other).toBytes ∧ lastInsert .a ls = lastInsert .b ls ∨
      (x.id i.other).toBytes > (x.id i).toBytes ∧
        ∃ l, InsertedFree x s₀ ls .a l ∧ InsertedFree x s₀ ls .b l := by
  obtain hgt | hlt := PeerId.toBytes_trichotomy x.id_ne.symm
  case inl =>
    have k : ∀ side l, x.keeps side l = true := fun _ l => Setup.keeps_eq.mpr <| (hi l).symm ▸ hgt
    simp only [hgt, List.lt_asymm hgt, true_and, false_and, or_false]
    exact (Newest.run k h r).agree_iff fun _ _ => inserted_of_stuck hs
  case inr =>
    have k : ∀ side l, x.keeps side l = false := fun _ l => by
      rw [← Bool.not_eq_true, Setup.keeps_eq, hi]
      exact List.lt_asymm hlt
    simp only [hlt, List.lt_asymm hlt, true_and, false_and, false_or]
    exact (Oldest.run k h r).agree_iff

-- Two connections that one peer initiates.
def repeated (initiator : Side) : Setup Bool :=
  .descending fun _ => initiator

def State.new : State Bool :=
  ⟨fun _ => .new, fun _ _ => .pending⟩

theorem repeated_initial {side : Side} : (repeated side).Initial .new where
  consistent _ := .new
  apart _      := by cases side <;> rfl
  pending _ _  := rfl

theorem repeated_agree_iff_newest : ∃ s, Run (repeated .a).system .new
      [.insert .a true, .insert .b true, .insert .a false, .insert .b false] s ∧
    s.Agree (repeated .a) := by
  have hs : ([.insert .a true, .insert .b true, .insert .a false,
    .insert .b false].foldlM (repeated .a).step .new).isSome := by decide
  have r := Run.ofFn (i := (repeated .a).Initial) (Option.some_get hs).symm
  refine ⟨_, r, (repeated_agree_iff (fun _ => rfl) repeated_initial r fun l s' => ?_).mpr ?_⟩
  case refine_1 => obtain ⟨side, l⟩ | ⟨side, l⟩ := l <;> cases side <;> cases l <;> nofun
  case refine_2 => exact .inl ⟨by decide, rfl⟩

-- The initiator with the larger id inserts the two connections in the one order, the other peer in
-- the other order. In the end each has a connection that the other has replaced.
theorem repeated_disagree : ∃ s, Run (repeated .a).system .new
      [.insert .a true, .insert .a false, .insert .b false, .insert .b true] s ∧
    (repeated .a).system.Stuck s ∧ ¬s.Agree (repeated .a) := by
  have hs : ([.insert .a true, .insert .a false, .insert .b false,
    .insert .b true].foldlM (repeated .a).step .new).isSome := by decide
  have r := Run.ofFn (i := (repeated .a).Initial) (Option.some_get hs).symm
  refine ⟨_, r, fun l s' => ?_, ?_⟩
  case refine_1 => obtain ⟨side, l⟩ | ⟨side, l⟩ := l <;> cases side <;> cases l <;> nofun
  case refine_2 =>
    rintro ⟨l, ⟨c, hc, hk⟩, c', hc', hk'⟩
    cases l
    case false => cases hk'; cases hc'
    case true  => cases hk; cases hc

end Parsip.Pair
