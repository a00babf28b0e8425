import Parsip.Connection.Sending
import Parsip.Connection.Theorems.Manager

-- What becomes of a frame that is sent while connections are replaced.

namespace Parsip

open Transition

namespace ConnectionTables

variable {ς : Type} {t t' : ConnectionTables ς} {c n : ConnId} {p me : PeerId} {conn : Connection ς}
variable {r : Except Error ConnId}

theorem established_iff : t.established p = true ↔ ∃ c e, t.entries.lookup c = some e ∧
    e.connection.remotePeerId = p ∧ e.state = .established := by
  simp only [established, List.any_eq_true, Table.mem_values, decide_eq_true_eq]
  exact ⟨fun ⟨e, ⟨c, hc⟩, h⟩ => ⟨c, e, hc, h⟩, fun ⟨c, e, hc, h⟩ => ⟨e, ⟨c, hc⟩, h⟩⟩

theorem Inverse.supersedes_iff (i : t.Inverse) : t.supersedes conn me = some c ↔
    keepNew me conn.remotePeerId conn.direction = true ∧ t.peerIndex.lookup conn.remotePeerId = some c := by
  simp only [supersedes, oldConnId, Option.ite_none_right_eq_some, and_congr_right_iff]
  intro _
  cases hc : t.peerIndex.lookup conn.remotePeerId
  case none => simp
  case some c' =>
    obtain ⟨e, he, _⟩ := i.indexed hc
    simp [show t.entries.contains c' = true from Table.contains_eq_true.mpr ⟨e, he⟩]

-- An insertion takes away the connection that it replaces and no other.
theorem Inverse.lookup_insertConnection (i : t.Inverse) (h : t.insertConnection n conn me = (r, t')) (hc : c ≠ n) :
    t'.entries.lookup c = if t.supersedes conn me = some c then none else t.entries.lookup c := by
  obtain ⟨_, rfl, _, hk⟩ | ⟨_, hk, _, he⟩ := i.insertConnection_cases h
  case inl => rw [if_neg fun hs => by simp [(i.supersedes_iff.mp hs).left] at hk]
  case inr =>
    rw [he, if_neg hc]
    refine if_congr ?_ rfl rfl
    rw [i.supersedes_iff]
    refine ⟨fun h => ⟨hk ?_, h⟩, And.right⟩
    exact Table.contains_eq_true.mpr ⟨c, h⟩

end ConnectionTables

namespace Sending

open ConnectionTables

variable {τ ς : Type} [DecidableEq τ] {s s' : State τ ς} {l : Label τ ς} {t t' : τ} {c : ConnId}
variable {p me : PeerId} {m : Message} {conn : Connection ς} {e : ConnectionEntry ς} {ph ph' : Phase ς}

@[simp]
theorem goto_phase : (s.goto t ph).phase t' = if t' = t then ph else s.phase t' :=
  Function.update_apply ..

theorem goto_cases (h : (s.goto t ph).phase t' = ph') : t' = t ∧ ph = ph' ∨ t' ≠ t ∧ s.phase t' = ph' := by
  rw [goto_phase] at h
  split at h
  case isTrue ht  => exact .inl ⟨ht, h⟩
  case isFalse ht => exact .inr ⟨ht, h⟩

theorem awaits_of_goto (h : ((s.goto t ph).phase t').awaits = some c) (hp : ph.awaits = none) :
    (s.phase t').awaits = some c := by
  rw [goto_phase] at h
  split at h
  case isTrue  => cases hp.symm.trans h
  case isFalse => exact h

-- Every id belongs to one connection, whether it is still to be inserted or has been.
structure State.Sound (s : State τ ς) : Prop where
  inverse  : s.manager.tables.Inverse
  entered  : ∀ {c e}, s.manager.tables.entries.lookup c = some e → c < s.manager.nextConnId ∧ e.state = .established
  reserved : ∀ {t c k me}, s.phase t = .inserting c k me →
    c < s.manager.nextConnId ∧ s.manager.tables.entries.lookup c = none
  distinct : ∀ {t t' c k k' me me'}, s.phase t = .inserting c k me → s.phase t' = .inserting c k' me' → t = t'
  awaited  : ∀ {t t' c k me}, (s.phase t).awaits = some c → s.phase t' ≠ .inserting c k me
  fetched  : ∀ {t c}, (s.phase t).awaits = some c → c < s.manager.nextConnId

namespace State.Sound

omit [DecidableEq τ] in
theorem init : (init : State τ ς).Sound where
  inverse    := .empty
  entered h  := by simp [Sending.init, ConnectionManager.new, ConnectionTables.empty] at h
  reserved h := by simp [Sending.init] at h
  distinct h := by simp [Sending.init] at h
  awaited h  := by simp [Sending.init, Phase.awaits] at h
  fetched h  := by simp [Sending.init, Phase.awaits] at h

-- Where no id is reserved or inserted, only what a thread has found matters.
theorem goto (o : s.Sound) (hm : s'.manager = s.manager) (hs : s'.phase = (s.goto t ph).phase)
    (hp : ∀ c k me, ph ≠ .inserting c k me)
    (ha : ∀ {c}, ph.awaits = some c → ∃ e, s.manager.tables.entries.lookup c = some e) : s'.Sound := by
  obtain ⟨⟩ := s'
  subst hm hs
  constructor
  case inverse => exact o.inverse
  case entered => exact o.entered
  case reserved =>
    intro t' c k me h
    obtain ⟨_, h⟩ | ⟨_, h⟩ := goto_cases h
    case inl => exact absurd h (hp _ _ _)
    case inr => exact o.reserved h
  case distinct =>
    intro t₁ t₂ c k₁ k₂ me₁ me₂ h₁ h₂
    obtain ⟨_, h₁⟩ | ⟨_, h₁⟩ := goto_cases h₁
    case inl => exact absurd h₁ (hp _ _ _)
    case inr =>
      obtain ⟨_, h₂⟩ | ⟨_, h₂⟩ := goto_cases h₂
      case inl => exact absurd h₂ (hp _ _ _)
      case inr => exact o.distinct h₁ h₂
  case awaited =>
    intro t₁ t₂ c k me h h'
    obtain ⟨_, h'⟩ | ⟨_, h'⟩ := goto_cases h'
    case inl => exact absurd h' (hp _ _ _)
    case inr =>
      rw [goto_phase] at h
      split at h
      case isFalse => exact o.awaited h h'
      case isTrue =>
        have ⟨e, he⟩ := ha h
        rw [(o.reserved h').right] at he
        contradiction
  case fetched =>
    intro t' c h
    rw [goto_phase] at h
    split at h
    case isFalse => exact o.fetched h
    case isTrue =>
      have ⟨e, he⟩ := ha h
      exact (o.entered he).left

variable [DecidableEq ς]

-- The id that is reserved is a new one.
theorem insertConnection (o : s.Sound) (h : s.act (.insertConnection t conn me) = some s') : s'.Sound := by
  simp only [State.act] at h
  split at h <;> cases h
  have new {t' c k me'} (h : (s.goto t <| .inserting s.manager.nextConnId conn me).phase t' = .inserting c k me') :
      t' = t ∧ c = s.manager.nextConnId ∨ s.phase t' = .inserting c k me' ∧ c ≠ s.manager.nextConnId := by
    obtain ⟨ht, h⟩ | ⟨_, h⟩ := goto_cases h
    case inl => cases h; exact .inl ⟨ht, rfl⟩
    case inr => exact .inr ⟨h, fun hc => absurd (o.reserved h).left <| hc ▸ Nat.lt_irrefl _⟩
  constructor
  case inverse => exact o.inverse
  case entered => exact fun h => (o.entered h).imp_left Nat.lt_succ_of_lt
  case reserved =>
    intro t' c k me' h
    obtain ⟨_, rfl⟩ | ⟨h, _⟩ := new h
    case inr => exact (o.reserved h).imp_left Nat.lt_succ_of_lt
    case inl =>
      refine ⟨Nat.lt_succ_self _, Option.eq_none_iff_forall_ne_some.mpr fun e he => ?_⟩
      exact (o.entered he).left.false
  case distinct =>
    intro t₁ t₂ c k₁ k₂ me₁ me₂ h₁ h₂
    obtain ⟨ht₁, hc₁⟩ | ⟨h₁, hc₁⟩ := new h₁ <;> obtain ⟨ht₂, hc₂⟩ | ⟨h₂, hc₂⟩ := new h₂
    case inl.inl => exact ht₁.trans ht₂.symm
    case inl.inr => exact absurd hc₁ hc₂
    case inr.inl => exact absurd hc₂ hc₁
    case inr.inr => exact o.distinct h₁ h₂
  case awaited =>
    intro t₁ t₂ c k me' h h'
    obtain ⟨_, hc⟩ | ⟨h', _⟩ := new h'
    case inl => exact absurd (o.fetched <| awaits_of_goto h rfl) (hc ▸ Nat.lt_irrefl _)
    case inr => exact o.awaited (awaits_of_goto h rfl) h'
  case fetched => exact fun h => Nat.lt_succ_of_lt <| o.fetched (awaits_of_goto h rfl)

-- What gets into the tables is the connection that its id has been reserved for.
theorem insert (o : s.Sound) (h : s.act (.insert t) = some s') : s'.Sound := by
  simp only [State.act] at h
  split at h
  case h_2 => contradiction
  case h_1 n k me hp =>
    obtain ⟨hn, he⟩ := o.reserved hp
    have old {t' c k' me'} (h : (s.goto t .idle).phase t' = .inserting c k' me') :
        s.phase t' = .inserting c k' me' ∧ c ≠ n := by
      obtain ⟨_, h⟩ | ⟨ht, h⟩ := goto_cases h
      case inl => contradiction
      case inr => exact ⟨h, fun hc => ht <| o.distinct h (hc ▸ hp)⟩
    cases hi : s.manager.tables.insertConnection n k me
    case mk r tables =>
      simp only [hi] at h
      cases h
      constructor
      case inverse => exact o.inverse.insertConnection he hi
      case entered =>
        intro c e hc
        by_cases hn' : c = n
        case neg =>
          rw [o.inverse.lookup_insertConnection hi hn', Option.ite_none_left_eq_some] at hc
          exact o.entered hc.right
        case pos =>
          refine ⟨hn' ▸ hn, ?_⟩
          obtain ⟨_, rfl, _⟩ | ⟨_, _, _, hl⟩ := o.inverse.insertConnection_cases hi
          case inl =>
            rw [hn', he] at hc
            contradiction
          case inr =>
            rw [hl, if_pos hn', Option.some.injEq] at hc
            rw [← hc]
      case reserved =>
        intro t' c k' me' h
        obtain ⟨h, hc⟩ := old h
        obtain ⟨hr, hl⟩ := o.reserved h
        refine ⟨hr, ?_⟩
        rw [o.inverse.lookup_insertConnection hi hc, hl, ite_self]
      case distinct => exact fun h h' => o.distinct (old h).left (old h').left
      case awaited  => exact fun h h' => o.awaited (awaits_of_goto h rfl) (old h').left
      case fetched  => exact fun h => o.fetched (awaits_of_goto h rfl)

omit [DecidableEq τ] [DecidableEq ς] in
theorem remove {n : ConnId} (o : s.Sound) : Sound { s with manager := s.manager.remove n } := by
  constructor
  case inverse => exact o.inverse.remove
  case entered =>
    intro c e h
    simp only [ConnectionManager.remove, lookup_remove, Option.ite_none_left_eq_some] at h
    exact o.entered h.right
  case reserved =>
    intro t c k me h
    obtain ⟨hc, hl⟩ := o.reserved h
    simp only [ConnectionManager.remove, lookup_remove, hl, ite_self]
    exact ⟨hc, trivial⟩
  case distinct => exact o.distinct
  case awaited  => exact o.awaited
  case fetched  => exact o.fetched

theorem act (o : s.Sound) (h : s.act l = some s') : s'.Sound := by
  have h' := h
  cases l <;> simp only [State.act] at h
  case insertConnection => exact o.insertConnection h'
  case insert           => exact o.insert h'
  case remove           => cases h; exact o.remove
  case send t p m =>
    split at h <;> cases h
    exact o.goto rfl rfl nofun nofun
  case lookUp t =>
    split at h <;> cases h
    refine o.goto rfl rfl nofun fun {c} hc => ?_
    have ⟨e, he, _⟩ := o.inverse.indexed hc
    exact ⟨e, he⟩
  case fetch t =>
    split at h <;> cases h
    case h_1 => exact o.goto rfl rfl nofun nofun
    case h_2 => exact o.goto rfl rfl nofun nofun
  case push t =>
    split at h
    case h_1 =>
      split at h <;> cases h
      case isTrue  => exact o.goto rfl rfl nofun nofun
      case isFalse => exact o.goto rfl rfl nofun nofun
    case h_2 => cases h; exact o.goto rfl rfl nofun nofun
    case h_3 => cases h
  case «return» t =>
    split at h <;> cases h
    exact o.goto rfl rfl nofun nofun
  case close c =>
    cases h
    exact ⟨o.inverse, o.entered, o.reserved, o.distinct, o.awaited, o.fetched⟩

end State.Sound

-- How far a call has come whose peer has had an established entry all the time. What it has found stays
-- until it is replaced.
structure State.Follows (s : State τ ς) (t : τ) : Prop where
  sending  : ∀ {p m}, s.phase t = .sending p m → s.overtaken t = false ∧ s.severed t = false
  found    : ∀ {p m connId}, s.phase t = .found p m connId → s.severed t = false ∧ ∃ c, connId = some c ∧
    (s.overtaken t = true ∧ s.manager.tables.entries.lookup c = none ∨ s.overtaken t = false ∧
      ∃ e, s.manager.tables.entries.lookup c = some e ∧ e.connection.remotePeerId = p)
  routed   : ∀ {p m k}, s.phase t = .routed p m k → s.severed t = false ∧
    (s.overtaken t = true ∧ k = none ∨ s.overtaken t = false ∧ ∃ conn, k = some conn ∧ conn.remotePeerId = p)
  returned : ∀ {p m result k}, s.phase t = .returned p m result k →
    (s.overtaken t = true ∧ k = none) ∨ (s.severed t = true ∧ k = none) ∨
    s.overtaken t = false ∧ s.severed t = false ∧ result = .ok () ∧
      ∃ conn, k = some conn ∧ conn.remotePeerId = p ∧ m.toFrame ∈ s.queue conn.sender

namespace State.Follows

omit [DecidableEq τ] in
-- A thread that has not moved.
theorem frame (f : s.Follows t) (hp : s'.phase t = s.phase t) (ho : s'.overtaken t = s.overtaken t)
    (hs : s'.severed t = s.severed t)
    (he : ∀ {c}, (s.phase t).awaits = some c →
      s'.manager.tables.entries.lookup c = s.manager.tables.entries.lookup c)
    (hq : ∀ {k fr}, fr ∈ s.queue k → fr ∈ s'.queue k) : s'.Follows t where
  sending h := by
    rw [ho, hs]
    exact f.sending (hp ▸ h)
  found h := by
    rw [hp] at h
    have ⟨hs', c, hc, hl⟩ := f.found h
    refine ⟨hs ▸ hs', c, hc, ?_⟩
    rw [ho, he (by rw [h]; exact hc)]
    exact hl
  routed h := by
    rw [ho, hs]
    exact f.routed (hp ▸ h)
  returned h := by
    rw [ho, hs]
    refine (f.returned (hp ▸ h)).imp_right <| Or.imp_right fun ⟨ho, hs, hr, k, hk, hp, hm⟩ => ?_
    exact ⟨ho, hs, hr, k, hk, hp, hq hm⟩

omit [DecidableEq τ] in
theorem idle (h : s.phase t = .idle ∨ ∃ c k me, s.phase t = .inserting c k me) : s.Follows t := by
  obtain h | ⟨_, _, _, h⟩ := h <;> exact ⟨by simp [h], by simp [h], by simp [h], by simp [h]⟩

theorem goto_frame (f : s.Follows t') (hn : t' ≠ t) (hp : s'.phase = (s.goto t ph).phase)
    (ho : s'.overtaken t' = s.overtaken t') (hs : s'.severed t' = s.severed t') (hm : s'.manager.tables = s.manager.tables)
    (hq : ∀ {k fr}, fr ∈ s.queue k → fr ∈ s'.queue k) : s'.Follows t' :=
  f.frame (by rw [hp, goto_phase, if_neg hn]) ho hs (fun _ => by rw [hm]) hq

variable [DecidableEq ς] in
theorem insert {n : ConnId} {k : Connection ς} (o : s.Sound) (f : s.Follows t') (hn : t' ≠ t)
    (hp : s.phase t = .inserting n k me) (h : s.act (.insert t) = some s') : s'.Follows t' := by
  simp only [State.act, hp] at h
  cases hi : s.manager.tables.insertConnection n k me
  case mk r tables =>
    simp only [hi] at h
    cases h
    have hph : (s.goto t .idle).phase t' = s.phase t' := by rw [goto_phase, if_neg hn]
    by_cases hr : ∃ c, s.manager.tables.supersedes k me = some c ∧ (s.phase t').awaits = some c
    case neg =>
      refine f.frame hph ?_ rfl (fun {c} hc => ?_) id
      case refine_1 =>
        cases hs : s.manager.tables.supersedes k me
        case none   => simp
        case some c =>
          have : ¬(s.phase t').awaits = some c := fun ha => hr ⟨c, hs, ha⟩
          simp [this]
      case refine_2 =>
        have hne : c ≠ n := by rintro rfl; exact o.awaited hc hp
        rw [o.inverse.lookup_insertConnection hi hne, if_neg fun hs => hr ⟨c, hs, hc⟩]
    case pos =>
      have ⟨c, hs, ha⟩ := hr
      have hne : c ≠ n := by rintro rfl; exact o.awaited ha hp
      have hl := o.inverse.lookup_insertConnection hi hne
      rw [if_pos hs] at hl
      constructor
      case sending  => intro p m h; simp [hph.symm.trans h, Phase.awaits] at ha
      case routed   => intro p m k h; simp [hph.symm.trans h, Phase.awaits] at ha
      case returned => intro p m r k h; simp [hph.symm.trans h, Phase.awaits] at ha
      case found =>
        intro p m connId h
        have h' := hph.symm.trans h
        rw [h'] at ha
        refine ⟨(f.found h').left, c, ha, .inl ⟨?_, hl⟩⟩
        simp [hs, h', ha]

omit [DecidableEq τ] in
-- Without the connection to its peer a call has lost what it has found.
theorem remove {n : ConnId} (o : s.Sound) (f : s.Follows t)
    (he : ∀ {p}, (s.phase t).peer = some p → (s.manager.tables.remove n).established p = true) :
    Follows { s with manager := s.manager.remove n } t := by
  constructor
  case sending  => exact f.sending
  case routed   => exact f.routed
  case returned => exact f.returned
  case found =>
    intro p m connId h
    obtain ⟨hs, c, hc, hl⟩ := f.found h
    refine ⟨hs, c, hc, ?_⟩
    obtain ⟨ho, hl⟩ | ⟨ho, e, hl, hp⟩ := hl
    case inl =>
      refine .inl ⟨ho, ?_⟩
      simp only [ConnectionManager.remove, lookup_remove, hl, ite_self]
    case inr =>
      refine .inr ⟨ho, e, ?_, hp⟩
      obtain ⟨c', e', hl', hp', _⟩ := established_iff.mp <| he (p := p) (by rw [show s.phase t = _ from h]; rfl)
      simp only [lookup_remove, Option.ite_none_left_eq_some] at hl'
      have hc' := o.inverse.entry_unique hl'.right hl (hp'.trans hp.symm)
      simp only [ConnectionManager.remove, lookup_remove]
      rw [if_neg (hc' ▸ hl'.left), hl]

variable [DecidableEq ς]

theorem lookUp (o : s.Sound) (f : s.Follows t) (h : s.act (.lookUp t') = some s')
    (hb : ∀ {p}, (s.phase t).peer = some p → s.manager.tables.established p = true) : s'.Follows t := by
  simp only [State.act] at h
  split at h <;> cases h
  case h_1 p m hp =>
    by_cases ht : t = t'
    case neg => exact f.goto_frame ht rfl rfl rfl rfl id
    case pos =>
      subst ht
      have ⟨ho, hs⟩ := f.sending hp
      have ⟨c, e, hl, hr, _⟩ := established_iff.mp <| hb (p := p) (by rw [hp]; rfl)
      have hi := hr ▸ o.inverse.entered hl
      refine ⟨by simp, fun h => ?_, by simp, by simp⟩
      simp only [goto_phase, if_true, Phase.found.injEq] at h
      obtain ⟨rfl, rfl, rfl⟩ := h
      exact ⟨hs, c, hi, .inr ⟨ho, e, hl, hr⟩⟩

theorem fetch (f : s.Follows t) (h : s.act (.fetch t') = some s') : s'.Follows t := by
  simp only [State.act] at h
  split at h <;> cases h
  case h_1 p m c hp =>
    by_cases ht : t = t'
    case neg => exact f.goto_frame ht rfl rfl rfl rfl id
    case pos =>
      subst ht
      have ⟨hs, c', hc', hl⟩ := f.found hp
      cases hc'
      refine ⟨by simp, by simp, fun h => ?_, by simp⟩
      simp only [goto_phase, if_true, Phase.routed.injEq] at h
      obtain ⟨rfl, rfl, rfl⟩ := h
      refine ⟨hs, ?_⟩
      obtain ⟨ho, hl⟩ | ⟨ho, e, hl, hr⟩ := hl
      case inl => exact .inl ⟨ho, by rw [hl]; rfl⟩
      case inr => exact .inr ⟨ho, e.connection, by rw [hl]; rfl, hr⟩
  case h_2 p m hp =>
    by_cases ht : t = t'
    case neg => exact f.goto_frame ht rfl rfl rfl rfl id
    case pos =>
      subst ht
      have ⟨_, _, hc', _⟩ := f.found hp
      contradiction

theorem push (f : s.Follows t) (h : s.act (.push t') = some s') : s'.Follows t := by
  simp only [State.act] at h
  split at h
  case h_3 => contradiction
  case h_1 p m k hp =>
    split at h <;> cases h
    case isTrue =>
      by_cases ht : t = t'
      case neg => exact f.goto_frame ht rfl rfl (Function.update_of_ne ht ..) rfl id
      case pos =>
        subst ht
        refine ⟨by simp, by simp, by simp, fun h => .inr <| .inl ⟨Function.update_self .., ?_⟩⟩
        simp only [goto_phase, if_true, Phase.returned.injEq] at h
        exact h.right.right.right.symm
    case isFalse =>
      by_cases ht : t = t'
      case neg =>
        refine f.goto_frame ht rfl rfl rfl rfl fun {k' fr} hf => ?_
        simp only [Function.update_apply]
        split
        case isTrue hk => exact List.mem_append_left _ (hk ▸ hf)
        case isFalse   => exact hf
      case pos =>
        subst ht
        have ⟨hs, hr⟩ := f.routed hp
        refine ⟨by simp, by simp, by simp, fun h => .inr <| .inr ?_⟩
        simp only [goto_phase, if_true, Phase.returned.injEq] at h
        obtain ⟨rfl, rfl, rfl, rfl⟩ := h
        obtain ⟨_, hk⟩ | ⟨ho, k', hk, hq⟩ := hr
        case inl => contradiction
        case inr =>
          cases hk
          exact ⟨ho, hs, rfl, k, rfl, hq, by simp⟩
  case h_2 p m hp =>
    cases h
    by_cases ht : t = t'
    case neg => exact f.goto_frame ht rfl rfl rfl rfl id
    case pos =>
      subst ht
      obtain ⟨_, ⟨ho, _⟩ | ⟨_, _, hk, _⟩⟩ := f.routed hp
      case inr => contradiction
      case inl =>
        refine ⟨by simp, by simp, by simp, fun h => .inl ⟨ho, ?_⟩⟩
        simp only [goto_phase, if_true, Phase.returned.injEq] at h
        exact h.right.right.right.symm

theorem act (o : s.Sound) (h : s.act l = some s') (f : ∀ {t}, s.covered t = true → s.Follows t)
    (hb : ∀ {t p}, s.covered t = true → (s.phase t).peer = some p → s.manager.tables.established p = true)
    (hc : s'.covered t = true) (he : ∀ {p}, (s'.phase t).peer = some p → s'.manager.tables.established p = true) :
    s'.Follows t := by
  have h' := h
  cases l <;> simp only [State.act] at h'
  case remove n => cases h'; exact (f hc).remove o he
  case close k  => cases h'; exact (f hc).frame rfl rfl rfl (fun _ => rfl) id
  case insertConnection t₀ k me =>
    split at h' <;> cases h'
    by_cases ht : t = t₀
    case pos => exact idle (.inr ⟨_, k, me, by rw [goto_phase, if_pos ht]⟩)
    case neg => exact (f hc).goto_frame ht rfl rfl rfl rfl id
  case insert t₀ =>
    split at h' <;> cases h'
    case h_1 hp =>
      by_cases ht : t = t₀
      case pos => exact idle (.inl (by rw [goto_phase, if_pos ht]))
      case neg => exact (f hc).insert o ht hp h
  case send t₀ p m =>
    split at h' <;> cases h'
    by_cases ht : t = t₀
    case neg =>
      simp only [Function.update_of_ne ht] at hc
      exact (f hc).goto_frame ht rfl (Function.update_of_ne ht ..) (Function.update_of_ne ht ..) rfl id
    case pos =>
      subst ht
      exact ⟨fun _ => ⟨Function.update_self .., Function.update_self ..⟩, by simp, by simp, by simp⟩
  case lookUp t₀ =>
    split at h' <;> cases h'
    exact (f hc).lookUp o h (hb hc)
  case fetch t₀ =>
    split at h' <;> cases h'
    case h_1 => exact (f hc).fetch h
    case h_2 => exact (f hc).fetch h
  case push t₀ =>
    have hc' : s'.covered = s.covered := by
      split at h'
      case h_1 => split at h' <;> cases h' <;> rfl
      case h_2 => cases h'; rfl
      case h_3 => cases h'
    exact (f (hc' ▸ hc)).push h
  case «return» t₀ =>
    split at h' <;> cases h'
    by_cases ht : t = t₀
    case pos => exact idle (.inl (by rw [goto_phase, if_pos ht]))
    case neg => exact (f hc).goto_frame ht rfl rfl rfl rfl id

end State.Follows

omit [DecidableEq τ] in
theorem observed_covered : s.observed.covered t = true ↔ s.covered t = true ∧
    ∀ {p}, (s.phase t).peer = some p → s.manager.tables.established p = true := by
  simp only [State.observed, Bool.and_eq_true, Option.all_eq_true]

-- What holds of every call whose peer has had an established entry all the time.
structure State.Covers (s : State τ ς) : Prop where
  sound  : s.Sound
  follows : ∀ {t}, s.covered t = true → s.Follows t
  holds  : ∀ {t p}, s.covered t = true → (s.phase t).peer = some p → s.manager.tables.established p = true

namespace State.Covers

omit [DecidableEq τ] in
theorem init : (init : State τ ς).Covers where
  sound     := .init
  follows h := by simp [Sending.init] at h
  holds h   := by simp [Sending.init] at h

variable [DecidableEq ς]

theorem step (o : s.Covers) (h : step s l = some s') : s'.Covers := by
  obtain ⟨s₁, ha, rfl⟩ := Option.map_eq_some_iff.mp h
  have o₁ := o.sound.act ha
  constructor
  case sound => exact ⟨o₁.inverse, o₁.entered, o₁.reserved, o₁.distinct, o₁.awaited, o₁.fetched⟩
  case holds => exact fun hc => (observed_covered.mp hc).right
  case follows =>
    intro t hc
    have ⟨hc, he⟩ := observed_covered.mp hc
    have f := Follows.act o.sound ha o.follows o.holds hc he
    exact ⟨f.sending, f.found, f.routed, f.returned⟩

theorem reachable (r : Reachable (system τ ς) s) : s.Covers := by
  refine Invariant.reachable ⟨?_, fun o h => step o h⟩ r
  rintro _ rfl
  exact init

end State.Covers

variable [DecidableEq ς]

-- The call does not say that the peer is not connected, and the frame is queued on a connection to it.
def State.Delivered (s : State τ ς) (t : τ) : Prop :=
  ∃ p m result conn, s.phase t = .returned p m result (some conn) ∧
    (∀ message, result ≠ .error ⟨.notConnected, message⟩) ∧ conn.remotePeerId = p ∧ m.toFrame ∈ s.queue conn.sender

-- A call whose peer has had an established entry all the time delivers its frame exactly when the
-- connection that it has found is not replaced before its second section, and the writer thread of that
-- connection has not returned before the frame comes.
theorem delivered_iff {result : Except Error Unit} {k : Option (Connection ς)} (r : Reachable (system τ ς) s)
    (hc : s.covered t = true) (hp : s.phase t = .returned p m result k) :
    s.Delivered t ↔ s.overtaken t = false ∧ s.severed t = false := by
  have f := (State.Covers.reachable r).follows hc
  obtain ⟨ho, hk⟩ | ⟨hs, hk⟩ | ⟨ho, hs, hr, conn, hk, hq, hm⟩ := f.returned hp
  case inl =>
    refine iff_of_false (fun ⟨_, _, _, conn, h, _⟩ => ?_) (fun ⟨h, _⟩ => by simp [ho] at h)
    rw [hp, hk] at h
    cases h
  case inr.inl =>
    refine iff_of_false (fun ⟨_, _, _, conn, h, _⟩ => ?_) (fun ⟨_, h⟩ => by simp [hs] at h)
    rw [hp, hk] at h
    cases h
  case inr.inr =>
    refine iff_of_true ⟨p, m, result, conn, hk ▸ hp, fun _ => ?_, hq, hm⟩ ⟨ho, hs⟩
    rw [hr]
    nofun

def here : PeerId :=
  ⟨.replicate 32 2⟩

def there : PeerId :=
  ⟨.replicate 32 1⟩

def inserting (sender : Nat) : List (Label Bool Nat) :=
  [.insertConnection true ⟨there, .outgoing, sender⟩ here, .insert true]

def sending : List (Label Bool Nat) :=
  [.send false there (.listResources 1), .lookUp false]

-- The second connection replaces the first between the two sections of the call.
def overtaking : List (Label Bool Nat) :=
  inserting 0 ++ sending ++ inserting 1 ++ [.fetch false, .push false]

def undisturbed : List (Label Bool Nat) :=
  inserting 0 ++ sending ++ [.fetch false] ++ inserting 1 ++ [.push false]

theorem delivered_iff_undisturbed : ∃ s, Run (system Bool Nat) init undisturbed s ∧ s.Delivered false := by
  have ⟨s, r, hc, hp, ho, hs⟩ : ∃ s, Run (system Bool Nat) init undisturbed s ∧ s.covered false = true ∧
      s.phase false = .returned there (.listResources 1) (.ok ()) (some ⟨there, .outgoing, 0⟩) ∧
      s.overtaken false = false ∧ s.severed false = false :=
    ⟨_, .ofFn (rfl : undisturbed.foldlM step init = _), rfl, rfl, rfl, rfl⟩
  exact ⟨s, r, (delivered_iff (r.reachable (.init rfl)) hc hp).mpr ⟨ho, hs⟩⟩

theorem overtaking_not_delivered : ∃ s, Run (system Bool Nat) init overtaking s ∧ s.covered false = true ∧
    s.phase false = .returned there (.listResources 1) (.error ⟨.notConnected, "Peer not connected"⟩) none ∧
    ¬s.Delivered false := by
  have ⟨s, r, hc, hp⟩ : ∃ s, Run (system Bool Nat) init overtaking s ∧ s.covered false = true ∧
      s.phase false = .returned there (.listResources 1) (.error ⟨.notConnected, "Peer not connected"⟩) none :=
    ⟨_, .ofFn (rfl : overtaking.foldlM step init = _), rfl, rfl⟩
  refine ⟨s, r, hc, hp, fun ⟨_, _, _, conn, h, _⟩ => ?_⟩
  rw [hp] at h
  cases h

end Sending
end Parsip
