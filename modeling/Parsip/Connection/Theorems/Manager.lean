import Parsip.Connection.Manager

namespace Parsip

theorem PeerId.toBytes_injective {p q : PeerId} (h : p.toBytes = q.toBytes) : p = q := by
  cases p
  cases q
  exact congrArg PeerId.mk <| Subtype.ext h

theorem PeerId.toBytes_trichotomy {p q : PeerId} (h : p ≠ q) :
    p.toBytes > q.toBytes ∨ q.toBytes > p.toBytes := by
  by_contra hc
  have ⟨h₁, h₂⟩ := not_or.mp hc
  exact h <| toBytes_injective <| List.le_antisymm h₁ h₂

namespace ConnectionTables

variable {ς : Type} {t t' : ConnectionTables ς} {c c' n : ConnId} {p q me : PeerId}
variable {conn : Connection ς} {e : ConnectionEntry ς} {r : Except Error ConnId}

-- The index and the entries are inverse to each other.
structure Inverse (t : ConnectionTables ς) : Prop where
  indexed : ∀ {p : PeerId} {c : ConnId}, t.peerIndex.lookup p = some c →
    ∃ e, t.entries.lookup c = some e ∧ e.connection.remotePeerId = p
  entered : ∀ {c : ConnId} {e : ConnectionEntry ς}, t.entries.lookup c = some e →
    t.peerIndex.lookup e.connection.remotePeerId = some c

namespace Inverse

theorem «def» (i : t.Inverse) : t.peerIndex.lookup p = some c ↔
    ∃ e, t.entries.lookup c = some e ∧ e.connection.remotePeerId = p where
  mp       := i.indexed
  mpr | ⟨_, he, hp⟩ => hp ▸ i.entered he

theorem empty : (empty : ConnectionTables ς).Inverse where
  indexed h := by simp [ConnectionTables.empty] at h
  entered h := by simp [ConnectionTables.empty] at h

-- There is at most one entry per peer.
theorem entry_unique {e' : ConnectionEntry ς} (i : t.Inverse) (h : t.entries.lookup c = some e)
    (h' : t.entries.lookup c' = some e')
    (hp : e.connection.remotePeerId = e'.connection.remotePeerId) : c = c' := by
  have h₁ := i.entered h
  have h₂ := i.entered h'
  rw [hp, h₂] at h₁
  exact (Option.some.inj h₁).symm

theorem peer_unique (i : t.Inverse) (h : t.peerIndex.lookup p = some c) (h' : t.peerIndex.lookup q = some c) : p = q := by
  obtain ⟨e, he, rfl⟩ := i.indexed h
  obtain ⟨e', he', rfl⟩ := i.indexed h'
  cases he.symm.trans he'
  rfl

theorem oldConnId_eq (i : t.Inverse) : t.oldConnId p = t.peerIndex.lookup p := by
  simp only [oldConnId]
  split
  case h_2 hn => exact hn.symm
  case h_1 c hc =>
    have ⟨e, he, _⟩ := i.indexed hc
    rw [if_pos <| Table.contains_eq_true.mpr ⟨e, he⟩, hc]

end Inverse

-- Everything that `insert_connection` can do: it refuses the connection and changes nothing, or it
-- makes the connection the only one to its peer.
theorem insertConnection_cases (h : t.insertConnection n conn me = (r, t')) :
    ((∃ e, r = .error e ∧ e.kind = .alreadyExists) ∧ t' = t ∧
      (∃ c, t.peerIndex.lookup conn.remotePeerId = some c ∧ t.entries.contains c) ∧
      keepNew me conn.remotePeerId conn.direction = false) ∨
    (r = .ok n ∧
      t'.peerIndex = t.peerIndex.insert conn.remotePeerId n ∧
      (t'.entries = t.entries.insert n ⟨conn, .established⟩ ∧
        (∀ c, t.peerIndex.lookup conn.remotePeerId = some c → t.entries.lookup c = none) ∨
      ∃ c, t.peerIndex.lookup conn.remotePeerId = some c ∧ t.entries.contains c ∧
        keepNew me conn.remotePeerId conn.direction = true ∧
        t'.entries = (t.entries.erase c).insert n ⟨conn, .established⟩)) := by
  simp only [insertConnection] at h
  split at h
  case h_1 c hc =>
    split at h
    case isTrue he =>
      split at h
      case isTrue hk =>
        cases h
        exact .inr ⟨rfl, rfl, .inr ⟨c, hc, he, hk, rfl⟩⟩
      case isFalse hk =>
        cases h
        exact .inl ⟨⟨_, rfl, rfl⟩, rfl, ⟨c, hc, he⟩, by simpa using hk⟩
    case isFalse he =>
      cases h
      refine .inr ⟨rfl, rfl, .inl ⟨rfl, fun c' hc' => ?_⟩⟩
      cases hc.symm.trans hc'
      exact Table.contains_eq_false.mp <| Bool.not_eq_true _ ▸ he
  case h_2 hc =>
    cases h
    exact .inr ⟨rfl, rfl, .inl ⟨rfl, by simp [hc]⟩⟩

theorem lookup_insertConnection (h : t.insertConnection n conn me = (r, t'))
    (hc : t'.entries.lookup c = some e) : c = n ∨ t.entries.lookup c = some e := by
  obtain ⟨_, ht, _⟩ | ⟨_, _, ⟨he, _⟩ | ⟨_, _, _, _, he⟩⟩ := insertConnection_cases h
  case inl => exact .inr (ht ▸ hc)
  all_goals
    rw [he] at hc
    grind

theorem connection_insertConnection (h : t.insertConnection n conn me = (r, t'))
    (hc : t'.entries.lookup c = some e) : e.connection = conn ∨ t.entries.lookup c = some e := by
  obtain ⟨_, ht, _⟩ | ⟨_, _, ⟨he, _⟩ | ⟨_, _, _, _, he⟩⟩ := insertConnection_cases h
  case inl => exact .inr (ht ▸ hc)
  all_goals
    rw [he] at hc
    grind

theorem isConnected_of_oldConnId (h : t.oldConnId p = some c) : t.isConnected p = true := by
  simp only [oldConnId] at h
  split at h
  case h_1 old ho => exact Table.contains_eq_true.mpr ⟨old, ho⟩
  case h_2        => contradiction

-- The connection that is replaced had an entry and has none any more.
theorem lookup_oldConnId (h : t.insertConnection n conn me = (r, t'))
    (hk : keepNew me conn.remotePeerId conn.direction = true)
    (hc : t.oldConnId conn.remotePeerId = some c) :
    t.entries.contains c ∧ (c ≠ n → t'.entries.lookup c = none) := by
  simp only [oldConnId] at hc
  split at hc
  case h_2 => contradiction
  case h_1 old ho =>
    simp only [Option.ite_none_right_eq_some, Option.some.injEq] at hc
    obtain ⟨he, rfl⟩ := hc
    simp only [insertConnection, ho, he, if_true, hk] at h
    cases h
    exact ⟨he, fun hn => by simp [hn]⟩

-- On inverse maps the outcome depends only on whether the peer is connected.
theorem Inverse.insertConnection_cases (i : t.Inverse)
    (h : t.insertConnection n conn me = (r, t')) :
    ((∃ e, r = .error e ∧ e.kind = .alreadyExists) ∧ t' = t ∧
      t.isConnected conn.remotePeerId = true ∧
      keepNew me conn.remotePeerId conn.direction = false) ∨
    (r = .ok n ∧
      (t.isConnected conn.remotePeerId = true →
        keepNew me conn.remotePeerId conn.direction = true) ∧
      (∀ q, t'.peerIndex.lookup q =
        if q = conn.remotePeerId then some n else t.peerIndex.lookup q) ∧
      ∀ c, t'.entries.lookup c = if c = n then some ⟨conn, .established⟩
        else if t.peerIndex.lookup conn.remotePeerId = some c then none
        else t.entries.lookup c) := by
  obtain ⟨hr, ht, ⟨c, hc, _⟩, hk⟩ | ⟨hr, hp, ⟨he, hn⟩ | ⟨c, hc, _, hk, he⟩⟩ :=
    ConnectionTables.insertConnection_cases h
  case inl => exact .inl ⟨hr, ht, by simp [isConnected, hc], hk⟩
  case inr.inl =>
    -- An indexed connection always has its entry, so the peer was not connected.
    have hd : t.peerIndex.lookup conn.remotePeerId = none := by
      cases hc : t.peerIndex.lookup conn.remotePeerId
      case none => rfl
      case some c =>
        have ⟨_, h, _⟩ := i.indexed hc
        rw [hn c hc] at h
        contradiction
    exact .inr ⟨hr, by simp [isConnected, hd], by simp [hp], by simp [he, hd]⟩
  case inr.inr =>
    refine .inr ⟨hr, fun _ => hk, by simp [hp], fun c' => ?_⟩
    simp only [he, hc, Table.lookup_insert, Table.lookup_erase, Option.some.injEq, eq_comm (a := c)]

theorem Inverse.insertConnection (i : t.Inverse) (hn : t.entries.lookup n = none)
    (h : t.insertConnection n conn me = (r, t')) : t'.Inverse := by
  obtain ⟨_, ht, _⟩ | ⟨_, _, hp, he⟩ := i.insertConnection_cases h
  case inl => exact ht ▸ i
  case inr =>
    constructor
    case indexed =>
      intro p c h
      rw [hp] at h
      split at h
      case isTrue hq => cases h; exact ⟨_, by rw [he, if_pos rfl], hq.symm⟩
      case isFalse hq =>
        have ⟨e, hc, hr⟩ := i.indexed h
        have hne : c ≠ n := by rintro rfl; rw [hn] at hc; contradiction
        refine ⟨e, ?_, hr⟩
        rw [he, if_neg hne, if_neg, hc]
        intro hc'
        have ⟨e', he', hr'⟩ := i.indexed hc'
        cases hc.symm.trans he'
        exact hq (hr.symm.trans hr')
    case entered =>
      intro c e h
      rw [he] at h
      split at h
      case isTrue hc => cases h; rw [hp, if_pos rfl, hc]
      case isFalse =>
        split at h
        case isTrue  => contradiction
        case isFalse hc =>
          have hi := i.entered h
          rw [hp, if_neg, hi]
          intro hq
          exact hc (hq ▸ hi)

@[simp]
theorem removeIndex_entries : (t.removeIndex c p).entries = t.entries := by
  rw [removeIndex]
  split <;> rfl

theorem remove_of_absent (h : t.entries.lookup c = none) : t.remove c = t := by
  simp [remove, h]

theorem lookup_remove : (t.remove c').entries.lookup c = if c = c' then none else t.entries.lookup c := by
  simp only [remove]
  split
  case h_1 => rw [removeIndex_entries, Table.lookup_erase]
  case h_2 hn =>
    split
    case isTrue hc => rw [hc, hn]
    case isFalse   => rfl

theorem peerIndex_of_remove (h : (t.remove c).peerIndex.lookup p = some c') : t.peerIndex.lookup p = some c' := by
  simp only [remove] at h
  split at h
  case h_2 => exact h
  case h_1 =>
    rw [removeIndex] at h
    split at h
    case isFalse => exact h
    case isTrue =>
      rw [Table.lookup_erase, Option.ite_none_left_eq_some] at h
      exact h.right

theorem Inverse.remove_of_present (i : t.Inverse) (h : t.entries.lookup c = some e) :
    t.remove c = {
      entries   := t.entries.erase c
      peerIndex := t.peerIndex.erase e.connection.remotePeerId
    } := by
  simp [ConnectionTables.remove, removeIndex, h, i.entered h]

theorem Inverse.remove (i : t.Inverse) : (t.remove c).Inverse := by
  cases h : t.entries.lookup c
  case none => rwa [remove_of_absent h]
  case some e =>
    rw [i.remove_of_present h]
    constructor
    case indexed =>
      intro p c' h'
      simp only [Table.lookup_erase, Option.ite_none_left_eq_some] at h' ⊢
      obtain ⟨e', he', hp⟩ := i.indexed h'.right
      refine ⟨e', ⟨?_, he'⟩, hp⟩
      rintro rfl
      cases h.symm.trans he'
      exact h'.left hp.symm
    case entered =>
      intro c' e' h'
      simp only [Table.lookup_erase, Option.ite_none_left_eq_some] at h' ⊢
      exact ⟨fun hp => h'.left <| i.entry_unique h'.right h hp, i.entered h'.right⟩

end ConnectionTables

namespace ConnectionManager

variable {ς : Type} {m m' : ConnectionManager ς} {conn : Connection ς} {me p : PeerId} {c : ConnId}
variable {r : Except Error ConnId}

-- The tables are inverse and the counter is ahead of them.
structure Consistent (m : ConnectionManager ς) : Prop where
  inverse : m.tables.Inverse
  entered : ∀ {c : ConnId} {e : ConnectionEntry ς}, m.tables.entries.lookup c = some e →
    c < m.nextConnId

namespace Consistent

theorem new : (new : ConnectionManager ς).Consistent where
  inverse   := .empty
  entered h := by simp [ConnectionManager.new, ConnectionTables.empty] at h

theorem fresh (k : m.Consistent) : m.tables.entries.lookup m.nextConnId = none := by
  by_contra h
  have ⟨_, he⟩ := Option.ne_none_iff_exists'.mp h
  exact (k.entered he).false

theorem insertConnection (k : m.Consistent) (h : m.insertConnection conn me = (r, m')) :
    m'.Consistent := by
  cases hi : m.tables.insertConnection m.nextConnId conn me
  case mk r' t =>
    simp only [ConnectionManager.insertConnection, hi, Prod.mk.injEq] at h
    obtain ⟨_, rfl⟩ := h
    constructor
    case inverse => exact k.inverse.insertConnection k.fresh hi
    case entered =>
      intro c e he
      obtain hc | he := ConnectionTables.lookup_insertConnection hi he
      case inl => exact hc ▸ Nat.lt_succ_self _
      case inr => exact Nat.lt_succ_of_lt <| k.entered he

theorem insertConnection_cases (k : m.Consistent) (h : m.insertConnection conn me = (r, m')) :
    m'.nextConnId = m.nextConnId + 1 ∧
    (((∃ e, r = .error e) ∧ m'.tables = m.tables ∧
      m.tables.isConnected conn.remotePeerId = true ∧
      ConnectionTables.keepNew me conn.remotePeerId conn.direction = false) ∨
    (r = .ok m.nextConnId ∧
      (m.tables.isConnected conn.remotePeerId = true →
        ConnectionTables.keepNew me conn.remotePeerId conn.direction = true) ∧
      m'.tables.peerIndex.lookup conn.remotePeerId = some m.nextConnId)) := by
  cases hi : m.tables.insertConnection m.nextConnId conn me
  case mk r' t =>
    simp only [ConnectionManager.insertConnection, hi, Prod.mk.injEq] at h
    obtain ⟨rfl, rfl⟩ := h
    refine ⟨rfl, ?_⟩
    obtain ⟨⟨e, he, _⟩, ht, hc, hk⟩ | ⟨hr, hk, hp, _⟩ := k.inverse.insertConnection_cases hi
    case inl => exact .inl ⟨⟨e, he⟩, ht, hc, hk⟩
    case inr => exact .inr ⟨hr, hk, by simp [hp]⟩

theorem remove (k : m.Consistent) : (m.remove c).Consistent where
  inverse := k.inverse.remove
  entered {c' e} h := by
    refine k.entered (e := e) ?_
    rw [ConnectionManager.remove, ConnectionTables.lookup_remove, Option.ite_none_left_eq_some] at h
    exact h.right

-- Removing a connection disconnects its peer exactly when it is the peer's current one.
theorem lookup_remove (k : m.Consistent) : (m.remove c).tables.peerIndex.lookup p =
    if m.tables.peerIndex.lookup p = some c then none else m.tables.peerIndex.lookup p := by
  cases he : m.tables.entries.lookup c
  case none =>
    rw [ConnectionManager.remove, ConnectionTables.remove_of_absent he, if_neg]
    intro hp
    have ⟨_, h, _⟩ := k.inverse.indexed hp
    rw [he] at h
    contradiction
  case some e =>
    simp only [ConnectionManager.remove, k.inverse.remove_of_present he, Table.lookup_erase]
    by_cases hp : p = e.connection.remotePeerId
    case pos => rw [if_pos hp, hp, if_pos (k.inverse.entered he)]
    case neg =>
      rw [if_neg hp, if_neg]
      intro hc
      have ⟨e', h, hp'⟩ := k.inverse.indexed hc
      cases he.symm.trans h
      exact hp hp'.symm

end Consistent
end ConnectionManager
end Parsip
