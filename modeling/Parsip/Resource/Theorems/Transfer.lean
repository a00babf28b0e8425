import Parsip.Resource.Transfer

namespace Parsip

namespace Transfer

variable {t : Transfer} {now : Nat} {n : UInt64}

@[simp]
theorem progress_peerId : (t.progress now n).fst.peerId = t.peerId := by
  simp only [progress]
  split <;> rfl

@[simp]
theorem progress_resourceId : (t.progress now n).fst.resourceId = t.resourceId := by
  simp only [progress]
  split <;> rfl

@[simp]
theorem progress_bytesTransferred : (t.progress now n).fst.bytesTransferred = t.bytesTransferred + n := by
  simp only [progress]
  split <;> rfl

-- The time of a report is progress, too.
theorem progress_eq_self : (t.progress now n).fst = t ↔ n = 0 ∧ now ≤ t.lastReportTime + 200 := by
  have hn : t.bytesTransferred + n = t.bytesTransferred ↔ n = 0 := UInt64.add_eq_left
  simp only [progress]
  split
  case isTrue h =>
    constructor
    case mp =>
      intro he
      have := congrArg lastReportTime he
      simp only at this
      omega
    case mpr => intro ⟨_, h'⟩; omega
  case isFalse h =>
    constructor
    case mp  => exact fun he => ⟨hn.mp <| congrArg bytesTransferred he, by omega⟩
    case mpr => intro ⟨h', _⟩; rw [hn.mpr h']

end Transfer

namespace TransferManager

variable {m m' : TransferManager} {t : Transfer} {ts : List Transfer} {r r' : UInt32} {p : PeerId}
variable {ids : List UInt32} {now : Nat} {n : UInt64}

@[simp]
theorem register_lookup : (m.register t).transfers.lookup r =
    if r = t.requestId then some t else m.transfers.lookup r :=
  Table.lookup_insert

@[simp]
theorem complete_lookup : (m.complete r').fst.transfers.lookup r =
    if r = r' then none else m.transfers.lookup r :=
  Table.lookup_erase

@[simp] theorem complete_snd : (m.complete r).snd = m.transfers.lookup r := rfl

-- One entry makes progress, the others stay as they are.
theorem updateProgress_lookup : (m.updateProgress now r' n).fst.transfers.lookup r =
    if r = r' then (m.transfers.lookup r).map (·.progress now n |>.fst) else m.transfers.lookup r := by
  simp only [updateProgress]
  split
  case h_2 hn =>
    split
    case isTrue h  => rw [h, hn]; rfl
    case isFalse h => rfl
  case h_1 t ht =>
    have hk : (t.progress now n).fst.requestId = r' := by
      rw [← m.keyed ht, Transfer.progress]
      split <;> rfl
    rw [register_lookup, hk]
    split
    case isTrue h  => rw [h, ht]; rfl
    case isFalse h => rfl

-- A report is due when the last one is more than 200 milliseconds ago.
theorem updateProgress_snd : (∃ report, (m.updateProgress now r n).snd = some report) ↔
    ∃ t, m.transfers.lookup r = some t ∧ now - t.lastReportTime > 200 := by
  simp only [updateProgress]
  split
  case h_2 hn => simp [hn]
  case h_1 t ht =>
    simp only [Transfer.progress, ht]
    split <;> simp [*]

theorem completeAll_lookup : (m.completeAll ids).fst.transfers.lookup r =
    if r ∈ ids then none else m.transfers.lookup r := by
  induction ids generalizing m
  case nil => simp [completeAll]
  case cons id ids hi =>
    rw [completeAll, hi, complete_lookup]
    simp only [List.mem_cons]
    split <;> split <;> simp_all

theorem mem_requests : r ∈ (m.transfers.values.filter (·.peerId = p)).map (·.requestId) ↔
    ∃ t, m.transfers.lookup r = some t ∧ t.peerId = p := by
  simp only [List.mem_map, List.mem_filter, Table.mem_values, decide_eq_true_eq]
  constructor
  case mp  => intro ⟨t, ⟨⟨r', h⟩, hp⟩, hr⟩; exact ⟨t, hr ▸ m.keyed h ▸ h, hp⟩
  case mpr => intro ⟨t, h, hp⟩; exact ⟨t, ⟨⟨r, h⟩, hp⟩, m.keyed h⟩

-- The entries of a peer are exactly those that leave.
theorem cancelForPeer_lookup : (m.cancelForPeer p).fst.transfers.lookup r =
    (m.transfers.lookup r).filter (·.peerId ≠ p) := by
  simp only [cancelForPeer, completeAll_lookup, mem_requests]
  cases m.transfers.lookup r
  case none => simp
  case some t => by_cases h : t.peerId = p <;> simp [Option.filter, h]

-- Without an entry of the peer nothing leaves.
theorem cancelForPeer_of_none (h : ∀ {r t}, m.transfers.lookup r = some t → t.peerId ≠ p) :
    m.cancelForPeer p = (m, []) := by
  have hn : (m.transfers.values.filter (·.peerId = p)).map (·.requestId) = [] := by
    refine List.eq_nil_iff_forall_not_mem.mpr fun r hr => ?_
    have ⟨_, ht, hp⟩ := mem_requests.mp hr
    exact h ht hp
  rw [cancelForPeer, hn, completeAll]

theorem mem_completeAll (h : t ∈ (m.completeAll ids).snd) :
    m.transfers.lookup t.requestId = some t ∧ t.requestId ∈ ids := by
  induction ids generalizing m
  case nil => simp [completeAll] at h
  case cons id ids hi =>
    rw [completeAll, List.mem_append] at h
    cases h
    case inl h =>
      have h : m.transfers.lookup id = some t := by simpa using h
      exact ⟨m.keyed h ▸ h, m.keyed h ▸ List.mem_cons_self ..⟩
    case inr h =>
      have ⟨h, hm⟩ := hi h
      rw [complete_lookup, Option.ite_none_left_eq_some] at h
      exact ⟨h.right, List.mem_cons_of_mem _ hm⟩

theorem mem_completeAll_of_lookup (h : m.transfers.lookup r = some t) (hr : r ∈ ids) :
    t ∈ (m.completeAll ids).snd := by
  induction ids generalizing m
  case nil => contradiction
  case cons id ids hi =>
    rw [completeAll, List.mem_append]
    by_cases hd : r = id
    case pos => exact .inl <| by simp [← hd, h]
    case neg => exact .inr <| hi (by simp [h, hd]) ((List.mem_cons.mp hr).resolve_left hd)

-- What leaves is handed to the caller.
theorem mem_cancelForPeer : t ∈ (m.cancelForPeer p).snd ↔
    m.transfers.lookup t.requestId = some t ∧ t.peerId = p := by
  constructor
  case mp =>
    intro h
    have ⟨hl, hm⟩ := mem_completeAll h
    have ⟨t', ht, hp⟩ := mem_requests.mp hm
    exact ⟨hl, Option.some.inj (hl.symm.trans ht) ▸ hp⟩
  case mpr => exact fun ⟨h, hp⟩ => mem_completeAll_of_lookup h <| mem_requests.mpr ⟨t, h, hp⟩

end TransferManager
end Parsip
