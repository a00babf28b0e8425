import Parsip.Protocol.Theorems.Message

-- What there is in a frame that decodes.

namespace Parsip

variable {p bs : Bytes} {n i j off off' count : Nat} {s : String}

theorem bind_eq_ok {α β : Type} {x : Outcome α} {f : α → Outcome β} {b : β} :
    (x >>= f) = .ok b ↔ ∃ a, x = .ok a ∧ f a = .ok b := by
  cases x
  case error => exact iff_of_false nofun nofun
  case ok a  => exact ⟨fun h => ⟨a, rfl, h⟩, fun ⟨_, ha, h⟩ => Except.ok.inj ha ▸ h⟩

-- A check that has been passed.
theorem guard_eq_ok {α : Type} {c : Prop} [Decidable c] {e : Fault} {x : Outcome α} {a : α} :
    (if c then .error e else x) = .ok a ↔ ¬c ∧ x = .ok a := by
  split <;> simp [*]

theorem slice_ok (h : slice p i j = .ok bs) :
    p.drop i = bs ++ p.drop j ∧ bs.length = j - i ∧ i ≤ j ∧ j ≤ p.length := by
  simp only [slice] at h
  split at h <;> cases h
  case isTrue hb =>
    have hd : p.drop j = (p.drop i).drop (j - i) := by rw [List.drop_drop, Nat.add_sub_cancel' hb.left]
    refine ⟨by rw [List.drop_take, hd, List.take_append_drop], ?_, hb⟩
    rw [List.length_drop, List.length_take, Nat.min_eq_left hb.right]

theorem toArray_ok {v : U8Array n} (h : toArray n p = .ok v) : p = v.toList := by
  simp only [toArray] at h
  split at h <;> cases h
  rfl

theorem readArray_ok {v : U8Array n} (h : readArray n p off = .ok v) :
    p.drop off = v.toList ++ p.drop (off + n) ∧ off + n ≤ p.length := by
  have ⟨bs, hs, hv⟩ := bind_eq_ok.mp h
  have ⟨hp, _, _, hl⟩ := slice_ok hs
  exact ⟨toArray_ok hv ▸ hp, hl⟩

theorem readU32_ok {x : UInt32} (h : readU32 p off = .ok x) :
    p.drop off = beBytes32 x ++ p.drop (off + 4) ∧ off + 4 ≤ p.length := by
  have ⟨v, hv, hx⟩ := bind_eq_ok.mp h
  have hb := @BigEndian.ofBytes_lt v.toList
  have ht := @BigEndian.toBytes_ofBytes v.toList
  rw [v.toList_length] at hb ht
  cases hx
  rw [beBytes32, UInt32.toNat_ofNat_of_lt' hb, ht]
  exact readArray_ok hv

theorem readU64_ok {x : UInt64} (h : readU64 p off = .ok x) :
    p.drop off = beBytes64 x ++ p.drop (off + 8) ∧ off + 8 ≤ p.length := by
  have ⟨v, hv, hx⟩ := bind_eq_ok.mp h
  have hb := @BigEndian.ofBytes_lt v.toList
  have ht := @BigEndian.toBytes_ofBytes v.toList
  rw [v.toList_length] at hb ht
  cases hx
  rw [beBytes64, UInt64.toNat_ofNat_of_lt' hb, ht]
  exact readArray_ok hv

theorem fromUtf8_some (h : fromUtf8 bs = some s) : nameBytes s = bs := by
  simp only [fromUtf8, String.fromUTF8?] at h
  split at h <;> cases h
  rfl

namespace Message

-- The number in the four bytes at `off`.
def field (p : Bytes) (off : Nat) : Nat :=
  BigEndian.ofBytes <| (p.drop off).take 4

-- Where `count` records that start at `off` end, by the lengths of their names.
def recordsEnd (p : Bytes) : Nat → Nat → Nat
  | 0, off         => off
  | count + 1, off => recordsEnd p count <| off + 36 + field p (off + 32) + 8

theorem field_eq {x : UInt32} (h : readU32 p off = .ok x) : field p off = x.toNat := by
  rw [field, (readU32_ok h).left, List.take_left' length_beBytes32]
  exact BigEndian.ofBytes_toBytes x.toNat_lt

-- A record takes as much as its name's length says.
theorem parseResource_ok {r : ResourceInfo} (h : parseResource p off = .ok (r, off')) :
    p.drop off = r.serialize ++ p.drop off' ∧ off' = off + 36 + field p (off + 32) + 8 ∧ off' ≤ p.length := by
  simp only [parseResource, guard_eq_ok, bind_eq_ok] at h
  obtain ⟨_, id, hid, _, nl, hnl, _, bs, hs, h⟩ := h
  split at h
  case h_2 => contradiction
  case h_1 name hn =>
    simp only [pure_bind, guard_eq_ok, bind_eq_ok] at h
    obtain ⟨_, size, hsize, h⟩ := h
    cases h
    have hb := fromUtf8_some hn
    obtain ⟨did, _⟩ := readArray_ok hid
    obtain ⟨dnl, _⟩ := readU32_ok hnl
    obtain ⟨dname, lname, _⟩ := slice_ok hs
    obtain ⟨dsize, lsize⟩ := readU64_ok hsize
    have hl : UInt32.ofNat bs.length = nl := by
      rw [lname, Nat.add_sub_cancel_left, UInt32.ofNat_toNat]
    refine ⟨?_, by rw [field_eq hnl], lsize⟩
    rw [did, dnl, dname, dsize, ResourceInfo.serialize, hb, hl]
    simp only [List.append_assoc]

theorem parseResources_ok {rs : List ResourceInfo} (ho : off ≤ p.length) (h : parseResources p count off = .ok rs) :
    rs.length = count ∧ p.drop off = rs.flatMap ResourceInfo.serialize ++ p.drop (recordsEnd p count off) ∧
      recordsEnd p count off ≤ p.length := by
  induction count generalizing off rs
  case zero => cases h; exact ⟨rfl, rfl, ho⟩
  case succ count hi =>
    simp only [parseResources, bind_eq_ok] at h
    obtain ⟨⟨r, off'⟩, hr, rs', hrs, h⟩ := h
    cases h
    obtain ⟨hd, he, ho'⟩ := parseResource_ok hr
    obtain ⟨hl, hd', hn⟩ := hi ho' hrs
    rw [recordsEnd, ← he]
    exact ⟨congrArg (· + 1) hl, by rw [hd, hd', List.flatMap_cons, List.append_assoc], hn⟩

end Message

namespace Frame

-- Where the last field of the payload ends. All other messages than lists fill their payload.
def fieldsEnd (f : Frame) : Nat :=
  if f.messageType = 4 then Message.recordsEnd f.payload (Message.field f.payload 4) 8 else f.payload.length

-- No byte comes after the last field.
def Exact (f : Frame) : Prop :=
  f.fieldsEnd = f.payload.length

instance : DecidablePred Exact :=
  fun _ => inferInstanceAs (Decidable (_ = _))

end Frame

namespace Message

variable {f : Frame} {m : Message}

theorem parseListResources_ok (h : parseListResources p = .ok m) : m.messageType = 3 ∧ p = m.payload := by
  simp only [parseListResources, guard_eq_ok, bind_eq_ok] at h
  obtain ⟨hl, r, hr, h⟩ := h
  cases h
  obtain ⟨hp, _⟩ := readU32_ok hr
  rw [List.drop_zero, List.drop_eq_nil_of_le (i := 0 + 4) (by omega), List.append_nil] at hp
  exact ⟨rfl, hp⟩

theorem readRequest_ok {requestId : UInt32} {id : U8Array 32} (hr : readU32 p 0 = .ok requestId)
    (hi : readArray 32 p 4 = .ok id) : p = beBytes32 requestId ++ id.toList ++ p.drop 36 := by
  have ⟨hp, _⟩ := readU32_ok hr
  have ⟨hd, _⟩ := readArray_ok hi
  rw [List.drop_zero, Nat.zero_add, hd, ← List.append_assoc] at hp
  exact hp

theorem parseDownloadResource_ok (h : parseDownloadResource p = .ok m) : m.messageType = 5 ∧ p = m.payload := by
  simp only [parseDownloadResource, guard_eq_ok, bind_eq_ok] at h
  obtain ⟨hl, r, hr, id, hi, h⟩ := h
  cases h
  have hp := readRequest_ok hr hi
  rw [List.drop_eq_nil_of_le (by omega), List.append_nil] at hp
  exact ⟨rfl, hp⟩

theorem parseResourceEnd_ok (h : parseResourceEnd p = .ok m) : m.messageType = 7 ∧ p = m.payload := by
  simp only [parseResourceEnd, guard_eq_ok, bind_eq_ok] at h
  obtain ⟨hl, r, hr, id, hi, h⟩ := h
  cases h
  have hp := readRequest_ok hr hi
  rw [List.drop_eq_nil_of_le (by omega), List.append_nil] at hp
  exact ⟨rfl, hp⟩

theorem parseResourceChunk_ok (h : parseResourceChunk p = .ok m) : m.messageType = 6 ∧ p = m.payload := by
  simp only [parseResourceChunk, guard_eq_ok, bind_eq_ok] at h
  obtain ⟨hl, r, hr, id, hi, offset, ho, data, hd, h⟩ := h
  cases h
  have hp := readRequest_ok hr hi
  obtain ⟨do', _⟩ := readU64_ok ho
  obtain ⟨dd, _⟩ := slice_ok hd
  rw [List.drop_eq_nil_of_le (Nat.le_refl _), List.append_nil] at dd
  rw [do', dd, ← List.append_assoc] at hp
  exact ⟨rfl, hp⟩

theorem parseResourceList_ok (h : parseResourceList p = .ok m) : m.messageType = 4 ∧
    p = m.payload ++ p.drop (recordsEnd p (field p 4) 8) ∧ recordsEnd p (field p 4) 8 ≤ p.length := by
  simp only [parseResourceList, guard_eq_ok, bind_eq_ok] at h
  obtain ⟨_, r, hr, hl, count, hc, _, rs, hrs, h⟩ := h
  cases h
  obtain ⟨dr, _⟩ := readU32_ok hr
  obtain ⟨dc, _⟩ := readU32_ok hc
  obtain ⟨hn, drs, he⟩ := parseResources_ok (Nat.not_lt.mp hl) hrs
  have hn : UInt32.ofNat rs.length = count := by rw [hn, UInt32.ofNat_toNat]
  rw [List.drop_zero, Nat.zero_add, dc, drs] at dr
  rw [field_eq hc, payload, hn]
  exact ⟨rfl, by simpa only [List.append_assoc] using dr, he⟩

-- What has been decoded is all there is up to the end of the last field.
theorem tryFrom_ok (h : tryFrom f = .ok m) : m.messageType = f.messageType ∧
    f.payload = m.payload ++ f.payload.drop f.fieldsEnd ∧ f.fieldsEnd ≤ f.payload.length := by
  have whole (ht : f.messageType ≠ 4) (hm : m.messageType = f.messageType) (hp : f.payload = m.payload) :
      m.messageType = f.messageType ∧ f.payload = m.payload ++ f.payload.drop f.fieldsEnd ∧
        f.fieldsEnd ≤ f.payload.length := by
    rw [Frame.fieldsEnd, if_neg ht, List.drop_length, List.append_nil]
    exact ⟨hm, hp, Nat.le_refl _⟩
  simp only [tryFrom] at h
  split at h
  case h_1 ht =>
    simp only [guard_eq_ok, bind_eq_ok] at h
    obtain ⟨hl, publicKey, hk, nonce, hn, h⟩ := h
    cases h
    obtain ⟨dk, _⟩ := readArray_ok hk
    obtain ⟨dn, _⟩ := readArray_ok hn
    rw [List.drop_zero, dn, List.drop_eq_nil_of_le (by omega), List.append_nil] at dk
    exact whole (ht ▸ by decide) ht.symm dk
  case h_2 ht =>
    simp only [guard_eq_ok, bind_eq_ok] at h
    obtain ⟨_, signature, hs, h⟩ := h
    cases h
    exact whole (ht ▸ by decide) ht.symm (toArray_ok hs)
  case h_3 ht => exact whole (ht ▸ by decide) (ht ▸ (parseListResources_ok h).left) (parseListResources_ok h).right
  case h_4 ht =>
    rw [Frame.fieldsEnd, if_pos ht, ht]
    exact parseResourceList_ok h
  case h_5 ht => exact whole (ht ▸ by decide) (ht ▸ (parseDownloadResource_ok h).left) (parseDownloadResource_ok h).right
  case h_6 ht => exact whole (ht ▸ by decide) (ht ▸ (parseResourceChunk_ok h).left) (parseResourceChunk_ok h).right
  case h_7 ht => exact whole (ht ▸ by decide) (ht ▸ (parseResourceEnd_ok h).left) (parseResourceEnd_ok h).right
  case h_8 => contradiction

theorem toFrame_eq_iff (h : tryFrom f = .ok m) : toFrame m = f ↔ f.Exact := by
  have ⟨ht, hp, hl⟩ := tryFrom_ok h
  have hf : toFrame m = f ↔ m.payload = f.payload := by
    rw [toFrame, Frame.mk.injEq]
    exact and_iff_right ht
  rw [hf, Frame.Exact]
  constructor
  case mp =>
    intro he
    rw [he, List.self_eq_append_right, List.drop_eq_nil_iff] at hp
    exact Nat.le_antisymm hl hp
  case mpr =>
    intro he
    rw [he, List.drop_length, List.append_nil] at hp
    exact hp.symm

-- Decoding is canonical exactly where nothing comes after the last record of a list.
theorem tryFrom_canonical_iff {f' : Frame} (h : tryFrom f = .ok m) (h' : tryFrom f' = .ok m) :
    (toFrame m = f ↔ f.Exact) ∧ (f.Exact → f'.Exact → f = f') := by
  refine ⟨toFrame_eq_iff h, fun he he' => ?_⟩
  rw [← (toFrame_eq_iff h).mpr he, ← (toFrame_eq_iff h').mpr he']

theorem tryFrom_canonical_iff_nil :
    (toFrame (.resourceList 1 []) = ⟨4, [0, 0, 0, 1, 0, 0, 0, 0]⟩ ↔ Frame.Exact ⟨4, [0, 0, 0, 1, 0, 0, 0, 0]⟩) ∧
      (Frame.Exact ⟨4, [0, 0, 0, 1, 0, 0, 0, 0]⟩ → Frame.Exact ⟨4, [0, 0, 0, 1, 0, 0, 0, 0, 9]⟩ →
        (⟨4, [0, 0, 0, 1, 0, 0, 0, 0]⟩ : Frame) = ⟨4, [0, 0, 0, 1, 0, 0, 0, 0, 9]⟩) :=
  tryFrom_canonical_iff (m := .resourceList 1 []) (by decide) (by decide)

-- A byte after the last record.
theorem tryFrom_trailing : tryFrom ⟨4, [0, 0, 0, 1, 0, 0, 0, 0, 9]⟩ = .ok (.resourceList 1 []) ∧
    toFrame (.resourceList 1 []) ≠ ⟨4, [0, 0, 0, 1, 0, 0, 0, 0, 9]⟩ := by
  decide

end Message
end Parsip
