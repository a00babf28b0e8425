import Parsip.Protocol.Codec
import Parsip.Protocol.Deserialize

namespace Parsip

variable {p a b : Bytes} {n i j : Nat}

@[simp]
theorem length_beBytes32 {x : UInt32} : (beBytes32 x).length = 4 :=
  BigEndian.length_toBytes

@[simp]
theorem length_beBytes64 {x : UInt64} : (beBytes64 x).length = 8 :=
  BigEndian.length_toBytes

theorem slice_eq (h : a ++ b <+: p) (hl : i = a.length)
    (hh : j = a.length + b.length) : slice p i j = .ok b := by
  have ⟨post, h⟩ := h
  subst h hl hh
  simp [slice, List.take_append]

theorem toArray_toList {v : U8Array n} : toArray n v.toList = .ok v :=
  dif_pos v.property

theorem readArray_eq {v : U8Array n} (h : a ++ v.toList <+: p) (ho : i = a.length) :
    readArray n p i = .ok v := by
  have hs : slice p i (i + n) = .ok v.toList := slice_eq h ho (by simp [ho])
  simp only [readArray, hs]
  exact toArray_toList

theorem readU32_eq {x : UInt32} (h : a ++ beBytes32 x <+: p) (ho : i = a.length) :
    readU32 p i = .ok x := by
  have hr : readArray 4 p i = .ok ⟨beBytes32 x, length_beBytes32⟩ := readArray_eq h ho
  have hx := BigEndian.ofBytes_toBytes (w := 4) x.toNat_lt
  simp only [readU32, hr]
  exact congrArg Except.ok <| (congrArg UInt32.ofNat hx).trans x.ofNat_toNat

theorem readU64_eq {x : UInt64} (h : a ++ beBytes64 x <+: p) (ho : i = a.length) :
    readU64 p i = .ok x := by
  have hr : readArray 8 p i = .ok ⟨beBytes64 x, length_beBytes64⟩ := readArray_eq h ho
  have hx := BigEndian.ofBytes_toBytes (w := 8) x.toNat_lt
  simp only [readU64, hr]
  exact congrArg Except.ok <| (congrArg UInt64.ofNat hx).trans x.ofNat_toNat

namespace ResourceInfo

variable {r : ResourceInfo} {rs : List ResourceInfo}

-- The name's length survives the narrowing to 32 bits.
def Encodable (r : ResourceInfo) : Prop :=
  (nameBytes r.name).length < 2 ^ 32

instance : DecidablePred Encodable :=
  fun r => inferInstanceAs (Decidable ((nameBytes r.name).length < 2 ^ 32))

theorem length_serialize : r.serialize.length = 44 + (nameBytes r.name).length := by
  simp [serialize]
  omega

theorem length_flatMap_serialize : 44 * rs.length ≤ (rs.flatMap serialize).length := by
  induction rs
  case nil => simp
  case cons r rs hi =>
    rw [List.flatMap_cons, List.length_append, List.length_cons, length_serialize]
    omega

end ResourceInfo

namespace Message

open ResourceInfo

theorem parseResource_serialize {r : ResourceInfo} (hr : r.Encodable)
    (h : a ++ r.serialize <+: p) (ho : i = a.length) :
    parseResource p i = .ok (r, i + r.serialize.length) := by
  have hp : a.length + (44 + (nameBytes r.name).length) ≤ p.length := by
    simpa [length_serialize] using h.length_le
  have ⟨post, h⟩ := h
  have hn : (UInt32.ofNat (nameBytes r.name).length).toNat = (nameBytes r.name).length :=
    UInt32.toNat_ofNat_of_lt' hr
  simp only [serialize] at h
  have hid := readArray_eq (p := p) (a := a) (v := r.id.bytes) (by simp [← h]) ho
  have hnl := readU32_eq (p := p) (a := a ++ r.id.bytes.toList) (i := i + 32)
    (x := .ofNat (nameBytes r.name).length) (by simp [← h]) (by simp [ho])
  have hname := slice_eq (p := p) (b := nameBytes r.name) (i := i + 32 + 4)
    (j := i + 32 + 4 + (nameBytes r.name).length)
    (a := a ++ r.id.bytes.toList ++ beBytes32 (.ofNat (nameBytes r.name).length))
    (by simp [← h]) (by simp [ho]) (by simp [ho])
  have hsize := readU64_eq (p := p) (x := r.size)
    (a := a ++ r.id.bytes.toList ++ beBytes32 (.ofNat (nameBytes r.name).length) ++
      nameBytes r.name)
    (i := i + 32 + 4 + (nameBytes r.name).length) (by simp [← h]) (by simp [ho]; omega)
  rw [parseResource, if_neg (by omega), hid]
  simp only [bind, Except.bind]
  rw [if_neg (by omega), hnl]
  simp only [hn]
  rw [if_neg (by omega), hname]
  simp only [fromUtf8_nameBytes, pure, Except.pure]
  rw [if_neg (by omega), hsize]
  simp only [length_serialize]
  congr 2
  omega

-- The loop reads back the records that start at its offset, and stops right after them.
theorem parseResources_serialize {rs : List ResourceInfo} (hr : ∀ r ∈ rs, r.Encodable)
    (h : a ++ rs.flatMap serialize <+: p) (ho : i = a.length) :
    parseResources p rs.length i = .ok rs := by
  induction rs generalizing a i
  case nil => rfl
  case cons r rs hi =>
    have ⟨post, h⟩ := h
    have h₁ := parseResource_serialize (p := p) (a := a) (hr r <| List.mem_cons_self ..)
      (by simp [← h]) ho
    have h₂ := hi (a := a ++ r.serialize) (i := i + r.serialize.length)
      (fun r' hm => hr r' <| List.mem_cons_of_mem _ hm) (by simp [← h]) (by simp [ho])
    simp only [List.length_cons, parseResources, h₁, bind, Except.bind, h₂]
    rfl

-- What the encoder can write without losing anything to a narrowing.
def Encodable : Message → Prop
  | resourceList _ resources => resources.length < 2 ^ 32 ∧ ∀ r ∈ resources, r.Encodable
  | _                        => True

theorem parseResourceList_payload {requestId : UInt32} {resources : List ResourceInfo}
    (h : Encodable (.resourceList requestId resources)) :
    parseResourceList (payload (.resourceList requestId resources)) =
      .ok (.resourceList requestId resources) := by
  have ⟨hc, hr⟩ := h
  have hn : (UInt32.ofNat resources.length).toNat = resources.length :=
    UInt32.toNat_ofNat_of_lt' hc
  have hl : 44 * resources.length ≤ (resources.flatMap serialize).length := length_flatMap_serialize
  generalize hp : payload (.resourceList requestId resources) = p
  simp only [payload] at hp
  have hlen : p.length = 8 + (resources.flatMap serialize).length := by
    rw [← hp]
    simp [-List.length_flatMap]
    omega
  have hid := readU32_eq (p := p) (a := []) (i := 0) (x := requestId) (by simp [← hp]) rfl
  have hcount := readU32_eq (p := p) (a := beBytes32 requestId) (i := 4)
    (x := .ofNat resources.length) (by simp [← hp]) (by simp)
  have hres := parseResources_serialize (p := p) (i := 8) hr
    (a := beBytes32 requestId ++ beBytes32 (.ofNat resources.length)) (by simp [← hp]) (by simp)
  rw [parseResourceList, if_neg (by omega), hid]
  simp only [bind, Except.bind]
  rw [if_neg (by omega), hcount]
  simp only [hn]
  rw [if_neg (by omega), hres]
  rfl

theorem parseListResources_payload {requestId : UInt32} :
    parseListResources (payload (.listResources requestId)) = .ok (.listResources requestId) := by
  have h := readU32_eq (p := payload (.listResources requestId)) (a := []) (i := 0)
    (x := requestId) (by simp [payload]) rfl
  have hl : (payload (.listResources requestId)).length = 4 := length_beBytes32
  rw [parseListResources, if_neg (by omega), h]
  rfl

-- The layout that `DownloadResource` and `ResourceEnd` share: a request id and a resource id.
theorem readRequest_eq (requestId : UInt32) (id : ResourceId)
    (h : beBytes32 requestId ++ id.bytes.toList <+: p) :
    readU32 p 0 = .ok requestId ∧ readArray 32 p 4 = .ok id.bytes where
  left  := readU32_eq (a := []) ((List.prefix_append ..).trans h) rfl
  right := readArray_eq h length_beBytes32.symm

theorem parseDownloadResource_payload {requestId : UInt32} {id : ResourceId} :
    parseDownloadResource (payload (.downloadResource requestId id)) =
      .ok (.downloadResource requestId id) := by
  have ⟨h₁, h₂⟩ := readRequest_eq (p := payload (.downloadResource requestId id)) _ _ List.prefix_rfl
  have hl : (payload (.downloadResource requestId id)).length = 36 := by simp [payload]
  rw [parseDownloadResource, if_neg (by omega), h₁]
  simp only [bind, Except.bind, h₂]
  rfl

theorem parseResourceEnd_payload {requestId : UInt32} {id : ResourceId} :
    parseResourceEnd (payload (.resourceEnd requestId id)) = .ok (.resourceEnd requestId id) := by
  have ⟨h₁, h₂⟩ := readRequest_eq (p := payload (.resourceEnd requestId id)) _ _ List.prefix_rfl
  have hl : (payload (.resourceEnd requestId id)).length = 36 := by simp [payload]
  rw [parseResourceEnd, if_neg (by omega), h₁]
  simp only [bind, Except.bind, h₂]
  rfl

theorem parseResourceChunk_payload {requestId : UInt32} {id : ResourceId} {offset : UInt64}
    {data : Bytes} :
    parseResourceChunk (payload (.resourceChunk requestId id offset data)) =
      .ok (.resourceChunk requestId id offset data) := by
  generalize hp : payload (.resourceChunk requestId id offset data) = p
  simp only [payload] at hp
  have hl : p.length = 44 + data.length := by
    rw [← hp]
    simp
    omega
  have ⟨h₁, h₂⟩ := readRequest_eq (p := p) requestId id (by simp [← hp])
  have h₃ := readU64_eq (p := p) (a := beBytes32 requestId ++ id.bytes.toList) (i := 36)
    (x := offset) (by simp [← hp]) (by simp)
  have h₄ := slice_eq (p := p) (a := beBytes32 requestId ++ id.bytes.toList ++ beBytes64 offset)
    (b := data) (i := 44) (j := p.length) (by simp [← hp]) (by simp) (by simp [hl])
  rw [parseResourceChunk, if_neg (by omega), h₁]
  simp only [bind, Except.bind, h₂, h₃, h₄]
  rfl

-- Decoding what was encoded gives the message back.
theorem tryFrom_toFrame_eq {m : Message} (h : m.Encodable) : tryFrom m.toFrame = .ok m := by
  cases m
  case hello publicKey nonce =>
    have h₁ := readArray_eq (p := payload (.hello publicKey nonce)) (a := []) (i := 0)
      (v := publicKey) (by simp [payload]) rfl
    have h₂ := readArray_eq (p := payload (.hello publicKey nonce)) (a := publicKey.toList)
      (i := 32) (v := nonce) (by simp [payload]) (by simp)
    have hl : (payload (.hello publicKey nonce)).length = 64 := by simp [payload]
    simp [tryFrom, toFrame, messageType, hl, h₁, h₂, bind, Except.bind, pure, Except.pure]
  case helloProof signature =>
    have hl : (payload (.helloProof signature)).length = 64 := by simp [payload]
    have h₁ : toArray 64 (payload (.helloProof signature)) = .ok signature := toArray_toList
    simp [tryFrom, toFrame, messageType, hl, h₁, bind, Except.bind, pure, Except.pure]
  case listResources    => exact parseListResources_payload
  case resourceList     => exact parseResourceList_payload h
  case downloadResource => exact parseDownloadResource_payload
  case resourceChunk    => exact parseResourceChunk_payload
  case resourceEnd      => exact parseResourceEnd_payload

-- What the guard before the loop of `parse_resource_list` looks at.
def resources : Message → List ResourceInfo
  | resourceList _ resources => resources
  | _                        => []

theorem length_resources (m : Message) : m.resources.length ≤ (m.payload.length - 8) / 44 := by
  cases m
  case resourceList _ resources =>
    have hl : 44 * resources.length ≤ (resources.flatMap serialize).length := length_flatMap_serialize
    simp only [Message.resources, payload, List.length_append, length_beBytes32]
    omega
  all_goals exact Nat.zero_le _

-- The guard lets every list pass that has been encoded.
theorem tryFrom_toFrame {m : Message} (h : m.Encodable) :
    tryFrom m.toFrame = .ok m ∧ ¬m.resources.length > (m.payload.length - 8) / 44 :=
  ⟨tryFrom_toFrame_eq h, Nat.not_lt.mpr m.length_resources⟩

theorem tryFrom_toFrame_umlaut :
    tryFrom (toFrame <| .resourceList 7 [⟨⟨.replicate 32 1⟩, "ü", 3⟩]) =
        .ok (.resourceList 7 [⟨⟨.replicate 32 1⟩, "ü", 3⟩]) ∧
      ¬[(⟨⟨.replicate 32 1⟩, "ü", 3⟩ : ResourceInfo)].length >
        ((payload <| .resourceList 7 [⟨⟨.replicate 32 1⟩, "ü", 3⟩]).length - 8) / 44 :=
  tryFrom_toFrame (m := .resourceList 7 [⟨⟨.replicate 32 1⟩, "ü", 3⟩]) ⟨by decide, by decide⟩

theorem Encodable.of_payload_lt {m : Message} (h : m.payload.length < 2 ^ 32) : m.Encodable := by
  cases m
  case resourceList _ resources =>
    simp only [payload, List.length_append, length_beBytes32] at h
    have hl : 44 * resources.length ≤ (resources.flatMap serialize).length :=
      length_flatMap_serialize
    refine ⟨by omega, fun r hr => ?_⟩
    have hs := (List.sublist_flatten_of_mem (List.mem_map_of_mem (f := serialize) hr)).length_le
    rw [length_serialize, ← List.flatMap_def] at hs
    exact Nat.lt_of_le_of_lt (by omega) h
  all_goals trivial

theorem Encodable.of_fits {m : Message} (h : m.toFrame.Fits) : m.Encodable := by
  apply of_payload_lt
  simp only [Frame.Fits, toFrame, maxFrameSize] at h
  omega

end Message
end Parsip
