import Parsip.Library.Exits
import Parsip.Protocol.Codec
import Parsip.Protocol.Machine

-- Parsing is safe, whatever comes from the peer.

namespace Parsip.Machine

open Transition

variable {p : Bytes} {off n : Nat} {l l' : ListLoop} {f : Frame}

-- No panic.
abbrev Clean (e : Fault) : Prop :=
  e ≠ .panic

theorem add_eq {a b : Nat} (h : a + b < 2 ^ 64) : add a b = .ok (a + b) :=
  if_pos h

theorem sub_eq {a b : Nat} (h : b ≤ a) : sub a b = .ok (a - b) :=
  if_pos h

theorem slice_exits {lo hi : Nat} (h₁ : lo ≤ hi) (h₂ : hi ≤ p.length) :
    Exits (slice p lo hi) (fun bs => bs.length = hi - lo) Clean := by
  rw [slice, if_pos ⟨h₁, h₂⟩]
  show List.length _ = _
  rw [List.length_drop, List.length_take, Nat.min_eq_left h₂]

theorem toArray_exits {bs : Bytes} (h : bs.length = n) : Exits (toArray n bs) (fun _ => True) Clean := by
  rw [toArray, dif_pos h]
  trivial

theorem readArray_exits (h : off + n ≤ p.length) (hp : p.length < 2 ^ 64) :
    Exits (readArray n p off) (fun _ => True) Clean := by
  rw [readArray, add_eq (by omega)]
  exact (slice_exits (Nat.le_add_right ..) h).bind fun hl => toArray_exits (by omega)

theorem readU32_exits (h : off + 4 ≤ p.length) (hp : p.length < 2 ^ 64) :
    Exits (readU32 p off) (fun _ => True) Clean :=
  (readArray_exits h hp).bind fun _ => trivial

theorem readU64_exits (h : off + 8 ≤ p.length) (hp : p.length < 2 ^ 64) :
    Exits (readU64 p off) (fun _ => True) Clean :=
  (readArray_exits h hp).bind fun _ => trivial

theorem readName_exits (h : off + n ≤ p.length) (hp : p.length < 2 ^ 64) :
    Exits (readName p off n) (fun _ => True) Clean := by
  rw [readName, add_eq (by omega)]
  refine (slice_exits (Nat.le_add_right ..) h).bind fun {bs} _ => ?_
  cases fromUtf8 bs
  case none => exact nofun
  case some => trivial

theorem check_exits (h : off + n < 2 ^ 64) :
    Exits (check p off n) (fun _ => off + n ≤ p.length) Clean := by
  rw [check, add_eq h]
  by_cases hn : off + n > p.length
  case pos => simp [bind, Except.bind, hn, Exits, invalid]
  case neg =>
    simp only [bind, Except.bind, hn, if_false]
    exact Nat.not_lt.mp hn

-- A turn of the loop leaves the offset inside of the payload.
theorem parseResource_exits (h : off ≤ p.length) (hp : p.length ≤ maxFrameSize) :
    Exits (parseResource p off) (fun r => r.snd ≤ p.length) Clean := by
  have hm : maxFrameSize = 16777216 := rfl
  have hp' : p.length < 2 ^ 64 := by omega
  unfold parseResource
  refine (check_exits (by omega)).bind fun h₁ => ?_
  refine (readArray_exits h₁ hp').bind fun _ => ?_
  rw [add_eq (by omega)]
  refine (check_exits (by omega)).bind fun h₂ => ?_
  refine (readU32_exits h₂ hp').bind fun {nl} _ => ?_
  have hn := nl.toNat_lt
  rw [add_eq (by omega)]
  refine (check_exits (by omega)).bind fun h₃ => ?_
  refine (readName_exits h₃ hp').bind fun _ => ?_
  rw [add_eq (by omega)]
  refine (check_exits (by omega)).bind fun h₄ => ?_
  refine (readU64_exits h₄ hp').bind fun _ => ?_
  rw [add_eq (by omega)]
  exact h₄

-- There is room for as many records as the vector is made for.
structure Started (p : Bytes) (l : ListLoop) : Prop where
  off       : l.off ≤ p.length
  capacity  : l.capacity ≤ (p.length - 8) / 44
  remaining : l.remaining = l.capacity

theorem start_exits (hp : p.length ≤ maxFrameSize) : Exits (start p) (Started p) Clean := by
  have hm : maxFrameSize = 16777216 := rfl
  have hp' : p.length < 2 ^ 64 := by omega
  unfold start
  refine (check_exits (by omega)).bind fun h₁ => ?_
  refine (readU32_exits h₁ hp').bind fun _ => ?_
  rw [add_eq (by omega)]
  refine (check_exits (by omega)).bind fun h₂ => ?_
  refine (readU32_exits h₂ hp').bind fun {count} _ => ?_
  rw [add_eq (by omega)]
  show Exits (sub p.length (0 + 4 + 4) >>= _) _ _
  rw [sub_eq h₂]
  show Exits (if count.toNat > (p.length - (0 + 4 + 4)) / 44 then _ else _) _ _
  split
  case isTrue     => exact nofun
  case isFalse hc => exact ⟨h₂, Nat.not_lt.mp hc, rfl⟩

theorem readArray_eq (h : off + n < 2 ^ 64) : readArray n p off = Parsip.readArray n p off := by
  rw [readArray, add_eq h]
  rfl

theorem readU32_eq (h : off + 4 < 2 ^ 64) : readU32 p off = Parsip.readU32 p off := by
  rw [readU32, readArray_eq h]
  rfl

theorem readU64_eq (h : off + 8 < 2 ^ 64) : readU64 p off = Parsip.readU64 p off := by
  rw [readU64, readArray_eq h]
  rfl

theorem check_bind {α : Type} {f : Unit → Outcome α} (h : off + n < 2 ^ 64) : (check p off n >>= f) =
    if off + n > p.length then .error (invalid "Bad List") else f () := by
  rw [check, add_eq h]
  by_cases hn : off + n > p.length <;> simp [bind, Except.bind, pure, Except.pure, hn]

-- As long as nothing overflows, the machine computes what the numbers say.
theorem parseResource_eq (h : off ≤ p.length) (hp : p.length ≤ maxFrameSize) :
    parseResource p off = Message.parseResource p off := by
  have hm : maxFrameSize = 16777216 := rfl
  rw [parseResource, check_bind (by omega), Message.parseResource]
  refine ite_congr rfl (fun _ => rfl) fun h₁ => ?_
  rw [readArray_eq (by omega)]
  refine bind_congr fun id => ?_
  rw [add_eq (by omega)]
  show (check p (off + 32) 4 >>= _) = _
  rw [check_bind (by omega)]
  refine ite_congr rfl (fun _ => rfl) fun h₂ => ?_
  rw [readU32_eq (by omega)]
  refine bind_congr fun nl => ?_
  have hn := nl.toNat_lt
  rw [add_eq (by omega)]
  show (check p (off + 32 + 4) nl.toNat >>= _) = _
  rw [check_bind (by omega)]
  refine ite_congr rfl (fun _ => rfl) fun h₃ => ?_
  rw [readName, add_eq (by omega)]
  show ((slice p (off + 32 + 4) (off + 32 + 4 + nl.toNat) >>= _) >>= _) = _
  rw [bind_assoc]
  refine bind_congr fun bs => ?_
  cases fromUtf8 bs
  case none => rfl
  case some name =>
    show (check p (off + 32 + 4 + nl.toNat) 8 >>= _) = ite _ _ _
    rw [check_bind (by omega)]
    refine ite_congr rfl (fun _ => rfl) fun h₄ => ?_
    rw [readU64_eq (by omega)]
    refine bind_congr fun size => ?_
    rw [add_eq (by omega)]
    rfl

theorem turn_exits (h : l.off ≤ p.length) (hp : p.length ≤ maxFrameSize) : Exits (l.turn p)
    (fun l' => l'.off ≤ p.length ∧ l'.capacity = l.capacity ∧ l'.remaining = l.remaining - 1) Clean :=
  (parseResource_exits h hp).bind fun ho => ⟨ho, rfl, rfl⟩

theorem turns_exits (h : l.off ≤ p.length) (hp : p.length ≤ maxFrameSize) :
    Exits (turns p n l) (fun _ => True) Clean := by
  induction n generalizing l
  case zero => trivial
  case succ n hi => exact (turn_exits h hp).bind fun ht => hi ht.left

theorem parseResourceList_exits (hp : p.length ≤ maxFrameSize) :
    Exits (parseResourceList p) (fun _ => True) Clean :=
  (start_exits hp).bind fun hs => (turns_exits hs.off hp).bind fun _ => trivial

theorem turns_eq (h : l.off ≤ p.length) (hp : p.length ≤ maxFrameSize) :
    (turns p n l >>= fun l => pure (Message.resourceList l.requestId l.resources)) =
      Message.parseResources p n l.off >>= fun rs => pure (.resourceList l.requestId (l.resources ++ rs)) := by
  induction n generalizing l
  case zero => simp [turns, Message.parseResources, bind, Except.bind]
  case succ n hi =>
    rw [turns, ListLoop.turn, Message.parseResources, ← parseResource_eq h hp]
    simp only [bind_assoc, pure_bind]
    refine (parseResource_exits h hp).bind_congr fun {r} hr => ?_
    rw [hi hr]
    simp

theorem parseResourceList_eq (hp : p.length ≤ maxFrameSize) :
    parseResourceList p = Message.parseResourceList p := by
  have hm : maxFrameSize = 16777216 := rfl
  have hl : parseResourceList p = start p >>= fun l =>
      Message.parseResources p l.remaining l.off >>= fun rs => pure (.resourceList l.requestId (l.resources ++ rs)) :=
    (start_exits hp).bind_congr fun hs => turns_eq hs.off hp
  rw [hl, start, Message.parseResourceList]
  simp only [bind_assoc]
  rw [check_bind (by omega)]
  refine ite_congr rfl (fun _ => rfl) fun h₁ => ?_
  rw [readU32_eq (by omega)]
  refine bind_congr fun requestId => ?_
  rw [add_eq (by omega)]
  show (check p 4 4 >>= _) = _
  rw [check_bind (by omega)]
  refine ite_congr rfl (fun _ => rfl) fun h₂ => ?_
  rw [readU32_eq (by omega)]
  refine bind_congr fun count => ?_
  rw [add_eq (by omega)]
  show (sub p.length 8 >>= _) = _
  rw [sub_eq (by omega)]
  by_cases hc : count.toNat > (p.length - 8) / 44
  case pos => simp only [bind, Except.bind, hc, if_true]
  case neg =>
    simp only [bind, Except.bind, hc, if_false]
    rfl

theorem tryFrom_eq (hp : f.payload.length ≤ maxFrameSize) : tryFrom f = Message.tryFrom f := by
  rw [tryFrom]
  split
  case isFalse => rfl
  case isTrue h =>
    rw [parseResourceList_eq hp]
    simp only [Message.tryFrom, h]

section

variable (h : p.length < 2 ^ 64)
include h

theorem fixedArray_exits (hn : off + n ≤ p.length) : Exits (Parsip.readArray n p off) (fun _ => True) Clean :=
  @readArray_eq p off n (by omega) ▸ readArray_exits hn h

theorem fixedU32_exits (hn : off + 4 ≤ p.length) : Exits (Parsip.readU32 p off) (fun _ => True) Clean :=
  @readU32_eq p off (by omega) ▸ readU32_exits hn h

theorem fixedU64_exits (hn : off + 8 ≤ p.length) : Exits (Parsip.readU64 p off) (fun _ => True) Clean :=
  @readU64_eq p off (by omega) ▸ readU64_exits hn h

theorem parseListResources_exits : Exits (Message.parseListResources p) (fun _ => True) Clean :=
  .guard nofun fun hl => (fixedU32_exits h (by omega)).bind fun _ => trivial

theorem parseDownloadResource_exits : Exits (Message.parseDownloadResource p) (fun _ => True) Clean :=
  .guard nofun fun hl => (fixedU32_exits h (by omega)).bind fun _ =>
    (fixedArray_exits h (by omega)).bind fun _ => trivial

theorem parseResourceEnd_exits : Exits (Message.parseResourceEnd p) (fun _ => True) Clean :=
  .guard nofun fun hl => (fixedU32_exits h (by omega)).bind fun _ =>
    (fixedArray_exits h (by omega)).bind fun _ => trivial

theorem parseResourceChunk_exits : Exits (Message.parseResourceChunk p) (fun _ => True) Clean :=
  .guard nofun fun hl => (fixedU32_exits h (by omega)).bind fun _ =>
    (fixedArray_exits h (by omega)).bind fun _ => (fixedU64_exits h (by omega)).bind fun _ =>
      (slice_exits (by omega) (Nat.le_refl _)).bind fun _ => trivial

end

theorem tryFrom_exits (hp : f.payload.length ≤ maxFrameSize) : Exits (tryFrom f) (fun _ => True) Clean := by
  have hm : maxFrameSize = 16777216 := rfl
  have h : f.payload.length < 2 ^ 64 := by omega
  rw [tryFrom]
  split
  case isTrue => exact parseResourceList_exits hp
  case isFalse h4 =>
    simp only [Message.tryFrom]
    split
    case h_1 =>
      exact .guard nofun fun hl => (fixedArray_exits h (by omega)).bind fun _ =>
        (fixedArray_exits h (by omega)).bind fun _ => trivial
    case h_2 => exact .guard nofun fun hl => (toArray_exits (by omega)).bind fun _ => trivial
    case h_3 => exact parseListResources_exits h
    case h_4 => contradiction
    case h_5 => exact parseDownloadResource_exits h
    case h_6 => exact parseResourceChunk_exits h
    case h_7 => exact parseResourceEnd_exits h
    case h_8 => exact nofun

theorem message_ne_panic (hp : f.payload.length ≤ maxFrameSize) : Message.tryFrom f ≠ .error .panic :=
  tryFrom_eq hp ▸ (tryFrom_exits hp).ne_error (· rfl)

-- Parsing never panics, and does what the parser without limits does. The loop takes as many turns as
-- the vector has room for, and its offset stays inside of the payload.
theorem parsing_safe (hp : f.payload.length ≤ maxFrameSize) :
    tryFrom f ≠ .error .panic ∧ tryFrom f = Message.tryFrom f ∧
    ∀ l₀, start f.payload = .ok l₀ → l₀.capacity ≤ (f.payload.length - 8) / 44 ∧
      ∀ ls l, Run (system f.payload) l₀ ls l →
        ls.length ≤ (f.payload.length - 8) / 44 ∧ l.off ≤ f.payload.length ∧ l.turn f.payload ≠ .error .panic := by
  refine ⟨(tryFrom_exits hp).ne_error (· rfl), tryFrom_eq hp, fun l₀ h => ?_⟩
  have hs := (start_exits hp).of_ok h
  refine ⟨hs.capacity, fun ls l r => ?_⟩
  have step {l u l'} (hl : l.off ≤ f.payload.length) (h : (system f.payload).step l u l') :
      l'.off ≤ f.payload.length ∧ l'.remaining < l.remaining := by
    have ⟨ho, _, hr⟩ := (turn_exits hl hp).of_ok h.right
    have := h.left
    exact ⟨ho, by omega⟩
  have ho := r.preserves (P := (·.off ≤ f.payload.length)) (fun _ hl h => (step hl h).left) hs.off
  refine ⟨?_, ho, (turn_exits ho hp).ne_error (· rfl)⟩
  calc ls.length ≤ l₀.remaining := r.length_le (P := (·.off ≤ f.payload.length)) step hs.off
    _ = l₀.capacity             := hs.remaining
    _ ≤ _                       := hs.capacity

-- A list that announces as many resources as there are numbers, and holds none.
def greedy : Frame where
  messageType := 4
  payload := [0, 0, 0, 1, 255, 255, 255, 255]

theorem parsing_safe_greedy : tryFrom greedy ≠ .error .panic :=
  (parsing_safe (by decide)).left

end Parsip.Machine
