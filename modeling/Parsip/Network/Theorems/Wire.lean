import Parsip.Network.Wire
import Parsip.Protocol.Theorems.Codec

namespace Parsip.Wire

open HandOff (encode)

variable {w w' : Wire} {m : Message} {out : Option Message} {ms : List Message} {t : Turn}

-- The messages underway: the bytes of those that the writer thread has taken are in the stream.
def Carries (w : Wire) (ms : List Message) : Prop :=
  ∃ taken, ms = taken ++ w.queue ∧ w.pipe.Carries encode taken ∧ ∀ m ∈ taken, m.toFrame.Fits

namespace Carries

theorem empty : Wire.empty.Carries [] :=
  ⟨[], rfl, .empty, nofun⟩

theorem send (c : w.Carries ms) : (w.send m).Carries (ms ++ [m]) := by
  obtain ⟨taken, rfl, hc, hf⟩ := c
  exact ⟨taken, List.append_assoc .., hc, hf⟩

theorem take {queue : List Message} (c : w.Carries ms) (hu : w.pipe.unsent = []) (hq : w.queue = m :: queue)
    (hm : m.toFrame.Fits) : Carries { queue, pipe := { w.pipe with unsent := encode m } } ms := by
  obtain ⟨taken, rfl, hc, hf⟩ := c
  refine ⟨taken ++ [m], by simp [hq], hc.load hu, fun m' hm' => ?_⟩
  obtain hm' | hm' := List.mem_append.mp hm'
  case inl => exact hf m' hm'
  case inr => exact List.mem_singleton.mp hm' ▸ hm

theorem eq_nil (c : Wire.empty.Carries ms) : ms = [] := by
  obtain ⟨taken, rfl, hc, -⟩ := c
  have he : taken.flatMap encode = [] := hc.symm
  cases taken
  case nil => rfl
  case cons m taken =>
    have hm : encode m = [] := (List.append_eq_nil_iff.mp he).left
    simp [encode, LengthPrefixCodec.encode] at hm

-- When the read loop's `decode` can return, the next message is there, and `decode` returns it.
theorem decode (c : w.Carries ms) (hn : LengthPrefixCodec.needs w.pipe.taken = 0) : ∃ m rest ms',
    ms = m :: ms' ∧ m.toFrame.Fits ∧ LengthPrefixCodec.decode w.pipe.taken none = (.ok (some m.toFrame), rest) ∧
      Carries { w with pipe := { w.pipe with taken := rest } } ms' := by
  obtain ⟨taken, rfl, hc, hf⟩ := c
  have he : w.pipe.content = taken.flatMap encode := hc
  have hp : w.pipe.taken <+: taken.flatMap encode := he ▸ Pipe.taken_isPrefix
  cases taken
  case nil =>
    have ht : w.pipe.taken = [] := List.prefix_nil.mp hp
    rw [ht] at hn
    contradiction
  case cons m taken =>
    have hm := hf m (List.mem_cons_self ..)
    rw [List.flatMap_cons] at hp
    have ⟨rest, hr⟩ := LengthPrefixCodec.encode_prefix_of_needs hm hp hn
    refine ⟨m, rest, taken ++ w.queue, rfl, hm, hr ▸ LengthPrefixCodec.decode_encode hm, taken, rfl,
      hc.consume hr.symm, ?_⟩
    exact fun m' hm' => hf m' (List.mem_cons_of_mem _ hm')

end Carries

theorem fifo : channel.Fifo Carries where
  empty  := .empty
  send c := c.send
  move {w ms t w' out} c h := by
    cases t <;> simp only [channel, turn] at h
    case take =>
      split at h
      case h_2 => contradiction
      case h_1 hu hq =>
        split at h <;> cases h
        case isTrue hm => exact ⟨ms, rfl, c.take hu hq hm⟩
    case move m =>
      have ⟨pipe, hm, h⟩ := Option.map_eq_some_iff.mp h
      obtain ⟨taken, rfl, hc, hf⟩ := c
      cases h
      exact ⟨_, rfl, taken, rfl, hc.move hm, hf⟩
    case decode =>
      split at h
      case isFalse => contradiction
      case isTrue hn =>
        have ⟨m, rest, ms', hm, hf, hd, c⟩ := c.decode hn
        have ht := Message.tryFrom_toFrame_eq <| Message.Encodable.of_fits hf
        rw [hd] at h
        simp only [readTurn, ht] at h
        split at h <;> cases h
        case h_1 hr =>
          split at hr <;> cases hr
          exact ⟨ms', hm, c⟩

end Parsip.Wire
