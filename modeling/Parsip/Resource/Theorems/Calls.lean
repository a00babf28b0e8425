import Parsip.Resource.Calls
import Parsip.Resource.Theorems.Download

-- Nothing that has been accepted is lost in silence.

namespace Parsip

open Transition

namespace Write

variable {cs cs' : List Write} {p p' : Disk × FileHandle} {bs : Bytes}

-- What has gone through a file handle.
def written (cs : List Write) : Bytes :=
  cs.flatMap through

def Unfailed (cs : List Write) : Prop :=
  ∀ c ∈ cs, c.fault = none

@[simp] theorem written_nil : written [] = [] := rfl
@[simp] theorem written_append : written (cs ++ cs') = written cs ++ written cs' := List.flatMap_append
@[simp] theorem written_single {c : Write} : written [c] = c.through := List.append_nil _

theorem Unfailed.nil : Unfailed [] :=
  nofun

theorem Unfailed.append (h : Unfailed cs) (h' : Unfailed cs') : Unfailed (cs ++ cs') := by
  intro c hc
  obtain hc | hc := List.mem_append.mp hc
  case inl => exact h c hc
  case inr => exact h' c hc

theorem Unfailed.of_append (h : Unfailed (cs ++ cs')) : Unfailed cs :=
  fun c hc => h c <| List.mem_append_left _ hc

theorem Unfailed.not_single {c : Write} {f : WriteFault} (h : c.fault = some f) : ¬Unfailed [c] := by
  intro hu
  rw [hu c (List.mem_singleton.mpr rfl)] at h
  contradiction

-- The handle is where it was, behind what has gone through it.
theorem perform_handle (h : cs.foldl perform p = p') : p'.snd = { p.snd with pos := p.snd.pos + (written cs).length } := by
  induction cs generalizing p
  case nil => cases h; rfl
  case cons c cs hi =>
    rw [hi h, perform, FileSystem.write, written, written, List.flatMap_cons, List.length_append, Nat.add_assoc]

-- A handle at the end of its file adds to that what goes through it, and to nothing else.
theorem perform_spec (h : cs.foldl perform p = p') (e : p.fst.AtEnd p.snd) :
    p'.fst.AtEnd p'.snd ∧ p'.fst.content p'.snd.inode = p.fst.content p.snd.inode ++ written cs := by
  induction cs generalizing p
  case nil => cases h; exact ⟨e, (List.append_nil _).symm⟩
  case cons c cs hi =>
    have ⟨e', hc⟩ := hi h e.write
    refine ⟨e', ?_⟩
    rw [hc, perform, FileSystem.write_inode, e.write_content, List.append_assoc]
    rfl

end Write

namespace Writer

open Write

variable {w w' : Writer} {fs fs' : Disk} {result : Except Error Unit} {fault : Option WriteFault}
variable {faults : WriteFaults} {data : Bytes}

theorem disk_writeAll : (fs.writeAll w.file data fault).snd = perform (fs, w.file) ⟨data, fault⟩ := by
  cases fault <;> rfl

-- What a part of the thread hands to its file is all that it does to the disk.
def Performs (fs : Disk) (w : Writer) (cs : List Write) (fs' : Disk) (w' : Writer) : Prop :=
  cs.foldl perform (fs, w.file) = (fs', w'.file)

theorem flush_performs (h : w.flush fs fault = (result, w', fs')) : Performs fs w (w.flushWrites fault) fs' w' := by
  simp only [flush] at h
  split at h <;> cases h
  case isTrue hb  => simp [Performs, flushWrites, hb]
  case isFalse hb => simp [Performs, flushWrites, hb, ← disk_writeAll]

theorem makeRoom_performs (h : w.makeRoom fs data fault = (result, w', fs')) :
    Performs fs w (w.makeRoomWrites data fault) fs' w' := by
  simp only [makeRoom] at h
  split at h
  case isTrue hc  => simpa [makeRoomWrites, hc] using flush_performs h
  case isFalse hc => cases h; simp [Performs, makeRoomWrites, hc]

theorem writeAll_performs (h : w.writeAll fs data faults = (result, w', fs')) :
    Performs fs w (w.writeAllWrites fs data faults) fs' w' := by
  simp only [writeAll] at h
  split at h
  case isTrue hc  => cases h; simp [Performs, writeAllWrites, hc]
  case isFalse hc =>
    split at h
    case h_1 hm =>
      cases h
      simpa [writeAllWrites, hc, hm] using makeRoom_performs hm
    case h_2 hm =>
      have hp := makeRoom_performs hm
      split at h <;> cases h
      case isTrue hd  => simp only [Performs, writeAllWrites, hc, hm, hd, if_true, if_false, List.foldl_append] at hp ⊢; rw [hp]; exact disk_writeAll.symm
      case isFalse hd => simpa [Performs, writeAllWrites, hc, hm, hd] using hp

theorem leave_performs {cs : List Write} {w₁ : Writer} {fs₁ : Disk} (h : Performs fs w cs fs₁ w₁) :
    Performs fs w (cs ++ w₁.flushWrites fault) (w₁.leave fs₁ result fault).snd (w₁.leave fs₁ result fault).fst := by
  cases hf : w₁.flush fs₁ fault
  case mk r p =>
    have hp := flush_performs hf
    rw [Performs, List.foldl_append, h]
    simp only [Performs] at hp
    simp only [leave, hf, hp]

theorem turn_performs (h : w.turn fs faults = some (w', fs')) : Performs fs w (w.turnWrites fs faults) fs' w' := by
  simp only [turn] at h
  split at h
  case h_1 => contradiction
  case h_2 data queue hx hq =>
    split at h <;> cases h
    case h_1 hw =>
      have hp := writeAll_performs hw
      simp only [turnWrites, hx, hq] at hp ⊢
      simp only [hx] at hw
      simp only [hw]
      exact hp
    case h_2 hw =>
      have hp := writeAll_performs hw
      simp only [turnWrites, hx, hq] at hp ⊢
      simp only [hx] at hw
      simp only [hw]
      exact leave_performs hp
  case h_3 queue hx hq =>
    cases hf : flush { w with queue } fs faults.flush
    case mk r p =>
      have hp := flush_performs hf
      simp only [hx] at hf
      simp only [Option.some.injEq, Prod.ext_iff] at h
      obtain ⟨rfl, rfl⟩ := h
      simp only [turnWrites, hx, hq, hf]
      exact leave_performs hp
  case h_4 hx hq =>
    split at h
    case isTrue     => contradiction
    case isFalse hc =>
      have hp := @leave_performs w fs (.ok ()) faults.drop [] w fs rfl
      rw [Option.some.inj h] at hp
      simpa [turnWrites, hx, hq, hc] using hp

-- What leaves the buffer has gone through the handle.
theorem flush_accounts (h : w.flush fs fault = (result, w', fs')) :
    written (w.flushWrites fault) ++ w'.buffer = w.buffer ∧
      (result = .ok () → Unfailed (w.flushWrites fault) ∧ w'.buffer = []) := by
  simp only [flush] at h
  split at h
  case isTrue hb => cases h; simp [flushWrites, hb, Unfailed]
  case isFalse hb =>
    cases fault
    case none => cases h; simp [flushWrites, hb, through, Unfailed]
    case some =>
      cases h
      simp only [flushWrites, hb, if_false, written_single, through, Option.elim_some, List.take_append_drop, true_and]
      intro hr
      cases hr

theorem makeRoom_accounts (h : w.makeRoom fs data fault = (result, w', fs')) :
    written (w.makeRoomWrites data fault) ++ w'.buffer = w.buffer ∧
      (result = .ok () → Unfailed (w.makeRoomWrites data fault) ∧ (capacity ≤ data.length → w'.buffer = [])) := by
  simp only [makeRoom] at h
  simp only [makeRoomWrites]
  split at h
  case isTrue hc =>
    obtain ⟨hw, hr⟩ := flush_accounts h
    rw [if_pos hc]
    exact ⟨hw, fun h => ⟨(hr h).left, fun _ => (hr h).right⟩⟩
  case isFalse hc =>
    cases h
    rw [if_neg hc]
    exact ⟨rfl, fun _ => ⟨.nil, fun hd => List.length_eq_zero_iff.mp <| by omega⟩⟩

theorem writeAll_accounts (h : w.writeAll fs data faults = (.ok (), w', fs')) :
    Unfailed (w.writeAllWrites fs data faults) ∧
      written (w.writeAllWrites fs data faults) ++ w'.buffer = w.buffer ++ data := by
  simp only [writeAll] at h
  simp only [writeAllWrites]
  split at h
  case isTrue hc =>
    cases h
    rw [if_pos hc]
    exact ⟨.nil, rfl⟩
  case isFalse hc =>
    rw [if_neg hc]
    cases hm : w.makeRoom fs data faults.flush
    case mk result p =>
      obtain ⟨w₁, fs₁⟩ := p
      obtain ⟨hw, hr⟩ := makeRoom_accounts hm
      cases result <;> simp only [hm] at h ⊢
      case error => cases h
      case ok =>
        obtain ⟨hu, hb⟩ := hr rfl
        split at h
        case isFalse hd =>
          cases h
          rw [if_neg hd, List.append_nil, ← hw, List.append_assoc]
          exact ⟨hu, rfl⟩
        case isTrue hd =>
          have hf : faults.direct = none := by
            cases hf : faults.direct
            case none => rfl
            case some => simp only [hf, Disk.writeAll] at h; cases h
          have hb := hb hd
          simp only [hf, Disk.writeAll] at h
          cases h
          rw [if_pos hd, ← hw, hb, hf]
          refine ⟨hu.append <| by simp [Unfailed], ?_⟩
          simp [through]

-- What fails has a write that has failed.
theorem flush_fails {e : Error} (h : w.flush fs fault = (.error e, w', fs')) : ¬Unfailed (w.flushWrites fault) := by
  simp only [flush] at h
  split at h
  case isTrue => cases h
  case isFalse hb =>
    cases fault
    case none   => cases h
    case some f => rw [flushWrites, if_neg hb]; exact Unfailed.not_single rfl

theorem writeAll_fails {e : Error} (h : w.writeAll fs data faults = (.error e, w', fs')) :
    ¬Unfailed (w.writeAllWrites fs data faults) := by
  simp only [writeAll] at h
  simp only [writeAllWrites]
  split at h
  case isTrue => cases h
  case isFalse hc =>
    rw [if_neg hc]
    cases hm : w.makeRoom fs data faults.flush
    case mk result p =>
      obtain ⟨w₁, fs₁⟩ := p
      cases result <;> simp only [hm] at h ⊢
      case error =>
        simp only [makeRoom] at hm
        simp only [makeRoomWrites]
        split at hm
        case isTrue hd => rw [if_pos hd]; exact flush_fails hm
        case isFalse   => cases hm
      case ok =>
        split at h
        case isFalse => cases h
        case isTrue hd =>
          rw [if_pos hd]
          cases hf : faults.direct <;> simp only [hf, Disk.writeAll] at h <;> cases h
          exact fun hu => Unfailed.not_single rfl fun c hc => hu c <| List.mem_append_right _ hc

-- What a turn takes from the channel goes to the buffer or through the handle, the end is reached with
-- an empty buffer, or else a write and with it the thread fails.
theorem turn_accounts (h : w.turn fs faults = some (w', fs')) (hc : w.connected = true) :
    (∃ data queue, w.queue = some data :: queue ∧ w'.queue = queue ∧ w'.exit = none ∧
      Unfailed (w.turnWrites fs faults) ∧ written (w.turnWrites fs faults) ++ w'.buffer = w.buffer ++ data) ∨
    (∃ queue, w.queue = none :: queue ∧ w'.exit = some (.ok ()) ∧
      Unfailed (w.turnWrites fs faults) ∧ written (w.turnWrites fs faults) = w.buffer) ∨
    (∃ e, w'.exit = some (.error e)) ∧ ¬Unfailed (w.turnWrites fs faults) := by
  simp only [turn] at h
  split at h
  case h_1 => contradiction
  case h_2 data queue hx hq =>
    split at h <;> cases h
    case h_2 hw =>
      have hu := writeAll_fails hw
      simp only [turnWrites, hx, hq] at hu hw ⊢
      simp only [hw]
      exact .inr <| .inr ⟨⟨_, rfl⟩, fun h => hu h.of_append⟩
    case h_1 hw =>
      obtain ⟨hu, ha⟩ := writeAll_accounts hw
      obtain ⟨_, hq', hx', _⟩ := writeAll_spec hw
      simp only [turnWrites, hx, hq] at hu ha hw ⊢
      simp only [hw]
      exact .inl ⟨data, queue, rfl, hq', hx'.trans hx, hu, ha⟩
  case h_3 queue hx hq =>
    cases hf : flush { w with queue } fs faults.flush
    case mk r p =>
      obtain ⟨w₁, fs₁⟩ := p
      simp only [hf, Option.some.injEq] at h
      obtain ⟨rfl, rfl⟩ := Prod.ext_iff.mp h
      cases r
      case error e =>
        have hu := flush_fails hf
        simp only [hx] at hf
        simp only [turnWrites, hx, hq, hf]
        exact .inr <| .inr ⟨⟨e, rfl⟩, fun h => hu h.of_append⟩
      case ok =>
        obtain ⟨ha, hr⟩ := flush_accounts hf
        obtain ⟨hu, hb⟩ := hr rfl
        rw [hb, List.append_nil] at ha
        have hd : w₁.flushWrites faults.drop = [] := by simp [flushWrites, hb]
        simp only [hx] at hf
        simp only [turnWrites, hx, hq, hf, hd, List.append_nil]
        exact .inr <| .inl ⟨queue, rfl, rfl, hu, ha⟩
  case h_4 => simp [hc] at h

variable {pending : List (Option Bytes)} in
-- Asked for an end, a thread comes to one.
theorem turns_exit {faults : Nat → WriteFaults} (hq : w.queue = pending ++ [none]) (hn : none ∉ pending)
    (hx : w.exit = none) : ∃ r, (w.turns fs faults (pending.length + 1)).fst.exit = some r := by
  have ⟨w₁, fs₁, ht⟩ := @turn_exists w fs (faults 0) hx (by simp [hq])
  induction pending generalizing w fs faults w₁ fs₁
  all_goals rw [turns_of_turn ht]
  case nil =>
    obtain ⟨_, _, hq', _⟩ | ⟨_, hx', _⟩ | ⟨_, e, he⟩ | ⟨hq', _⟩ := (turn_cases ht).right.right
    case inl         => simp [hq] at hq'
    case inr.inl     => exact ⟨_, hx'⟩
    case inr.inr.inl => exact ⟨_, he⟩
    case inr.inr.inr => simp [hq] at hq'
  case cons cmd pending hi =>
    obtain ⟨data, queue, hq', hq₁, hx₁, _⟩ | ⟨⟨_, hq'⟩, _⟩ | ⟨_, e, he⟩ | ⟨hq', _⟩ := (turn_cases ht).right.right
    case inl =>
      simp only [hq, List.cons_append, List.cons.injEq] at hq'
      have hq₁ := hq₁.trans hq'.right.symm
      have ⟨w₂, fs₂, ht₁⟩ := @turn_exists w₁ fs₁ (faults 1) hx₁ (by simp [hq₁])
      exact hi hq₁ (fun h => hn <| List.mem_cons_of_mem _ h) hx₁ w₂ fs₂ ht₁
    case inr.inl =>
      simp only [hq, List.cons_append, List.cons.injEq] at hq'
      exact absurd (hq'.left ▸ List.mem_cons_self ..) hn
    case inr.inr.inl => rw [List.length_cons, turns_of_exit he]; exact ⟨_, he⟩
    case inr.inr.inr => simp [hq] at hq'

end Writer

namespace ActiveDownload

open Write

variable {d : ActiveDownload} {w : Writer} {fs fs' : Disk} {faults : WriteFaults} {accepted data : Bytes}
variable {opened : FileHandle} {cs : List Write} {waited : Prop} [Decidable waited]

-- Everything accepted for a download has gone through its handle without a fault, is in the buffer or is
-- in the channel, unless its thread has failed. The end is asked for by the call that waits for it.
structure Accounts (d : ActiveDownload) (opened : FileHandle) (accepted : Bytes) (cs : List Write) (waited : Prop)
    [Decidable waited] : Prop where
  received  : d.receivedBytes = .ofNat accepted.length
  connected : d.writer.connected = true
  handle    : d.writer.file = { opened with pos := opened.pos + (written cs).length }
  channel   : d.writer.exit = none → ∃ pending, none ∉ pending ∧
    d.writer.queue = pending ++ if waited then [none] else []
  running   : d.writer.exit = none → Unfailed cs ∧
    written cs ++ d.writer.buffer ++ Writer.payload d.writer.queue = accepted
  ended     : d.writer.exit = some (.ok ()) → waited ∧ Unfailed cs ∧ written cs = accepted

namespace Accounts

theorem congr {waited' : Prop} [Decidable waited'] (a : d.Accounts opened accepted cs waited) (h : waited ↔ waited') :
    d.Accounts opened accepted cs waited' where
  received   := a.received
  connected  := a.connected
  handle     := a.handle
  channel hx := by simpa only [h] using a.channel hx
  running    := a.running
  ended hx   := (a.ended hx).imp_left h.mp

theorem new {info : ResourceInfo} {tempPath : PosixPath.Path} {file : FileHandle} (h : ¬waited) :
    Accounts ⟨info, 0, tempPath, .new file⟩ file [] [] waited where
  received  := rfl
  connected := rfl
  handle    := rfl
  channel _ := ⟨[], nofun, by simp [h, Writer.new]⟩
  running _ := ⟨.nil, rfl⟩
  ended     := nofun

theorem receive (a : d.Accounts opened accepted cs waited) (hx : d.writer.exit = none) (h : ¬waited) :
    (d.receive data).Accounts opened (accepted ++ data) cs waited where
  received := by
    simp only [ActiveDownload.receive, a.received, List.length_append, UInt64.ofNat_add]
  connected := a.connected
  handle    := a.handle
  channel _ := by
    obtain ⟨pending, hn, hq⟩ := a.channel hx
    exact ⟨pending ++ [some data], by simp [hn], by simp [ActiveDownload.receive, hq, h]⟩
  running _ := by
    obtain ⟨hu, hb⟩ := a.running hx
    refine ⟨hu, ?_⟩
    simp [ActiveDownload.receive, Writer.payload, ← hb]
  ended he := by
    simp [ActiveDownload.receive, hx] at he

theorem ending {waited' : Prop} [Decidable waited'] (a : d.Accounts opened accepted cs waited) (h : ¬waited)
    (h' : waited') : Accounts { d with writer := d.ending } opened accepted cs waited' := by
  cases hx : d.writer.exit
  case some r =>
    have he : d.ending = d.writer := by simp [ActiveDownload.ending, Writer.send, hx]
    rw [he]
    exact ⟨a.received, a.connected, a.handle, fun h => by simp [hx] at h, fun h => by simp [hx] at h,
      fun h => absurd (a.ended h).left ‹¬waited›⟩
  case none =>
    have he : d.ending = { d.writer with queue := d.writer.queue ++ [none] } := by
      simp [ActiveDownload.ending, Writer.send, hx]
    rw [he]
    obtain ⟨pending, hn, hq⟩ := a.channel hx
    obtain ⟨hu, hb⟩ := a.running hx
    refine ⟨a.received, a.connected, a.handle, fun _ => ⟨pending, hn, by simp [hq, h, h']⟩, fun _ => ⟨hu, ?_⟩, fun h => ?_⟩
    case refine_1 => simp [← hb, Writer.payload]
    case refine_2 => simp [hx] at h

theorem turn (a : d.Accounts opened accepted cs waited) (h : d.writer.turn fs faults = some (w, fs')) :
    Accounts { d with writer := w } opened accepted (cs ++ d.writer.turnWrites fs faults) waited := by
  have ⟨t, hx, _⟩ := Writer.turn_cases h
  have ⟨pending, hn, hq⟩ := a.channel hx
  have ⟨hu, hb⟩ := a.running hx
  have hc := t.connected.trans a.connected
  have hh : w.file = { opened with pos := opened.pos + (written (cs ++ d.writer.turnWrites fs faults)).length } := by
    have hp : w.file = _ := perform_handle (Writer.turn_performs h)
    rw [hp, a.handle, written_append, List.length_append, Nat.add_assoc]
  obtain ⟨data, queue, hq', hqw, hxw, hu', ha⟩ | ⟨queue, hq', hxw, hu', ha⟩ | ⟨⟨e, hxw⟩, _⟩ :=
    Writer.turn_accounts h a.connected
  case inl =>
    refine ⟨a.received, hc, hh, fun _ => ?_, fun _ => ⟨hu.append hu', ?_⟩, fun h => by simp [hxw] at h⟩
    case refine_1 =>
      -- What the thread has taken is not the end, so it comes from the chunks that are pending.
      cases pending
      case nil =>
        rw [hq'] at hq
        split at hq <;> simp at hq
      case cons cmd pending =>
        rw [hq', List.cons_append, List.cons.injEq] at hq
        exact ⟨pending, fun h => hn <| List.mem_cons_of_mem _ h, hqw.trans hq.right⟩
    case refine_2 =>
      calc written (cs ++ d.writer.turnWrites fs faults) ++ w.buffer ++ Writer.payload w.queue
        _ = written cs ++ (written (d.writer.turnWrites fs faults) ++ w.buffer) ++ Writer.payload queue := by
          simp [hqw]
        _ = written cs ++ d.writer.buffer ++ Writer.payload (some data :: queue) := by
          simp [ha, Writer.payload]
        _ = accepted := hq' ▸ hb
  case inr.inl =>
    -- The end is the last thing in the channel.
    obtain ⟨hw, hqe⟩ : waited ∧ queue = [] := by
      cases pending
      case nil =>
        rw [hq'] at hq
        split at hq
        case isTrue hw => exact ⟨hw, by simpa using hq⟩
        case isFalse   => simp at hq
      case cons cmd pending =>
        rw [hq', List.cons_append, List.cons.injEq] at hq
        exact absurd (hq.left ▸ List.mem_cons_self ..) hn
    refine ⟨a.received, hc, hh, fun h => by simp [hxw] at h, fun h => by simp [hxw] at h,
      fun _ => ⟨hw, hu.append hu', ?_⟩⟩
    rw [hq', hqe] at hb
    simpa [ha, Writer.payload] using hb
  case inr.inr =>
    exact ⟨a.received, hc, hh, fun h => by simp [hxw] at h, fun h => by simp [hxw] at h, fun h => by simp [hxw] at h⟩

-- The thread that is waited for ends.
theorem turns_exit {faults : Nat → WriteFaults} (a : d.Accounts opened accepted cs waited) (h : waited) :
    ∃ r, (d.writer.turns fs faults d.writer.queue.length).fst.exit = some r := by
  cases hx : d.writer.exit
  case some r => rw [Writer.turns_of_exit hx]; exact ⟨r, hx⟩
  case none =>
    have ⟨pending, hn, hq⟩ := a.channel hx
    rw [if_pos h] at hq
    rw [hq, List.length_append, List.length_singleton]
    exact Writer.turns_exit hq hn hx

end Accounts
end ActiveDownload

namespace DownloadManager

open PosixPath

variable {m : DownloadManager} {s s' : Storage} {io : IoFaults} {d : ActiveDownload} {joined r : Except Error Unit}

theorem take_put : (m.put d).take d.info.id = m.take d.info.id := by
  simp only [put, take, mk.injEq, and_true]
  exact AList.ext <| List.kerase_cons_eq rfl

theorem finishDownload_cases (h : m.finishDownload s io d joined = (r, s')) :
    ((∃ e, r = .error e) ∧ s' = s) ∨
    r = .ok () ∧ joined = .ok () ∧ io.rename = none ∧
      ∃ disk, s.disk.rename (resolve d.tempPath) (resolve <| m.finalPath d.info) = some disk ∧ s' = { s with disk } := by
  cases joined <;> simp only [finishDownload] at h
  case error => cases h; exact .inl ⟨⟨_, rfl⟩, rfl⟩
  case ok =>
    split at h <;> cases h
    case h_1 hn hr => exact .inr ⟨rfl, rfl, hn, _, hr, rfl⟩
    case h_2       => exact .inl ⟨⟨_, rfl⟩, rfl⟩
    case h_3       => exact .inl ⟨⟨_, rfl⟩, rfl⟩

-- What the manager refuses.
theorem start_refused {info : ResourceInfo} (h : m.downloads.lookup info.id ≠ none) :
    ∃ e, m.startDownload s io info = (.error e, m, s) := by
  have hc : m.downloads.contains info.id = true := by
    rw [Table.contains_eq_true]
    exact Option.ne_none_iff_exists'.mp h
  exact ⟨_, by simp only [startDownload, hc, if_true]; rfl⟩

theorem unknown_refused {id : ResourceId} (h : m.downloads.lookup id = none) :
    (∀ data, ∃ e, m.processChunk id data = (.error e, m)) ∧
      (∃ e, m.completeDownload s io id = (.error e, m, s)) ∧ ∃ e, m.cancelDownload s io id = (.error e, m, s) := by
  refine ⟨fun data => ?_, ?_, ?_⟩
  case refine_1 => exact ⟨_, by simp only [processChunk, h]; rfl⟩
  case refine_2 => exact ⟨_, by simp only [completeDownload, h]; rfl⟩
  case refine_3 => exact ⟨_, by simp only [cancelDownload, h]; rfl⟩

theorem finishDownload_congr {w : Writer} {m' : DownloadManager} (h : m'.downloadsDir = m.downloadsDir) :
    m'.finishDownload s io { d with writer := w } joined = m.finishDownload s io d joined := by
  cases joined <;> simp only [finishDownload, finalPath, h]

theorem completeDownload_eq {id : ResourceId} {w : Writer} {disk : Disk} (hd : m.downloads.lookup id = some d)
    (hw : d.ending.turns s.disk io.writes d.ending.queue.length = (w, disk)) (hx : w.exit = some joined)
    (h : m.finishDownload { s with disk } io d joined = (r, s')) :
    m.completeDownload s io id = (r, m.take id, s') := by
  have hj : (d.writer.send none |>.getD d.writer).join s.disk io.writes = (joined, disk) := by
    have hw : (d.writer.send none |>.getD d.writer).turns s.disk io.writes
      (d.writer.send none |>.getD d.writer).queue.length = (w, disk) := hw
    simp only [Writer.join, hw, hx, Option.getD_some]
  simp only [completeDownload, hd, hj]
  cases joined <;> simp only [finishDownload] at h
  case error => cases h; rfl
  case ok =>
    simp only
    split at h <;> cases h <;> simp_all

end DownloadManager

namespace Calls

open PosixPath Write

variable {s s' : Calls} {move : Move} {id : ResourceId} {d : ActiveDownload} {io : IoFaults}
variable {result : Except Error Unit} {faults : WriteFaults}

theorem finish_cases (h : s.finish io = some (result, s')) : ∃ id d joined, s.waiting = some id ∧
    s.manager.downloads.lookup id = some d ∧ d.writer.exit = some joined ∧
    ((∃ e, result = .error e) ∧ s' = { s with manager := s.manager.take id, waiting := none } ∨
      result = .ok () ∧ joined = .ok () ∧ io.rename = none ∧ ∃ disk,
        s.storage.disk.rename (resolve d.tempPath) (resolve <| s.manager.finalPath d.info) = some disk ∧
        s' = {
          s with
          manager  := s.manager.take id
          storage  := { s.storage with disk }
          waiting  := none
          finished := Function.update s.finished id (some (resolve <| s.manager.finalPath d.info, s.accepted id))
        }) := by
  simp only [finish, Option.bind_eq_bind, Option.bind_eq_some_iff] at h
  obtain ⟨id, hw, d, hd, joined, hx, h⟩ := h
  refine ⟨id, d, joined, hw, hd, hx, ?_⟩
  cases hf : s.manager.finishDownload s.storage io d joined
  case mk r storage =>
    rw [hf] at h
    cases h
    obtain ⟨⟨e, rfl⟩, rfl⟩ | ⟨rfl, rfl, hn, disk, hr, rfl⟩ := DownloadManager.finishDownload_cases hf
    case inl => exact .inl ⟨⟨e, rfl⟩, rfl⟩
    case inr => exact .inr ⟨rfl, rfl, hn, disk, hr, rfl⟩

theorem turned_cases (h : s.turned id faults = some s') : ∃ d w disk, s.manager.downloads.lookup id = some d ∧
    d.writer.turn s.storage.disk faults = some (w, disk) ∧
    s' = {
      s with
      manager := s.manager.put { d with writer := w }
      storage := { s.storage with disk }
      writes  := Function.update s.writes id (s.writes id ++ d.writer.turnWrites s.storage.disk faults)
    } := by
  simp only [turned, Option.bind_eq_bind, Option.bind_eq_some_iff] at h
  obtain ⟨d, hd, ⟨w, disk⟩, ht, h⟩ := h
  cases h
  exact ⟨d, w, disk, hd, ht, rfl⟩

theorem finish_of {joined : Except Error Unit} (hw : s.waiting = some id)
    (hd : s.manager.downloads.lookup id = some d) (hx : d.writer.exit = some joined) : s.finish io =
      some ((s.manager.finishDownload s.storage io d joined).fst,
        s.returned id (resolve <| s.manager.finalPath d.info) (s.manager.finishDownload s.storage io d joined)) := by
  simp only [finish, hw, hd, hx, Option.bind_eq_bind, Option.bind_some]

theorem returned_spec {place : Place} {ended : Except Error Unit × Storage} :
    (s.returned id place ended).manager = s.manager.take id ∧ (s.returned id place ended).storage = ended.snd := by
  obtain ⟨_ | _, _⟩ := ended <;> exact ⟨rfl, rfl⟩

structure Accounted (s : Calls) : Prop where
  active  : ∀ {id d}, s.manager.downloads.lookup id = some d →
    d.Accounts (s.opened id) (s.accepted id) (s.writes id) (s.waiting = some id)
  waiting : ∀ {id}, s.waiting = some id → ∃ d, s.manager.downloads.lookup id = some d

namespace Accounted

theorem new {downloadsDir : PosixPath.Path} {disk : Disk} : (new downloadsDir disk).Accounted where
  active h  := by simp [Calls.new, DownloadManager.new] at h
  waiting h := by simp [Calls.new] at h

theorem put (a : s.Accounted) (hi : d.info.id = id) (hm : s'.manager = s.manager.put d)
    (hd : d.Accounts (s'.opened id) (s'.accepted id) (s'.writes id) (s'.waiting = some id))
    (hw : s'.waiting = s.waiting ∨ s.waiting = none ∧ s'.waiting = some id)
    (ho : ∀ {id'}, id' ≠ id → s'.opened id' = s.opened id' ∧ s'.accepted id' = s.accepted id' ∧ s'.writes id' = s.writes id') :
    s'.Accounted := by
  subst hi
  constructor
  case active =>
    intro id' d' h
    rw [hm] at h
    obtain ⟨rfl, rfl⟩ | ⟨hn, h⟩ := DownloadManager.put_cases h
    case inl => exact hd
    case inr =>
      have ⟨hf, ha, hc⟩ := ho hn
      rw [hf, ha, hc]
      refine (a.active h).congr ?_
      obtain hw | ⟨hw, hw'⟩ := hw
      case inl => rw [hw]
      case inr => simp [hw, hw', hn.symm]
  case waiting =>
    intro id' h
    rw [hm, DownloadManager.put_lookup]
    split
    case isTrue     => exact ⟨d, rfl⟩
    case isFalse hn =>
      obtain hw | ⟨_, hw⟩ := hw
      case inl => exact a.waiting (hw ▸ h)
      case inr => exact absurd (Option.some.inj <| h.symm.trans hw) hn

theorem take (a : s.Accounted) (hm : s'.manager = s.manager.take id) (hw : s'.waiting = none)
    (hs : s.waiting = none ∨ s.waiting = some id) (hf : s'.opened = s.opened) (ha : s'.accepted = s.accepted)
    (hc : s'.writes = s.writes) : s'.Accounted where
  active h := by
    rw [hm] at h
    have ⟨hn, h⟩ := DownloadManager.take_cases h
    rw [hf, ha, hc]
    refine (a.active h).congr ?_
    obtain hs | hs := hs
    case inl => simp [hs, hw]
    case inr => simp [hs, hw, hn.symm]
  waiting h := by simp [hw] at h

theorem frame (a : s.Accounted) (hm : s'.manager = s.manager) (hw : s'.waiting = s.waiting) (hf : s'.opened = s.opened)
    (ha : s'.accepted = s.accepted) (hc : s'.writes = s.writes) : s'.Accounted where
  active h  := by rw [hf, ha, hc, hw]; exact a.active (hm ▸ h)
  waiting h := by rw [hm]; exact a.waiting (hw ▸ h)

theorem step (a : s.Accounted) (h : s.step move = some s') : s'.Accounted := by
  cases move <;> simp only [Calls.step, Option.ite_none_left_eq_some, Option.isSome_iff_ne_none, ne_eq, not_not,
    Option.some.injEq] at h
  case start info io =>
    obtain ⟨hw, rfl⟩ := h
    cases hs : s.manager.startDownload s.storage io info
    case mk r p =>
      obtain ⟨m', s'⟩ := p
      obtain ⟨_, rfl, rfl, rfl, _⟩ | ⟨rfl, _, _, _, ho, rfl, rfl⟩ := DownloadManager.startDownload_cases hs
      case inl => exact a.frame rfl rfl rfl rfl rfl
      case inr =>
        refine a.put rfl rfl ?_ (.inl rfl) fun hn => by simp [started, hn]
        simpa [started, ho] using ActiveDownload.Accounts.new (by simp [hw])
  case chunk id data =>
    obtain ⟨hw, rfl⟩ := h
    cases hp : s.manager.processChunk id data
    case mk r m' =>
      obtain ⟨_, rfl, rfl, _⟩ | ⟨d, _, rfl, hd, hx, rfl⟩ := DownloadManager.processChunk_cases hp
      case inl => exact a.frame rfl rfl rfl rfl rfl
      case inr =>
        have hk := s.manager.keyed hd
        refine a.put (d := d.receive data) hk rfl ?_ (.inl rfl) fun hn => by simp [received, hn]
        simpa [received] using (a.active hd).receive hx (by simp [hw])
  case cancel id io =>
    obtain ⟨hw, rfl⟩ := h
    obtain ⟨_, hm, _⟩ | ⟨d, _, hm, _⟩ := DownloadManager.cancelDownload_cases (rfl : s.manager.cancelDownload s.storage io id = _)
    case inl => exact a.frame hm rfl rfl rfl rfl
    case inr => exact a.take hm hw (.inl hw) rfl rfl rfl
  case complete id =>
    obtain ⟨hw, h⟩ := h
    split at h <;> cases h
    case h_1 d hd =>
      have hn : s.waiting ≠ some id := by simp [hw]
      have hk := s.manager.keyed hd
      refine a.put (d := { d with writer := d.ending }) hk rfl ?_ (.inr ⟨hw, rfl⟩) fun _ => ⟨rfl, rfl, rfl⟩
      exact (a.active hd).ending hn rfl
    case h_2 => exact a
  case finish io =>
    obtain ⟨⟨r, s₁⟩, hf, rfl⟩ := Option.map_eq_some_iff.mp h
    obtain ⟨id, d, _, hw, _, _, ⟨_, rfl⟩ | ⟨_, _, _, _, _, rfl⟩⟩ := finish_cases hf
    case inl => exact a.take rfl rfl (.inr hw) rfl rfl rfl
    case inr => exact a.take rfl rfl (.inr hw) rfl rfl rfl
  case turn id faults =>
    obtain ⟨d, w, disk, hd, ht, rfl⟩ := turned_cases h
    have hk := s.manager.keyed hd
    refine a.put (d := { d with writer := w }) hk rfl ?_ (.inl rfl) fun hn => by simp [hn]
    simpa using (a.active hd).turn ht
  case detached i faults =>
    simp only [Option.bind_eq_bind, Option.bind_eq_some_iff] at h
    obtain ⟨_, _, _, _, h⟩ := h
    cases h
    exact a.frame rfl rfl rfl rfl rfl

theorem reachable (r : Reachable system s) : s.Accounted := by
  refine Invariant.reachable ⟨?_, fun a h => step a h⟩ r
  rintro _ ⟨_, _, rfl⟩
  exact new

end Accounted

def turns (id : ResourceId) (faults : Nat → WriteFaults) (n : Nat) : List Move :=
  (List.range n).map fun k => .turn id (faults k)

variable {w : Writer} {disk : Disk}

theorem turned_of_turn (hd : s.manager.downloads.lookup id = some d)
    (ht : d.writer.turn s.storage.disk faults = some (w, disk)) : ∃ s', s.turned id faults = some s' ∧
      s'.waiting = s.waiting ∧ s'.manager.downloads.lookup id = some { d with writer := w } ∧
      s'.storage = { s.storage with disk } ∧ s'.manager.take id = s.manager.take id := by
  have hk := s.manager.keyed hd
  simp only [turned, hd, Option.bind_eq_bind, Option.bind_some, ht, Option.some.injEq, exists_eq_left']
  refine ⟨trivial, by simp [hk], trivial, ?_⟩
  rw [← hk]
  exact DownloadManager.take_put

-- The turns that a thread takes with no other thread in between.
theorem turns_run {faults : Nat → WriteFaults} {k : Nat} (hd : s.manager.downloads.lookup id = some d) : ∃ n s',
    Run system s (turns id faults n) s' ∧ s'.waiting = s.waiting ∧
    s'.manager.downloads.lookup id = some { d with writer := (d.writer.turns s.storage.disk faults k).fst } ∧
    s'.storage = { s.storage with disk := (d.writer.turns s.storage.disk faults k).snd } ∧
    s'.manager.take id = s.manager.take id := by
  induction k generalizing s d faults
  case zero => exact ⟨0, s, .refl, rfl, hd, rfl, rfl⟩
  case succ k hi =>
    cases ht : d.writer.turn s.storage.disk (faults 0)
    case none =>
      have hk : d.writer.turns s.storage.disk faults (k + 1) = (d.writer, s.storage.disk) := by
        simp only [Writer.turns, ht]
      rw [hk]
      exact ⟨0, s, .refl, rfl, hd, rfl, rfl⟩
    case some p =>
      obtain ⟨s₁, hs, hw₁, hd₁, hst₁, hm₁⟩ := turned_of_turn hd ht
      obtain ⟨n, s', r, hw, hl, hst, hm⟩ := @hi s₁ _ (faults <| · + 1) hd₁
      rw [Writer.turns_of_turn ht]
      rw [hst₁] at hl hst
      refine ⟨n + 1, s', ?_, hw.trans hw₁, hl, hst, hm.trans hm₁⟩
      rw [turns, List.range_succ_eq_map, List.map_cons, List.map_map]
      exact .step hs r

-- `complete_download` in one go is what it is with no other thread in between.
theorem completeDownload_run (a : s.Accounted) (hw : s.waiting = none) (hd : s.manager.downloads.lookup id = some d) :
    ∃ n s₁ s₂ result, Run system s (.complete id :: turns id io.writes n) s₁ ∧ s₁.finish io = some (result, s₂) ∧
      s.manager.completeDownload s.storage io id = (result, s₂.manager, s₂.storage) := by
  have hk := s.manager.keyed hd
  obtain ⟨s₀, hs, hw₀, hd₀, hst₀, hm₀⟩ : ∃ s₀, s.step (.complete id) = some s₀ ∧ s₀.waiting = some id ∧
      s₀.manager.downloads.lookup id = some { d with writer := d.ending } ∧ s₀.storage = s.storage ∧
      s₀.manager.take id = s.manager.take id := by
    refine ⟨{ s with manager := s.manager.put { d with writer := d.ending }, waiting := some id },
      by simp [Calls.step, hw, hd, ActiveDownload.ending], rfl, by simp [hk], rfl, ?_⟩
    rw [← hk]
    exact DownloadManager.take_put
  obtain ⟨joined, hx⟩ := @ActiveDownload.Accounts.turns_exit _ s.storage.disk _ _ _ _ _ io.writes ((a.step hs).active hd₀) hw₀
  obtain ⟨n, s₁, r, hw₁, hd₁, hst₁, hm₁⟩ := @turns_run s₀ id _ io.writes d.ending.queue.length hd₀
  rw [hst₀] at hd₁ hst₁
  refine ⟨n, s₁, _, _, .step hs r, finish_of (hw₁.trans hw₀) hd₁ hx, ?_⟩
  rw [returned_spec.left, returned_spec.right, hm₁, hm₀, hst₁]
  have hm : s₁.manager.downloadsDir = s.manager.downloadsDir := congrArg (·.downloadsDir) (hm₁.trans hm₀)
  exact DownloadManager.completeDownload_eq hd rfl hx (DownloadManager.finishDownload_congr hm).symm

theorem returns (a : s.Accounted) (hw : s.waiting = some id) {faults : Nat → WriteFaults} :
    ∃ n s', Run system s (turns id faults n) s' ∧ ∀ io, ∃ result s'', s'.finish io = some (result, s'') := by
  have ⟨d, hd⟩ := a.waiting hw
  have ⟨joined, hx⟩ := @ActiveDownload.Accounts.turns_exit _ s.storage.disk _ _ _ _ _ faults (a.active hd) hw
  have ⟨n, s', r, hw', hd', _⟩ := @turns_run s id _ faults d.writer.queue.length hd
  exact ⟨n, s', r, fun io => ⟨_, _, finish_of (hw'.trans hw) hd' hx⟩⟩

-- What goes through the handle of a download is written to the disk, at the handle that `start_download` has
-- opened, and its thread fails when a write does. A download that completes has everything accepted for it behind its
-- handle, one with a failed write fails, `complete_download` returns whatever goes wrong, and what is refused changes
-- nothing.
structure Delivers (s : Calls) : Prop where
  opens    : ∀ {info io s'}, s.step (.start info io) = some s' → s.manager.downloads.lookup info.id = none →
    io.openTemp = none → ∃ d, s'.manager.downloads.lookup info.id = some d ∧ d.writer.file = s'.opened info.id ∧
      s.storage.disk.openTruncate (resolve d.tempPath) = (s'.storage.disk, s'.opened info.id) ∧ s'.writes info.id = []
  handle   : ∀ {id d}, s.manager.downloads.lookup id = some d →
    d.writer.file = { s.opened id with pos := (s.opened id).pos + (written (s.writes id)).length }
  performs : ∀ {id faults s'}, s.step (.turn id faults) = some s' → ∃ d w cs,
    s.manager.downloads.lookup id = some d ∧ s'.manager.downloads.lookup id = some { d with writer := w } ∧
    s'.writes = Function.update s.writes id (s.writes id ++ cs) ∧
    cs.foldl perform (s.storage.disk, d.writer.file) = (s'.storage.disk, w.file) ∧
    ((∃ e, w.exit = some (.error e)) ↔ ¬Unfailed cs)
  whole    : ∀ {io s'}, s.finish io = some (.ok (), s') → ∃ id d, s.waiting = some id ∧
    s.manager.downloads.lookup id = some d ∧ written (s.writes id) = s.accepted id ∧
    d.receivedBytes = .ofNat (s.accepted id).length
  failure  : ∀ {io result s' id}, s.finish io = some (result, s') → s.waiting = some id →
    ¬Unfailed (s.writes id) → ∃ e, result = .error e
  returns  : ∀ {id} {faults : Nat → WriteFaults}, s.waiting = some id →
    ∃ n s', Run system s (turns id faults n) s' ∧ ∀ io, ∃ result s'', s'.finish io = some (result, s'')
  start    : ∀ {info io}, s.manager.downloads.lookup info.id ≠ none →
    ∃ e, s.manager.startDownload s.storage io info = (.error e, s.manager, s.storage)
  unknown  : ∀ {id io}, s.manager.downloads.lookup id = none →
    (∀ data, ∃ e, s.manager.processChunk id data = (.error e, s.manager)) ∧
    (∃ e, s.manager.completeDownload s.storage io id = (.error e, s.manager, s.storage)) ∧
    ∃ e, s.manager.cancelDownload s.storage io id = (.error e, s.manager, s.storage)

theorem start_opens {info : ResourceInfo} (h : s.step (.start info io) = some s')
    (hn : s.manager.downloads.lookup info.id = none) (ho : io.openTemp = none) :
    ∃ d, s'.manager.downloads.lookup info.id = some d ∧ d.writer.file = s'.opened info.id ∧
      s.storage.disk.openTruncate (resolve d.tempPath) = (s'.storage.disk, s'.opened info.id) ∧ s'.writes info.id = [] := by
  simp only [Calls.step, Option.ite_none_left_eq_some, Option.some.injEq] at h
  obtain ⟨_, rfl⟩ := h
  cases hs : s.manager.startDownload s.storage io info
  case mk r p =>
    obtain ⟨_, _⟩ := p
    obtain ⟨_, _, _, _, h | h⟩ | ⟨rfl, _, disk, file, hf, rfl, rfl⟩ := DownloadManager.startDownload_cases hs
    case inl.inl => exact absurd hn h
    case inl.inr => simp [ho] at h
    case inr     =>
      exact ⟨⟨info, 0, s.manager.tempPath info.id, .new file⟩, by simp [started], by simp [started, Writer.new, hf],
        by simp [started, hf], by simp [started]⟩

theorem turn_writes (a : s.Accounted) (h : s.step (.turn id faults) = some s') : ∃ d w cs,
    s.manager.downloads.lookup id = some d ∧ s'.manager.downloads.lookup id = some { d with writer := w } ∧
    s'.writes = Function.update s.writes id (s.writes id ++ cs) ∧
    cs.foldl perform (s.storage.disk, d.writer.file) = (s'.storage.disk, w.file) ∧
    ((∃ e, w.exit = some (.error e)) ↔ ¬Unfailed cs) := by
  obtain ⟨d, w, disk, hd, ht, rfl⟩ := turned_cases h
  have hk := s.manager.keyed hd
  refine ⟨d, w, _, hd, by simp [hk], rfl, Writer.turn_performs ht, ?_⟩
  obtain ⟨_, _, _, _, hx, hu, _⟩ | ⟨_, _, hx, hu, _⟩ | ⟨he, hu⟩ := Writer.turn_accounts ht (a.active hd).connected
  case inl | inr.inl => simp [hx, hu]
  case inr.inr       => exact iff_of_true he hu

theorem finish_ok (a : s.Accounted) (h : s.finish io = some (.ok (), s')) : ∃ id d, s.waiting = some id ∧
    s.manager.downloads.lookup id = some d ∧ Unfailed (s.writes id) ∧ written (s.writes id) = s.accepted id := by
  obtain ⟨id, d, _, hw, hd, hx, ⟨⟨_, he⟩, _⟩ | ⟨_, rfl, _⟩⟩ := finish_cases h
  case inl => contradiction
  case inr =>
    have ⟨_, hu, hc⟩ := (a.active hd).ended hx
    exact ⟨id, d, hw, hd, hu, hc⟩

-- In whatever order the calls come and the threads take their turns.
theorem delivers (r : Reachable system s) : s.Delivers where
  opens    := start_opens
  handle h := (Accounted.reachable r |>.active h).handle
  performs := turn_writes (Accounted.reachable r)
  whole h  := by
    have a := Accounted.reachable r
    have ⟨id, d, hw, hd, _, hc⟩ := finish_ok a h
    exact ⟨id, d, hw, hd, hc, (a.active hd).received⟩
  failure {io result _ _} h hw hf := by
    cases result
    case error e => exact ⟨e, rfl⟩
    case ok =>
      have ⟨_, _, hw', _, hu, _⟩ := finish_ok (Accounted.reachable r) h
      cases hw.symm.trans hw'
      exact absurd hu hf
  returns hw := returns (Accounted.reachable r) hw
  start    := DownloadManager.start_refused
  unknown  := DownloadManager.unknown_refused

def photo : ResourceInfo where
  id := ⟨.replicate 32 0⟩
  name := "photo"
  size := 3

def melody : ResourceInfo where
  id := ⟨.replicate 32 3⟩
  name := "melody"
  size := 2

-- Two chunks, of which the second comes after the thread has taken the first.
def downloading : List Move :=
  [.start photo .none, .chunk photo.id [1, 2], .turn photo.id .none, .chunk photo.id [3], .complete photo.id,
    .turn photo.id .none, .turn photo.id .none]

def downloaded : Calls :=
  downloading.foldlM step (new "/downloads".toList .empty) |>.get rfl

theorem downloaded_reachable : Reachable system downloaded :=
  Run.reachable (.init ⟨"/downloads".toList, .empty, rfl⟩) <|
    .ofFn (rfl : downloading.foldlM step (new "/downloads".toList .empty) = _)

theorem delivers_downloaded : downloaded.waiting = some photo.id ∧ downloaded.accepted photo.id = [1, 2, 3] ∧
    downloaded.storage.disk.content (downloaded.opened photo.id).inode = [1, 2, 3] ∧
    (downloaded.finish .none).map Prod.fst = some (.ok ()) ∧ downloaded.Delivers :=
  ⟨rfl, rfl, by decide +kernel, by decide +kernel, delivers downloaded_reachable⟩

end Calls
end Parsip
