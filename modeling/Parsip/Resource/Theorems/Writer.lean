import Parsip.Resource.Writer

namespace Parsip.Writer

variable {w w' w₁ w₂ w₃ : Writer} {fs fs' fs₁ fs₂ fs₃ : Disk} {result : Except Error Unit}
variable {fault : Option WriteFault} {faults : WriteFaults} {bs data : Bytes} {cmd : Option Bytes}

-- A writer thread writes to one file only and names none.
structure Touches (w : Writer) (fs : Disk) (w' : Writer) (fs' : Disk) : Prop where
  inode     : w'.file.inode = w.file.inode
  connected : w'.connected = w.connected
  dir       : fs'.dir = fs.dir
  next      : fs'.next = fs.next
  content   : ∀ {i}, i ≠ w.file.inode → fs'.content i = fs.content i

namespace Touches

theorem refl : Touches w fs w fs :=
  ⟨rfl, rfl, rfl, rfl, fun _ => rfl⟩

theorem trans (t₁ : Touches w₁ fs₁ w₂ fs₂) (t₂ : Touches w₂ fs₂ w₃ fs₃) : Touches w₁ fs₁ w₃ fs₃ where
  inode     := t₂.inode.trans t₁.inode
  connected := t₂.connected.trans t₁.connected
  dir       := t₂.dir.trans t₁.dir
  next      := t₂.next.trans t₁.next
  content h := (t₂.content <| t₁.inode.symm ▸ h).trans (t₁.content h)

end Touches

-- What the thread has taken from its channel is in the file or in the buffer.
structure Taken (w : Writer) (fs : Disk) (bs : Bytes) : Prop where
  atEnd   : fs.AtEnd w.file
  content : fs.content w.file.inode ++ w.buffer = bs

-- A flush moves bytes from the buffer to the file.
theorem flush_spec (h : w.flush fs fault = (result, w', fs')) :
    Touches w fs w' fs' ∧ w'.queue = w.queue ∧ w'.exit = w.exit ∧ (result = .ok () → w'.buffer = []) ∧
      (fault = none → result = .ok ()) ∧ ∀ {bs}, w.Taken fs bs → w'.Taken fs' bs := by
  simp only [flush] at h
  split at h
  case isTrue hb =>
    cases h
    exact ⟨.refl, rfl, rfl, fun _ => hb, fun _ => rfl, id⟩
  case isFalse =>
    cases fault
    case none =>
      cases h
      refine ⟨⟨rfl, rfl, rfl, rfl, FileSystem.write_content_of_ne⟩, rfl, rfl, fun _ => rfl,
        fun _ => rfl, fun t => ⟨t.atEnd.write, ?_⟩⟩
      exact (List.append_nil _).trans <| t.atEnd.write_content.trans t.content
    case some f =>
      cases h
      refine ⟨⟨rfl, rfl, rfl, rfl, FileSystem.write_content_of_ne⟩, rfl, rfl, nofun, nofun,
        fun {bs} t => ⟨t.atEnd.write, ?_⟩⟩
      calc (fs.write w.file _).fst.content w.file.inode ++ w.buffer.drop f.written
        _ = fs.content w.file.inode ++ w.buffer.take f.written ++ w.buffer.drop f.written := by
          rw [t.atEnd.write_content]
        _ = bs := by rw [List.append_assoc, List.take_append_drop, t.content]

theorem makeRoom_spec (h : w.makeRoom fs data fault = (result, w', fs')) :
    Touches w fs w' fs' ∧ w'.queue = w.queue ∧ w'.exit = w.exit ∧
      (result = .ok () → capacity ≤ data.length → w'.buffer = []) ∧
      (fault = none → result = .ok ()) ∧ ∀ {bs}, w.Taken fs bs → w'.Taken fs' bs := by
  simp only [makeRoom] at h
  split at h
  case isTrue =>
    have ⟨t, hq, hx, hb, hr, ht⟩ := flush_spec h
    exact ⟨t, hq, hx, fun h _ => hb h, hr, ht⟩
  case isFalse hc =>
    cases h
    refine ⟨.refl, rfl, rfl, fun _ h => ?_, fun _ => rfl, id⟩
    exact List.length_eq_zero_iff.mp <| by omega

theorem writeAll_spec (h : w.writeAll fs data faults = (result, w', fs')) :
    Touches w fs w' fs' ∧ w'.queue = w.queue ∧ w'.exit = w.exit ∧
      (faults = .none → result = .ok ()) ∧
      ∀ {bs}, result = .ok () → w.Taken fs bs → w'.Taken fs' (bs ++ data) := by
  have buffered {w : Writer} {fs : Disk} {bs : Bytes} (t : w.Taken fs bs) :
      Taken { w with buffer := w.buffer ++ data } fs (bs ++ data) :=
    ⟨t.atEnd, by rw [← List.append_assoc, t.content]⟩
  simp only [writeAll] at h
  split at h
  case isTrue =>
    cases h
    exact ⟨⟨rfl, rfl, rfl, rfl, fun _ => rfl⟩, rfl, rfl, fun _ => rfl, fun _ => buffered⟩
  case isFalse =>
    split at h
    case h_1 e w₁ fs₁ hm =>
      cases h
      have ⟨t, hq, hx, _, hr, _⟩ := makeRoom_spec hm
      exact ⟨t, hq, hx, fun hf => hr (hf ▸ rfl), nofun⟩
    case h_2 w₁ fs₁ hm =>
      have ⟨t, hq, hx, hb, _, ht⟩ := makeRoom_spec hm
      split at h
      case isFalse =>
        cases h
        exact ⟨t.trans ⟨rfl, rfl, rfl, rfl, fun _ => rfl⟩, hq, hx, fun _ => rfl,
          fun _ k => buffered (ht k)⟩
      case isTrue hc =>
        cases hd : faults.direct <;> simp only [hd, Disk.writeAll] at h <;> cases h
        case none =>
          refine ⟨t.trans ⟨rfl, rfl, rfl, rfl, FileSystem.write_content_of_ne⟩, hq, hx,
            fun _ => rfl, fun _ k => ⟨(ht k).atEnd.write, ?_⟩⟩
          have hb := hb rfl hc
          have hk := (ht k).content
          rw [hb, List.append_nil] at hk
          simp only [FileSystem.write_inode, (ht k).atEnd.write_content, hb, hk, List.append_nil]
        case some f =>
          exact ⟨t.trans ⟨rfl, rfl, rfl, rfl, FileSystem.write_content_of_ne⟩, hq, hx,
            fun hf => absurd hd (by simp [hf, WriteFaults.none]), nofun⟩

theorem leave_spec :
    Touches w fs (w.leave fs result fault).fst (w.leave fs result fault).snd ∧
      (w.leave fs result fault).fst.exit = some result ∧
      (w.buffer = [] → (w.leave fs result fault).snd = fs) := by
  have ⟨t, _⟩ := flush_spec (rfl : w.flush fs fault = _)
  refine ⟨t.trans ⟨rfl, rfl, rfl, rfl, fun _ => rfl⟩, rfl, fun hb => ?_⟩
  simp [leave, flush, hb]

-- All that a turn can do: take data, fail, or come to the end asked for or to a channel that nobody
-- sends on any more.
theorem turn_cases (h : w.turn fs faults = some (w', fs')) : Touches w fs w' fs' ∧ w.exit = none ∧
    ((∃ data queue, w.queue = some data :: queue ∧ w'.queue = queue ∧ w'.exit = none ∧
      ∀ {bs}, w.Taken fs bs → w'.Taken fs' (bs ++ data)) ∨
    ((∃ queue, w.queue = none :: queue) ∧ w'.exit = some (.ok ()) ∧
      ∀ {bs}, w.Taken fs bs → fs'.content w.file.inode = bs) ∨
    (faults ≠ .none ∧ ∃ e, w'.exit = some (.error e)) ∨
    w.queue = [] ∧ w.connected = false) := by
  simp only [turn] at h
  split at h
  case h_1 => contradiction
  case h_2 data queue hx hq =>
    split at h <;> cases h
    case h_1 hw =>
      have ⟨t, hq', hx', _⟩ := writeAll_spec hw
      exact ⟨⟨t.inode, t.connected, t.dir, t.next, t.content⟩, hx, .inl ⟨data, queue, hq, hq',
        hx'.trans hx, fun k => (writeAll_spec hw).right.right.right.right rfl ⟨k.atEnd, k.content⟩⟩⟩
    case h_2 e w₁ fs₁ hw =>
      have ⟨t, _, _, hf, _⟩ := writeAll_spec hw
      have ⟨t', hx', _⟩ := @leave_spec w₁ fs₁ (.error e) faults.drop
      have t := Touches.trans t t'
      exact ⟨⟨t.inode, t.connected, t.dir, t.next, t.content⟩, hx,
        .inr <| .inr <| .inl ⟨fun h => by simpa using hf h, e, hx'⟩⟩
  case h_3 queue hx hq =>
    cases hf : flush { w with queue } fs faults.flush
    case mk r p =>
      obtain ⟨w₁, fs₁⟩ := p
      simp only [hf, Option.some.injEq, Prod.ext_iff] at h
      have ⟨hw, hs⟩ := h
      subst hw hs
      have ⟨t, _, _, hb, hr, _⟩ := flush_spec hf
      have ⟨t', hx', hd⟩ := @leave_spec w₁ fs₁ r faults.drop
      have t := Touches.trans t t'
      refine ⟨⟨t.inode, t.connected, t.dir, t.next, t.content⟩, hx, .inr ?_⟩
      cases r
      case error e => exact .inr <| .inl ⟨fun h => by simpa using hr (h ▸ rfl), e, hx'⟩
      case ok =>
        refine .inl ⟨⟨queue, hq⟩, hx', fun {bs} k => ?_⟩
        have ⟨t, _, _, _, _, hk⟩ := flush_spec hf
        have hc := (hk ⟨k.atEnd, k.content⟩).content
        rw [hb rfl, List.append_nil] at hc
        rw [hd (hb rfl), ← hc, t.inode]
  case h_4 hx hq =>
    split at h
    case isTrue     => contradiction
    case isFalse hc =>
      cases h
      exact ⟨leave_spec.left, hx, .inr <| .inr <| .inr ⟨hq, Bool.not_eq_true _ ▸ hc⟩⟩

theorem turn_touches (h : w.turn fs faults = some (w', fs')) : Touches w fs w' fs' :=
  (turn_cases h).left

theorem turns_touches {faults : Nat → WriteFaults} : Touches w fs (w.turns fs faults n).fst (w.turns fs faults n).snd := by
  induction n generalizing w fs faults
  case zero => exact .refl
  case succ n hi =>
    simp only [turns]
    split
    case h_1 h => exact (turn_touches h).trans hi
    case h_2   => exact .refl

-- The data in a channel.
def payload (queue : List (Option Bytes)) : Bytes :=
  queue.flatMap (·.getD [])

-- A thread that has been sent exactly `bs` so far, and may be sent more.
structure Receives (w : Writer) (fs : Disk) (bs : Bytes) : Prop where
  running   : w.exit = none
  connected : w.connected = true
  endless   : none ∉ w.queue
  taken     : ∃ taken, w.Taken fs taken ∧ taken ++ payload w.queue = bs

theorem turns_of_exit {faults : Nat → WriteFaults} (h : w.exit = some result) : w.turns fs faults n = (w, fs) := by
  cases n
  case zero => rfl
  case succ => simp [turns, turn, h]

theorem turn_exists (hx : w.exit = none) (hq : w.queue ≠ []) : ∃ w' fs', w.turn fs faults = some (w', fs') := by
  match h : w.queue with
  | []             => exact absurd h hq
  | none :: _      => simp only [turn, hx, h]; exact ⟨_, _, rfl⟩
  | some data :: _ =>
    simp only [turn, hx, h]
    split <;> exact ⟨_, _, rfl⟩

theorem turns_of_turn {faults : Nat → WriteFaults} (h : w.turn fs (faults 0) = some (w', fs')) :
    w.turns fs faults (n + 1) = w'.turns fs' (faults <| · + 1) n := by
  simp only [turns, h]

-- Asked for an end behind `pending`, the thread writes all of that or fails.
theorem turns_spec {faults : Nat → WriteFaults} {pending : List (Option Bytes)}
    (hq : w.queue = pending ++ [none]) (hp : none ∉ pending) (hx : w.exit = none)
    (k : w.Taken fs bs) (h : w.turns fs faults (pending.length + 1) = (w', fs')) :
    w'.exit = some (.ok ()) ∧ fs'.content w.file.inode = bs ++ payload pending ∨
      (∃ n, faults n ≠ .none) ∧ ∃ e, w'.exit = some (.error e) := by
  induction pending generalizing w fs bs faults
  case nil =>
    have ⟨w₁, fs₁, ht⟩ := @turn_exists w fs (faults 0) hx (by simp [hq])
    rw [turns_of_turn ht] at h
    cases h
    obtain ⟨_, _, hq', _⟩ | ⟨_, hx', hc⟩ | ⟨hf, he⟩ | ⟨hq', _⟩ := (turn_cases ht).right.right
    case inl         => simp [hq] at hq'
    case inr.inl     => exact .inl ⟨hx', by simp [hc k, payload]⟩
    case inr.inr.inl => exact .inr ⟨⟨0, hf⟩, he⟩
    case inr.inr.inr => simp [hq] at hq'
  case cons cmd pending hi =>
    have ⟨w₁, fs₁, ht⟩ := @turn_exists w fs (faults 0) hx (by simp [hq])
    rw [List.length_cons, turns_of_turn ht] at h
    obtain ⟨data, queue, hq', hq₁, hx₁, ht'⟩ | ⟨⟨_, hq'⟩, _⟩ | ⟨hf, e, he⟩ | ⟨hq', _⟩ :=
      (turn_cases ht).right.right
    case inl =>
      simp only [hq, List.cons_append, List.cons.injEq] at hq'
      have hn : none ∉ pending := fun hm => hp <| List.mem_cons_of_mem _ hm
      obtain ⟨hx', hc⟩ | ⟨⟨n, hf⟩, he⟩ := hi (hq₁.trans hq'.right.symm) hn hx₁ (ht' k) h
      case inl =>
        rw [(turn_touches ht).inode] at hc
        exact .inl ⟨hx', by simp [hc, payload, hq'.left]⟩
      case inr => exact .inr ⟨⟨n + 1, hf⟩, he⟩
    case inr.inl =>
      simp only [hq, List.cons_append, List.cons.injEq] at hq'
      exact absurd (hq'.left ▸ List.mem_cons_self ..) hp
    case inr.inr.inl =>
      rw [turns_of_exit he] at h
      cases h
      exact .inr ⟨⟨0, hf⟩, e, he⟩
    case inr.inr.inr => simp [hq] at hq'

namespace Receives

theorem new {file : FileHandle} (e : fs.AtEnd file) (hc : fs.content file.inode = []) :
    (Writer.new file).Receives fs [] where
  running   := rfl
  connected := rfl
  endless   := nofun
  taken     := ⟨[], ⟨e, by simp [Writer.new, hc]⟩, rfl⟩

-- Only the thread's own file matters.
theorem frame (r : w.Receives fs bs) (h : fs'.content w.file.inode = fs.content w.file.inode) :
    w.Receives fs' bs := by
  have ⟨taken, k, hb⟩ := r.taken
  exact ⟨r.running, r.connected, r.endless, taken, ⟨by rw [FileSystem.AtEnd, h]; exact k.atEnd, h ▸ k.content⟩, hb⟩

theorem send (r : w.Receives fs bs) :
    w.send (some data) = some { w with queue := w.queue ++ [some data] } ∧
      Receives { w with queue := w.queue ++ [some data] } fs (bs ++ data) := by
  have ⟨taken, k, hb⟩ := r.taken
  constructor
  case left => simp [Writer.send, r.running]
  case right =>
    refine ⟨r.running, r.connected, by simp [r.endless], taken, ⟨k.atEnd, k.content⟩, ?_⟩
    simp [payload, ← hb]

theorem turn (r : w.Receives fs bs) (h : w.turn fs faults = some (w', fs')) :
    w'.Receives fs' bs ∨ faults ≠ .none ∧ ∃ e, w'.exit = some (.error e) := by
  have ⟨taken, k, hb⟩ := r.taken
  have ⟨t, _, hc⟩ := turn_cases h
  obtain ⟨data, queue, hq, hq', hx, ht⟩ | ⟨⟨queue, hq⟩, _⟩ | hf | ⟨_, hc⟩ := hc
  case inl =>
    refine .inl ⟨hx, t.connected.trans r.connected, ?_, _, ht k, ?_⟩
    case refine_1 =>
      have := r.endless
      rw [hq', hq] at *
      exact fun hm => this (List.mem_cons_of_mem _ hm)
    case refine_2 => simp [hq', ← hb, hq, payload]
  case inr.inl         => exact absurd (hq ▸ List.mem_cons_self ..) r.endless
  case inr.inr.inl     => exact .inr hf
  case inr.inr.inr     => rw [r.connected] at hc; contradiction

-- The thread's file in the end.
theorem join {faults : Nat → WriteFaults} (r : w.Receives fs bs) (hs : w.send none = some w')
    (h : w'.join fs faults = (result, fs')) :
    (result = .ok () → fs'.content w.file.inode = bs) ∧
      ((∀ n, faults n = .none) → result = .ok ()) := by
  have ⟨taken, k, hb⟩ := r.taken
  simp only [Writer.send, r.running, Option.isSome_none, Bool.false_eq_true, if_false,
    Option.some.injEq] at hs
  subst hs
  cases ht : Writer.turns { w with queue := w.queue ++ [none] } fs faults (w.queue.length + 1)
  case mk w₁ fs₁ =>
    have hj : (w₁.exit.getD (.ok ()), fs₁) = (result, fs') := by
      rw [← h, Writer.join, List.length_append, List.length_singleton]
      simp only [← r.running, ht]
    cases hj
    obtain ⟨hx, hc⟩ | ⟨⟨n, hf⟩, e, he⟩ := turns_spec
      (show Writer.queue { w with queue := w.queue ++ [none] } = _ from rfl) r.endless r.running ⟨k.atEnd, k.content⟩ ht
    case inl => exact ⟨fun _ => hc.trans hb, fun _ => by simp [hx]⟩
    case inr => exact ⟨fun h => by simp [he] at h, fun h => absurd (h n) hf⟩

end Receives
end Parsip.Writer
