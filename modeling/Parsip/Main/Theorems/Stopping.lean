import Parsip.Main.Stopping

-- Whom `stop_daemon` signals, and what it says of the daemon.

namespace Parsip

open Transition

namespace Process

-- The command line of a program: its arguments, each with a NUL behind it.
def commandLine (args : List Bytes) : Bytes :=
  args.flatMap (· ++ [0])

-- What passes for a daemon: `/proc` shows an executable that is called `parsip`, and a command line with an argument that
-- ends in `daemon`.
structure Passes (p : Process) : Prop where
  exe     : ∃ exe, p.exe = some exe ∧ PosixPath.fileName exe = some "parsip".toList
  cmdline : ∃ cmdline, p.cmdline = some cmdline ∧ daemonArg <:+: cmdline

theorem isParsipExe_iff {exe : Option PosixPath.Path} :
    isParsipExe exe = true ↔ ∃ path, exe = some path ∧ PosixPath.fileName path = some "parsip".toList := by
  cases exe
  case none      => exact iff_of_false (by decide) fun ⟨_, he, _⟩ => by contradiction
  case some path => simp [isParsipExe]

theorem hasDaemonArg_iff {cmdline : Option Bytes} :
    hasDaemonArg cmdline = true ↔ ∃ bytes, cmdline = some bytes ∧ daemonArg <:+: bytes := by
  cases cmdline
  case none => exact iff_of_false (by decide) fun ⟨_, he, _⟩ => by contradiction
  case some bytes =>
    simp only [hasDaemonArg, Option.getD_some, List.any_eq_true, List.mem_tails, List.isPrefixOf_iff_prefix,
      Option.some.injEq, exists_eq_left', List.infix_iff_prefix_suffix]
    exact exists_congr fun _ => And.comm

theorem isParsip_iff {p : Process} : p.isParsip = true ↔ p.Passes := by
  rw [isParsip, Bool.and_eq_true, isParsipExe_iff, hasDaemonArg_iff]
  exact ⟨fun ⟨he, hc⟩ => ⟨he, hc⟩, fun h => ⟨h.exe, h.cmdline⟩⟩

theorem isParsip_eq_false {p : Process} : p.isParsip = false ↔ ¬p.Passes := by
  rw [← isParsip_iff, Bool.not_eq_true]

-- The NUL of `daemonArg` is one that ends an argument.
theorem daemonArg_infix_iff {args : List Bytes} (h : ∀ arg ∈ args, 0 ∉ arg) :
    daemonArg <:+: commandLine args ↔ ∃ arg ∈ args, nameBytes "daemon" <:+ arg := by
  have hd : daemonArg = nameBytes "daemon" ++ [0] := by decide
  induction args
  case nil => exact iff_of_false (by decide) (by simp)
  case cons arg args hi =>
    obtain ⟨ha, h⟩ := List.forall_mem_cons.mp h
    have hc : commandLine (arg :: args) = arg ++ 0 :: commandLine args := by simp [commandLine]
    rw [hc, hd, Text.terminated_infix_iff (by decide) ha, ← hd]
    simp only [List.mem_cons, exists_eq_or_imp, hi h]

-- Every `parsip daemon` passes, but so does a `parsip add` of a file called `daemon`.
theorem passes_iff {exe : PosixPath.Path} {args : List Bytes} (h : ∀ arg ∈ args, 0 ∉ arg) :
    Passes ⟨some exe, some <| commandLine args⟩ ↔
      PosixPath.fileName exe = some "parsip".toList ∧ ∃ arg ∈ args, nameBytes "daemon" <:+ arg := by
  rw [← daemonArg_infix_iff h]
  constructor
  case mp =>
    intro ⟨⟨_, he, hf⟩, ⟨_, hc, hi⟩⟩
    cases he
    cases hc
    exact ⟨hf, hi⟩
  case mpr => exact fun ⟨hf, hi⟩ => ⟨⟨exe, rfl, hf⟩, ⟨_, rfl, hi⟩⟩

example : Passes ⟨some "/usr/bin/parsip".toList,
    some <| commandLine [nameBytes "parsip", nameBytes "add", nameBytes "/srv/daemon"]⟩ :=
  passes_iff (by decide +kernel) |>.mpr ⟨by decide +kernel, nameBytes "/srv/daemon", by decide +kernel, by decide +kernel⟩

-- A daemon whose executable has been replaced does not pass.
example : ¬Passes ⟨some "/usr/bin/parsip (deleted)".toList, some <| commandLine [nameBytes "parsip", nameBytes "daemon"]⟩ :=
  isParsip_eq_false.mp (by decide +kernel)

end Process

namespace Stopping

variable {s₀ s s' : Stopping} {l : Label} {ls : List Label} {pid : Nat} {p : Process}

-- Another process gets the number `pid`, or the one that has it turns into another.
def Label.Exchanges (pid : Nat) : Label → Prop
  | .spawn pid' _ | .exec pid' _ => pid' = pid
  | _                            => False

def Label.isOwn : Label → Bool
  | .spawn .. | .exec .. | .exit _ | .write _ => false
  | _                                         => true

def Steady (pid : Nat) (ls : List Label) : Prop :=
  ∀ l ∈ ls, ¬l.Exchanges pid

-- The call has read the PID file, with this number in it.
def Reads (s₀ : Stopping) (ls : List Label) (pid : Option Int) : Prop :=
  ∃ before after s, ls = before ++ .readPid :: after ∧ Run system s₀ before s ∧ s.pidFile.bind recordedPid = pid

-- After the PID file has been read, nobody with the number `pid` passes for a daemon.
def NoParsip (pid : Nat) (s : Stopping) : Prop :=
  s.phase ≠ .readPid ∧ ∀ p, s.procs.lookup pid = some p → ¬p.Passes

-- The call is about the process `pid`.
def Target (s₀ : Stopping) (ls : List Label) (pid : Nat) : Prop :=
  1 < pid ∧ Reads s₀ ls (some pid)

-- There has been no process to stop, or there was none any more at some moment.
def Gone (s₀ : Stopping) (ls : List Label) : Prop :=
  Reads s₀ ls none ∨ ∃ pid, Target s₀ ls pid ∧ system.Sometime s₀ ls (NoParsip pid)

-- At most one process has been signalled, and that passed for a daemon if it has not been exchanged.
def Signals (s₀ : Stopping) (ls : List Label) (s : Stopping) : Prop :=
  s.signalled = [] ∨ ∃ pid p, s.signalled = [(pid, p)] ∧ Target s₀ ls pid ∧ (Steady pid ls → p.Passes)

-- What is known after each step of the call.
def Known (s₀ : Stopping) (ls : List Label) (s : Stopping) : Prop :=
  Signals s₀ ls s ∧ match s.phase with
  | .readPid => s.signalled = []
  | .readExe pid => Target s₀ ls pid ∧ s.signalled = []
  | .readCmdline pid isParsipExe =>
    Target s₀ ls pid ∧ s.signalled = [] ∧ (isParsipExe = false → system.Sometime s₀ ls (NoParsip pid)) ∧
      (Steady pid ls → ∀ p, s.procs.lookup pid = some p → Process.isParsipExe p.exe = isParsipExe)
  | .checkExists pid isParsip =>
    Target s₀ ls pid ∧ s.signalled = [] ∧ (isParsip = false → system.Sometime s₀ ls (NoParsip pid)) ∧
      (Steady pid ls → ∀ p, s.procs.lookup pid = some p → p.isParsip = isParsip)
  | .kill pid =>
    Target s₀ ls pid ∧ s.signalled = [] ∧ (Steady pid ls → ∀ p, s.procs.lookup pid = some p → p.isParsip = true)
  | .wait pid looks => Target s₀ ls pid ∧ 0 < looks
  | .remove | .returned true => Gone s₀ ls
  | .returned false => True

theorem Reads.later {ls' : List Label} {pid : Option Int} (h : Reads s₀ ls pid) : Reads s₀ (ls ++ ls') pid := by
  obtain ⟨before, after, s, rfl, r, hs⟩ := h
  exact ⟨before, after ++ ls', s, by rw [List.append_assoc, List.cons_append], r, hs⟩

theorem Target.later {ls' : List Label} (h : Target s₀ ls pid) : Target s₀ (ls ++ ls') pid :=
  ⟨h.left, h.right.later⟩

theorem Gone.later {ls' : List Label} (h : Gone s₀ ls) : Gone s₀ (ls ++ ls') :=
  h.imp (·.later) fun ⟨pid, ht, hn⟩ => ⟨pid, ht.later, hn.later⟩

theorem Steady.before {ls' : List Label} (h : Steady pid (ls ++ ls')) : Steady pid ls :=
  fun l hl => h l <| List.mem_append_left _ hl

theorem Signals.later {ls' : List Label} (h : Signals s₀ ls s) (hs : s'.signalled = s.signalled) :
    Signals s₀ (ls ++ ls') s' :=
  h.imp (hs ▸ ·) fun ⟨pid, p, he, ht, hd⟩ => ⟨pid, p, hs ▸ he, ht.later, fun hp => hd hp.before⟩

theorem Signals.none (h : s.signalled = []) : Signals s₀ ls s :=
  .inl h

-- The others do not disturb the call, but for exchanging its process.
theorem Known.others (k : Known s₀ ls s) (hp : s'.phase = s.phase) (hs : s'.signalled = s.signalled)
    (hl : ∀ {pid p}, ¬l.Exchanges pid → s'.procs.lookup pid = some p → s.procs.lookup pid = some p) :
    Known s₀ (ls ++ [l]) s' := by
  obtain ⟨hg, hk⟩ := k
  refine ⟨hg.later hs, ?_⟩
  have last {pid} (h : Steady pid (ls ++ [l])) : ¬l.Exchanges pid :=
    h l <| List.mem_append_right _ <| List.mem_singleton.mpr rfl
  rw [hp]
  cases hph : s.phase <;> simp only [hph] at hk ⊢
  case readPid => exact hs ▸ hk
  case readExe => exact ⟨hk.left.later, hs ▸ hk.right⟩
  case readCmdline | checkExists =>
    obtain ⟨ht, hs', hn, hd⟩ := hk
    exact ⟨ht.later, hs ▸ hs', fun h => (hn h).later, fun h p hq => hd h.before p <| hl (last h) hq⟩
  case kill =>
    obtain ⟨ht, hs', hd⟩ := hk
    exact ⟨ht.later, hs ▸ hs', fun h p hq => hd h.before p <| hl (last h) hq⟩
  case wait   => exact ⟨hk.left.later, hk.right⟩
  case remove => exact hk.later
  case returned stopped =>
    cases stopped
    case false => trivial
    case true  => exact hk.later

-- The call reads the number of a process to stop, or there is none.
theorem Known.readPid (r : Run system s₀ ls s) (k : Known s₀ ls s) (hp : s.phase = .readPid) :
    Known s₀ (ls ++ [.readPid]) { s with phase := Stopping.readPid s.pidFile } := by
  have hs : s.signalled = [] := by simpa only [Known, hp] using k.right
  have reads : Reads s₀ (ls ++ [.readPid]) (s.pidFile.bind recordedPid) := ⟨ls, [], s, rfl, r, rfl⟩
  refine ⟨.none hs, ?_⟩
  cases ht : s.pidFile <;> simp only [Stopping.readPid]
  case none => exact .inl (by rwa [ht] at reads)
  case some text =>
    rw [ht, Option.bind_some] at reads
    cases hr : recordedPid text <;> simp only
    case none => exact .inl (hr ▸ reads)
    case some pid =>
      by_cases h : pid ≤ 1 <;> simp only [h, if_true, if_false]
      case neg =>
        refine ⟨⟨by omega, ?_⟩, hs⟩
        rwa [hr, ← Int.toNat_of_nonneg (a := pid) (by omega)] at reads

theorem Known.readExe (r : Run system s₀ ls s) (k : Known s₀ ls s) (hp : s.phase = .readExe pid) :
    Known s₀ (ls ++ [l]) { s with
      phase := .readCmdline pid <| Process.isParsipExe <| s.procs.lookup pid |>.bind (·.exe) } := by
  obtain ⟨hg, hk⟩ := k
  simp only [hp] at hk
  refine ⟨hg.later rfl, hk.left.later, hk.right, fun hn => r.sometime ⟨by simp [hp], fun p hq => ?_⟩, fun _ p hq => ?_⟩
  case refine_1 =>
    rw [hq] at hn
    rw [← Process.isParsip_eq_false, Process.isParsip, Bool.and_eq_false_iff]
    exact .inl hn
  case refine_2 => simp [show s.procs.lookup pid = some p from hq]

theorem Known.readCmdline {isParsipExe : Bool} (r : Run system s₀ ls s) (k : Known s₀ ls s)
    (hp : s.phase = .readCmdline pid isParsipExe) : Known s₀ (ls ++ [l]) { s with
      phase := .checkExists pid <| isParsipExe && Process.hasDaemonArg (s.procs.lookup pid |>.bind (·.cmdline)) } := by
  obtain ⟨hg, hk⟩ := k
  simp only [hp] at hk
  obtain ⟨ht, hs, hn, hd⟩ := hk
  refine ⟨hg.later rfl, ht.later, hs, fun hf => ?_, fun hst p hq => ?_⟩
  case refine_1 =>
    cases isParsipExe
    case false => exact (hn rfl).later
    case true =>
      rw [Bool.true_and] at hf
      refine r.sometime ⟨by simp [hp], fun p hq => ?_⟩
      rw [hq, Option.bind_some] at hf
      rw [← Process.isParsip_eq_false, Process.isParsip, hf, Bool.and_false]
  case refine_2 =>
    have hq : s.procs.lookup pid = some p := hq
    rw [Process.isParsip, hd hst.before p hq, hq, Option.bind_some]

-- What has been seen of the process was true of one that is there, unless it has been exchanged.
theorem Known.checkExists {isParsip : Bool} (r : Run system s₀ ls s) (k : Known s₀ ls s)
    (hp : s.phase = .checkExists pid isParsip) : Known s₀ (ls ++ [l])
      { s with phase := if isParsip ∧ s.procs.contains pid then .kill pid else .remove } := by
  obtain ⟨hg, hk⟩ := k
  simp only [hp] at hk
  obtain ⟨ht, hs, hn, hd⟩ := hk
  refine ⟨hg.later rfl, ?_⟩
  by_cases hc : isParsip = true ∧ s.procs.contains pid = true <;> simp only [hc, if_false]
  case pos => exact ⟨ht.later, hs, fun hst p hq => (hd hst.before p hq).trans hc.left⟩
  case neg =>
    refine .inr ⟨pid, ht.later, ?_⟩
    cases isParsip
    case false => exact (hn rfl).later
    case true =>
      refine r.sometime ⟨by simp [hp], fun p hq => absurd ⟨rfl, ?_⟩ hc⟩
      exact Table.contains_eq_true.mpr ⟨p, hq⟩

theorem Known.kill {sent reported : Bool} (k : Known s₀ ls s) (hp : s.phase = .kill pid) :
    Known s₀ (ls ++ [l]) (s.kill pid sent reported) := by
  obtain ⟨_, hk⟩ := k
  simp only [hp] at hk
  obtain ⟨ht, hs, hd⟩ := hk
  simp only [Stopping.kill]
  split
  case h_2 => exact ⟨.none hs, trivial⟩
  case h_1 p hq =>
    refine ⟨.inr ⟨pid, p, by simp [hs], ht.later, fun hst => Process.isParsip_iff.mp <| hd hst.before p hq⟩, ?_⟩
    cases reported
    case false => trivial
    case true  => exact ⟨ht.later, by decide⟩

theorem Known.look {looks : Nat} (r : Run system s₀ ls s) (k : Known s₀ ls s) (hp : s.phase = .wait pid (looks + 1)) :
    Known s₀ (ls ++ [l]) { s with phase := s.look pid looks } := by
  obtain ⟨hg, hk⟩ := k
  simp only [hp] at hk
  refine ⟨hg.later rfl, ?_⟩
  by_cases hc : s.procs.contains pid = true
  case neg =>
    simp only [Stopping.look, hc]
    refine .inr ⟨pid, hk.left.later, r.sometime ⟨by simp [hp], fun p hq => ?_⟩⟩
    exact absurd (Table.contains_eq_true.mpr ⟨p, hq⟩) hc
  case pos =>
    by_cases hz : looks = 0 <;> simp only [Stopping.look, hc, hz, not_true_eq_false, if_true, if_false]
    case neg => exact ⟨hk.left.later, Nat.pos_of_ne_zero hz⟩

theorem Known.step (r : Run system s₀ ls s) (k : Known s₀ ls s) (h : s.step l = some s') : Known s₀ (ls ++ [l]) s' := by
  cases l <;> simp only [Stopping.step] at h
  case readPid =>
    split at h <;> cases h
    case h_1 hp => exact k.readPid r hp
  case readExe =>
    split at h <;> cases h
    case h_1 hp => exact k.readExe r hp
  case readCmdline =>
    split at h <;> cases h
    case h_1 hp => exact k.readCmdline r hp
  case checkExists =>
    split at h <;> cases h
    case h_1 hp => exact k.checkExists r hp
  case kill =>
    split at h <;> cases h
    case h_1 hp => exact k.kill hp
  case look =>
    split at h <;> cases h
    case h_1 hp => exact k.look r hp
  case remove =>
    split at h <;> cases h
    case h_1 hp =>
      obtain ⟨hg, hk⟩ := k
      simp only [hp] at hk
      exact ⟨hg.later rfl, hk.later⟩
  case spawn =>
    split at h <;> cases h
    refine k.others rfl rfl fun {pid' p'} hne hq => ?_
    rwa [Table.lookup_insert, if_neg (Ne.symm hne)] at hq
  case exec =>
    split at h <;> cases h
    refine k.others rfl rfl fun {pid' p'} hne hq => ?_
    rwa [Table.lookup_insert, if_neg (Ne.symm hne)] at hq
  case exit =>
    cases h
    refine k.others rfl rfl fun _ hq => ?_
    rw [Table.lookup_erase, Option.ite_none_left_eq_some] at hq
    exact hq.right
  case write => cases h; exact k.others rfl rfl fun _ => id

theorem Known.run (i : Initial s₀) (r : Run system s₀ ls s) : Known s₀ ls s := by
  refine r.history ⟨.none i.right, ?_⟩ fun r k h => k.step r h
  simp only [i.left, i.right]

-- A signal goes to the process that the PID file names when it is read, once, and reaches what passes for a daemon or
-- what the process has been exchanged for during the call.
theorem signals_daemon (i : Initial s₀) (r : Run system s₀ ls s) (h : (pid, p) ∈ s.signalled) :
    s.signalled = [(pid, p)] ∧ 1 < pid ∧ Reads s₀ ls (some pid) ∧ (Steady pid ls → p.Passes) := by
  obtain hs | ⟨pid', p', hs, ht, hd⟩ := (Known.run i r).left
  case inl => rw [hs] at h; contradiction
  case inr =>
    cases List.mem_singleton.mp (hs ▸ h)
    exact ⟨hs, ht.left, ht.right, hd⟩

-- The steps that a call has left at most.
def budget : StopPhase → Nat
  | .readPid         => 56
  | .readExe _       => 55
  | .readCmdline _ _ => 54
  | .checkExists _ _ => 53
  | .kill _          => 52
  | .wait _ looks    => looks + 1
  | .remove          => 1
  | .returned _      => 0

theorem readPid_budget {text : Option (List Char)} : budget (readPid text) < 56 := by
  simp only [readPid]
  split
  case h_1 => decide
  case h_2 =>
    split
    case h_1 => decide
    case h_2 => split <;> simp [budget]

theorem step_budget (h : s.step l = some s') :
    l.isOwn = true ∧ budget s'.phase < budget s.phase ∨ l.isOwn = false ∧ s'.phase = s.phase := by
  cases l <;> simp only [step] at h
  case readPid =>
    split at h <;> cases h
    case h_1 hp => exact .inl ⟨rfl, hp ▸ readPid_budget⟩
  case readExe | readCmdline =>
    split at h <;> cases h
    case h_1 hp => exact .inl ⟨rfl, by simp [hp, budget]⟩
  case checkExists =>
    split at h <;> cases h
    case h_1 hp => refine .inl ⟨rfl, ?_⟩; simp only [hp]; split <;> simp [budget]
  case kill =>
    split at h <;> cases h
    case h_1 hp =>
      refine .inl ⟨rfl, ?_⟩
      simp only [hp, kill]
      split
      case h_1 => split <;> simp [budget]
      case h_2 => simp [budget]
  case look =>
    split at h <;> cases h
    case h_1 hp =>
      refine .inl ⟨rfl, ?_⟩
      simp only [hp, Stopping.look]
      split
      case isTrue  => simp [budget]
      case isFalse => split <;> simp [budget]
  case remove =>
    split at h <;> cases h
    case h_1 hp => exact .inl ⟨rfl, by simp [hp, budget]⟩
  case spawn | exec  => split at h <;> cases h; exact .inr ⟨rfl, rfl⟩
  case exit | write  => cases h; exact .inr ⟨rfl, rfl⟩

theorem run_budget (r : Run system s₀ ls s) : (ls.filter Label.isOwn).length + budget s.phase ≤ budget s₀.phase := by
  induction r
  case refl => simp
  case step h _ hi =>
    obtain ⟨ho, hb⟩ | ⟨ho, hp⟩ := step_budget h
    case inl => rw [List.filter_cons_of_pos ho, List.length_cons]; omega
    case inr => rw [List.filter_cons_of_neg (by simp [ho])]; rwa [hp] at hi

-- A call that has not returned can go on.
theorem Known.goes_on (k : Known s₀ ls s) : (∃ stopped, s.phase = .returned stopped) ∨
    ∃ l, l.isOwn = true ∧ (s.step l).isSome := by
  cases hp : s.phase
  case readPid     => exact .inr ⟨.readPid, rfl, by simp [Stopping.step, hp]⟩
  case readExe     => exact .inr ⟨.readExe, rfl, by simp [Stopping.step, hp]⟩
  case readCmdline => exact .inr ⟨.readCmdline, rfl, by simp [Stopping.step, hp]⟩
  case checkExists => exact .inr ⟨.checkExists, rfl, by simp [Stopping.step, hp]⟩
  case kill        => exact .inr ⟨.kill true true, rfl, by simp [Stopping.step, hp]⟩
  case remove      => exact .inr ⟨.remove true, rfl, by simp [Stopping.step, hp]⟩
  case returned    => exact .inl ⟨_, rfl⟩
  case wait pid looks =>
    have hk := k.right
    simp only [hp] at hk
    obtain ⟨n, rfl⟩ := Nat.exists_eq_succ_of_ne_zero <| Nat.pos_iff_ne_zero.mp hk.right
    exact .inr ⟨.look, rfl, by simp [Stopping.step, hp]⟩

-- A call returns after at most 56 steps of its own, whatever goes on beside it. When it says that the daemon has
-- stopped, there was nobody to stop, or a moment after the PID file was read when nobody under its number passed for a
-- daemon.
theorem stops (i : Initial s₀) (r : Run system s₀ ls s) : (ls.filter Label.isOwn).length ≤ 56 ∧
    ((∃ stopped, s.phase = .returned stopped) ∨ ∃ l, l.isOwn = true ∧ (s.step l).isSome) ∧
    (s.phase = .returned true → Gone s₀ ls) := by
  have k := Known.run i r
  refine ⟨?_, k.goes_on, fun hp => ?_⟩
  case refine_1 =>
    have := run_budget r
    rw [i.left] at this
    exact Nat.le_of_add_right_le this
  case refine_2 => simpa only [hp] using k.right

-- The daemon exits after it has been signalled.
def daemon : Process where
  exe := some "/usr/bin/parsip".toList
  cmdline := some <| Process.commandLine [nameBytes "parsip", nameBytes "daemon"]

def shell : Process where
  exe := some "/bin/sh".toList
  cmdline := some <| Process.commandLine [nameBytes "sh"]

def running : Stopping where
  pidFile := some "42\n".toList
  procs := (∅ : Table Nat Process).insert 42 daemon
  phase := .readPid
  signalled := []

def stopping : List Label :=
  [.readPid, .readExe, .readCmdline, .checkExists, .kill true true, .look, .exit 42, .look, .remove true]

def stopped : Stopping :=
  (stopping.foldlM step running).getD running

theorem stopping_run : Run system running stopping stopped := by
  have hs : (stopping.foldlM step running).isSome := by decide +kernel
  exact .ofFn <| by rw [stopped, ← Option.get_eq_getD (h := hs), Option.some_get]

theorem signals_daemon_stopped : stopped.signalled = [(42, daemon)] ∧ 1 < 42 ∧ Reads running stopping (some 42) ∧
    (Steady 42 stopping → daemon.Passes) :=
  signals_daemon ⟨rfl, rfl⟩ stopping_run (by decide +kernel)

theorem stops_stopped : Gone running stopping :=
  (stops ⟨rfl, rfl⟩ stopping_run).right.right (by decide +kernel)

-- A shell that gets the number of the daemon just before the signal is sent.
def exchanging : List Label :=
  [.readPid, .readExe, .readCmdline, .checkExists, .exit 42, .spawn 42 shell, .kill true true]

theorem exchanging_signals : ∃ s, Run system running exchanging s ∧ s.signalled = [(42, shell)] ∧ ¬shell.Passes := by
  have hs : (exchanging.foldlM step running).map (·.signalled) = some [(42, shell)] := by decide +kernel
  obtain ⟨s, hs, he⟩ := Option.map_eq_some_iff.mp hs
  exact ⟨s, .ofFn hs, he, Process.isParsip_eq_false.mp (by decide +kernel)⟩

end Stopping
end Parsip
