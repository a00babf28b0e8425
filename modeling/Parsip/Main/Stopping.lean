import Parsip.Library.Decimal
import Parsip.Library.PosixPath
import Parsip.Library.Table
import Parsip.Library.Text
import Parsip.Library.Transition
import Parsip.Protocol.Basic

-- `stop_daemon`, one system call after another, among processes that come, go and turn into others.

namespace Parsip

open Transition

-- What `/proc` has about a process, none for what cannot be read. `exe` ends in " (deleted)" when the file is gone.
structure Process where
  exe : Option PosixPath.Path
  cmdline : Option Bytes
deriving DecidableEq

namespace Process

-- "daemon\0"
def daemonArg : Bytes :=
  [0x64, 0x61, 0x65, 0x6D, 0x6F, 0x6E, 0x00]

def isParsipExe (exe : Option PosixPath.Path) : Bool :=
  PosixPath.fileName (exe.getD []) = some "parsip".toList

def hasDaemonArg (cmdline : Option Bytes) : Bool :=
  (cmdline.getD []).tails.any daemonArg.isPrefixOf

def isParsip (p : Process) : Bool :=
  isParsipExe p.exe && hasDaemonArg p.cmdline

end Process

-- What `stop_daemon` does next.
inductive StopPhase
  | readPid
  | readExe (pid : Nat)
  | readCmdline (pid : Nat) (isParsipExe : Bool)
  | checkExists (pid : Nat) (isParsip : Bool)
  | kill (pid : Nat)
  -- So many looks at the process are left.
  | wait (pid : Nat) (looks : Nat)
  -- The PID file goes, and then `true` is returned.
  | remove
  | returned (stopped : Bool)
deriving DecidableEq

-- `pidFile` is none where `read_to_string` fails. `signalled` is a record of the processes that `kill` has
-- reached, with their numbers.
structure Stopping where
  pidFile : Option (List Char)
  procs : Table Nat Process
  phase : StopPhase
  signalled : List (Nat × Process)

namespace Stopping

-- The steps of the call, and then what others do meanwhile.
inductive Label
  | readPid
  | readExe
  | readCmdline
  | checkExists
  -- Whether the signal is sent, and whether the command is said to have succeeded.
  | kill (sent reported : Bool)
  | look
  | remove (removed : Bool)
  | spawn (pid : Nat) (p : Process)
  | exec (pid : Nat) (p : Process)
  | exit (pid : Nat)
  | write (text : Option (List Char))

-- `trim().parse::<i32>()`
def recordedPid (text : List Char) : Option Int :=
  Decimal.readInt (2 ^ 31) (Text.trim text)

def readPid : Option (List Char) → StopPhase
  | none      => .returned true
  | some text =>
    match recordedPid text with
    | none     => .remove
    | some pid => if pid ≤ 1 then .returned false else .readExe pid.toNat

def kill (s : Stopping) (pid : Nat) (sent reported : Bool) : Stopping :=
  match s.procs.lookup pid, sent with
  | some p, true =>
    { s with phase := if reported then .wait pid 50 else .returned false, signalled := s.signalled ++ [(pid, p)] }
  | _, _         => { s with phase := .returned false }

-- One turn of the loop that waits for the process to exit.
def look (s : Stopping) (pid looks : Nat) : StopPhase :=
  if ¬s.procs.contains pid then .remove
  else if looks = 0 then .returned false
  else .wait pid looks

def step (s : Stopping) : Label → Option Stopping
  | .readPid =>
    match s.phase with
    | .readPid => some { s with phase := readPid s.pidFile }
    | _        => none
  | .readExe =>
    match s.phase with
    | .readExe pid =>
      some { s with phase := .readCmdline pid <| Process.isParsipExe <| s.procs.lookup pid |>.bind (·.exe) }
    | _            => none
  | .readCmdline =>
    match s.phase with
    | .readCmdline pid isParsipExe =>
      let hasDaemonArg := Process.hasDaemonArg <| s.procs.lookup pid |>.bind (·.cmdline)
      some { s with phase := .checkExists pid (isParsipExe && hasDaemonArg) }
    | _                            => none
  | .checkExists =>
    match s.phase with
    | .checkExists pid isParsip => some { s with phase := if isParsip ∧ s.procs.contains pid then .kill pid else .remove }
    | _                         => none
  | .kill sent reported =>
    match s.phase with
    | .kill pid => some <| s.kill pid sent reported
    | _         => none
  | .look =>
    match s.phase with
    | .wait pid (looks + 1) =>
      some { s with phase := s.look pid looks }
    | _                     => none
  | .remove removed =>
    match s.phase with
    | .remove => some { s with phase := .returned true, pidFile := if removed then none else s.pidFile }
    | _       => none
  | .spawn pid p => if s.procs.contains pid then none else some { s with procs := s.procs.insert pid p }
  | .exec pid p  => if s.procs.contains pid then some { s with procs := s.procs.insert pid p } else none
  | .exit pid    => some { s with procs := s.procs.erase pid }
  | .write text  => some { s with pidFile := text }

-- The call begins.
def Initial (s : Stopping) : Prop :=
  s.phase = .readPid ∧ s.signalled = []

def system : System Stopping Label :=
  .ofFn Initial step

end Stopping
end Parsip
