import Parsip.Library.Decimal
import Parsip.Library.PosixPath
import Parsip.Library.Text
import Parsip.Protocol.Basic

-- The configuration: its file, the commands that show and change it, and the arguments that override it.

namespace Parsip

structure Config where
  listenPort : UInt16
  sharedDir : PosixPath.Path
  downloadsDir : PosixPath.Path
  logFile : PosixPath.Path
  nickname : String
deriving DecidableEq

-- What is used of `toml`. What a text leaves out is as in the default configuration.
class Toml where
  toString : Config → Except Error String
  fromStr (default : Config) : String → Except Error Config

-- What it promises for paths that are text: a configuration can be written, and read again.
class LawfulToml [Toml] : Prop where
  readable : ∀ c, ∃ content, Toml.toString c = .ok content ∧ ∀ default, Toml.fromStr default content = .ok c

-- A stand-in that keeps the law, for runs on concrete inputs. It writes what `toml` does for texts without quotation
-- marks, backslashes and control characters. For others `toml` has literal strings and further escapes, while this one
-- just puts a backslash before a quotation mark or a backslash.
namespace Toml

def quote (v : List Char) : List Char :=
  v.flatMap fun c => if c = '"' ∨ c = '\\' then ['\\', c] else [c]

def unquote : List Char → Option (List Char × List Char)
  | '"' :: '\n' :: s => some ([], s)
  | '\\' :: c :: s  => (unquote s).map fun (v, s) => (c :: v, s)
  | c :: s           => (unquote s).map fun (v, s) => (c :: v, s)
  | []               => none

def writeField (name : String) (v : List Char) : List Char :=
  name.toList ++ " = \"".toList ++ quote v ++ "\"\n".toList

def readField (name : String) (s : List Char) : Option (List Char × List Char) :=
  Text.stripPrefix (name.toList ++ " = \"".toList) s |>.bind unquote

def writePort (name : String) (port : UInt16) : List Char :=
  name.toList ++ " = ".toList ++ (Nat.toDigits 10 port.toNat ++ ['\n'])

def readPort (name : String) (s : List Char) : Option (UInt16 × List Char) := do
  let s ← Text.stripPrefix (name.toList ++ " = ".toList) s
  let port ← Decimal.readNat (2 ^ 16) (s.takeWhile Char.isDigit)
  let s ← Text.stripPrefix ['\n'] (s.dropWhile Char.isDigit)
  some (.ofNat port, s)

def writeConfig (c : Config) : List Char :=
  writePort "listen_port" c.listenPort ++ (writeField "shared_dir" c.sharedDir ++ (writeField "downloads_dir" c.downloadsDir ++
    (writeField "log_file" c.logFile ++ writeField "nickname" c.nickname.toList)))

def readConfig (s : List Char) : Option Config := do
  let (listenPort, s) ← readPort "listen_port" s
  let (sharedDir, s) ← readField "shared_dir" s
  let (downloadsDir, s) ← readField "downloads_dir" s
  let (logFile, s) ← readField "log_file" s
  let (nickname, _) ← readField "nickname" s
  some { listenPort, sharedDir, downloadsDir, logFile, nickname := String.ofList nickname }

abbrev plain : Toml where
  toString c := .ok <| String.ofList <| writeConfig c
  fromStr _ content :=
    match readConfig content.toList with
    | some c => .ok c
    | none   => .error ⟨.invalidData, "TOML parse error"⟩

theorem unquote_quote {v s : List Char} : unquote (quote v ++ '"' :: '\n' :: s) = some (v, s) := by
  induction v
  case nil => rfl
  case cons c v hi =>
    simp only [quote, List.flatMap_cons] at hi ⊢
    split
    case isTrue => simp only [List.cons_append, List.nil_append, unquote, hi, Option.map_some]
    case isFalse h =>
      rw [not_or] at h
      rw [List.append_assoc, List.singleton_append, unquote, hi, Option.map_some]
      case x_1 => exact fun _ hc _ => h.left hc
      case x_2 => exact fun _ _ hc _ => h.right hc

theorem readField_writeField {name : String} {v s : List Char} : readField name (writeField name v ++ s) = some (v, s) := by
  have h : writeField name v ++ s = (name.toList ++ " = \"".toList) ++ (quote v ++ '"' :: '\n' :: s) := by
    simp [writeField]
  rw [readField, h, Text.stripPrefix_append, Option.bind_some, unquote_quote]

theorem readPort_writePort {name : String} {port : UInt16} {s : List Char} :
    readPort name (writePort name port ++ s) = some (port, s) := by
  have hd : ∀ c ∈ Nat.toDigits 10 port.toNat, c.isDigit := fun c hc =>
    Nat.isDigit_of_mem_toDigits (by decide) (by decide) hc
  have hw : writePort name port ++ s = (name.toList ++ " = ".toList) ++ (Nat.toDigits 10 port.toNat ++ ('\n' :: s)) := by
    simp only [writePort, List.append_assoc, List.singleton_append]
  have ht : (Nat.toDigits 10 port.toNat ++ ('\n' :: s)).takeWhile Char.isDigit = Nat.toDigits 10 port.toNat := by
    rw [List.takeWhile_append_of_pos hd, List.takeWhile_cons_of_neg (by decide), List.append_nil]
  have hr : (Nat.toDigits 10 port.toNat ++ ('\n' :: s)).dropWhile Char.isDigit = '\n' :: s := by
    rw [List.dropWhile_append_of_pos hd, List.dropWhile_cons_of_neg (by decide)]
  have hn : Text.stripPrefix ['\n'] ('\n' :: s) = some s := @Text.stripPrefix_append s ['\n']
  have hp : Decimal.readNat (2 ^ 16) (Nat.toDigits 10 port.toNat) = some port.toNat :=
    Decimal.readNat_toDigits port.toNat_lt
  rw [hw, readPort, Text.stripPrefix_append]
  simp only [Option.bind_eq_bind, Option.bind_some]
  rw [ht, hr, hn, hp]
  simp only [Option.bind_some, UInt16.ofNat_toNat]

theorem readConfig_writeConfig {c : Config} : readConfig (writeConfig c) = some c := by
  have hn : readField "nickname" (writeField "nickname" c.nickname.toList ++ []) = some (c.nickname.toList, []) :=
    readField_writeField
  rw [List.append_nil] at hn
  simp only [readConfig, writeConfig, readPort_writePort, readField_writeField, hn, Option.bind_eq_bind, Option.bind_some,
    String.ofList_toList]

theorem plain_lawful : @LawfulToml plain :=
  @LawfulToml.mk plain fun c => ⟨_, rfl, fun _ => by
    show (match readConfig (String.ofList (writeConfig c)).toList with
      | some c => Except.ok c
      | none   => .error _) = _
    rw [String.toList_ofList, readConfig_writeConfig]⟩

end Toml

-- What the file system refuses during one command. A write that fails leaves something behind.
structure ConfigFaults where
  read : Option Error
  createDir : Option Error
  write : Option (Error × Option String)

def ConfigFaults.none : ConfigFaults :=
  ⟨.none, .none, .none⟩

-- `parse::<u16>`
def parsePort (s : String) : Option UInt16 :=
  Decimal.readNat (2 ^ 16) s.toList |>.map .ofNat

namespace Config

-- `dir` is the directory of parsip everywhere.
def default (dir : PosixPath.Path) : Config where
  listenPort := 9000
  sharedDir := PosixPath.join dir "shared".toList
  downloadsDir := PosixPath.join dir "downloads".toList
  logFile := PosixPath.join dir "parsip.log".toList
  nickname := "Anonymous"

-- `file` is the content of the file, if there is one.
def load [Toml] (dir : PosixPath.Path) (io : ConfigFaults) (file : Option String) : Config :=
  match io.read, file with
  | .none, some content => (Toml.fromStr (default dir) content).toOption.getD (default dir)
  | _, _                => default dir

def save [Toml] (c : Config) (io : ConfigFaults) (file : Option String) : Except Error Unit × Option String :=
  match io.createDir with
  | some e => (.error e, file)
  | .none  =>
    match Toml.toString c with
    | .error e    => (.error ⟨.invalidData, e.message⟩, file)
    | .ok content =>
      match io.write with
      | some (e, left) => (.error e, left)
      | .none          => (.ok (), some content)

-- The settings that `config set` knows, and what it says when a setting is not accepted.
def set (c : Config) (key val : String) : Except String Config :=
  match key with
  | "nickname"                    => .ok { c with nickname := val }
  | "shared" | "shared_dir"       => .ok { c with sharedDir := val.toList }
  | "downloads" | "downloads_dir" => .ok { c with downloadsDir := val.toList }
  | "port" | "listen_port"        =>
    match parsePort val with
    | some p => .ok { c with listenPort := p }
    | none   => .error "Invalid port number."
  | _ => .error <| "Unknown config key: " ++ key

end Config

inductive ConfigOutput
  | text (text : String)
  | shown (c : Config)
  | updated
  | failed (e : Error)
deriving DecidableEq

-- `parsip config` with its further arguments: what it prints, and the file after it.
def configCommand [Toml] (dir : PosixPath.Path) (io : ConfigFaults) (file : Option String) :
    List String → ConfigOutput × Option String
  | "show" :: _              => (.shown <| .load dir io file, file)
  | "set" :: key :: val :: _ =>
    match (Config.load dir io file).set key val with
    | .error text => (.text text, file)
    | .ok c       =>
      match c.save io file with
      | (.ok (), file)   => (.updated, file)
      | (.error e, file) => (.failed e, file)
  | "set" :: _               => (.text "Usage: parsip config set <key> <value>", file)
  | _                        => (.text "Usage: parsip config <show|set> [key] [value]", file)

inductive DaemonCommand
  | start
  | stop
  | restart
deriving DecidableEq

def daemonCommand : List String → DaemonCommand × List String
  | "start" :: args   => (.start, args)
  | "stop" :: args    => (.stop, args)
  | "restart" :: args => (.restart, args)
  | args              => (.start, args)

-- The loop over the arguments of `parsip daemon`. On an error the program exits.
def daemonArgs (c : Config) : List String → Except String Config
  | []                         => .ok c
  | ["--nickname"]             => .error "Error: --nickname requires a value"
  | "--nickname" :: v :: args  => daemonArgs { c with nickname := v } args
  | ["--shared"]               => .error "Error: --shared requires a value"
  | "--shared" :: v :: args    => daemonArgs { c with sharedDir := v.toList } args
  | ["--downloads"]            => .error "Error: --downloads requires a value"
  | "--downloads" :: v :: args => daemonArgs { c with downloadsDir := v.toList } args
  | arg :: args                =>
    match parsePort arg with
    | some p => daemonArgs { c with listenPort := p } args
    | none   => .error <| "Error: unrecognized argument or invalid port: " ++ arg

-- `parsip daemon`: what is to be done with which configuration.
def daemonMain [Toml] (dir : PosixPath.Path) (io : ConfigFaults) (file : Option String) (args : List String) :
    Except String (DaemonCommand × Config) :=
  let (cmd, args) := daemonCommand args
  daemonArgs (.load dir io file) args |>.map (cmd, ·)

end Parsip
