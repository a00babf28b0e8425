import Parsip.Main.Settings

-- What the daemon is configured with.

namespace Parsip

inductive Setting
  | nickname (v : String)
  | shared (v : String)
  | downloads (v : String)
  | port (p : UInt16)
deriving DecidableEq

namespace Setting

def apply (c : Config) : Setting → Config
  | .nickname v  => { c with nickname := v }
  | .shared v    => { c with sharedDir := v.toList }
  | .downloads v => { c with downloadsDir := v.toList }
  | .port p      => { c with listenPort := p }

-- Arguments that say some settings one after another.
inductive Spells : List String → List Setting → Prop
  | nil : Spells [] []
  | nickname {args ss} (v : String) (rest : Spells args ss) : Spells ("--nickname" :: v :: args) (.nickname v :: ss)
  | shared {args ss} (v : String) (rest : Spells args ss) : Spells ("--shared" :: v :: args) (.shared v :: ss)
  | downloads {args ss} (v : String) (rest : Spells args ss) : Spells ("--downloads" :: v :: args) (.downloads v :: ss)
  | port {arg p args ss} (word : parsePort arg = some p) (rest : Spells args ss) : Spells (arg :: args) (.port p :: ss)

-- Arguments that start with none, and what is said about that.
inductive Wrong : List String → String → Prop
  | nickname : Wrong ["--nickname"] "Error: --nickname requires a value"
  | shared : Wrong ["--shared"] "Error: --shared requires a value"
  | downloads : Wrong ["--downloads"] "Error: --downloads requires a value"
  | other {arg : String} {args : List String} (flag : arg ∉ ["--nickname", "--shared", "--downloads"]) (word : parsePort arg = none) :
    Wrong (arg :: args) ("Error: unrecognized argument or invalid port: " ++ arg)

end Setting

open Setting

variable {c c' : Config} {args rest : List String} {arg m key val : String} {ss : List Setting}

theorem parsePort_flag {flag : String} (h : flag ∈ ["--nickname", "--shared", "--downloads"]) : parsePort flag = none := by
  simp only [List.mem_cons, List.not_mem_nil, or_false] at h
  obtain rfl | rfl | rfl := h <;> decide +kernel

theorem daemonArgs_word (h : arg ∉ ["--nickname", "--shared", "--downloads"]) :
    daemonArgs c (arg :: args) = match parsePort arg with
      | some p => daemonArgs { c with listenPort := p } args
      | none   => .error <| "Error: unrecognized argument or invalid port: " ++ arg := by
  simp only [List.mem_cons, List.not_mem_nil, or_false, not_or] at h
  obtain ⟨h₁, h₂, h₃⟩ := h
  cases hp : parsePort arg
  all_goals
    rw [daemonArgs, hp]
    case x_1 | x_3 | x_5 => intros; contradiction
    case x_2 | x_4 | x_6 => intros; contradiction

-- The loop takes the settings one after another.
theorem daemonArgs_append (h : Spells args ss) : daemonArgs c (args ++ rest) = daemonArgs (ss.foldl apply c) rest := by
  induction h generalizing c
  case nil               => rfl
  case nickname rest hi  => exact hi
  case shared rest hi    => exact hi
  case downloads rest hi => exact hi
  case port hp rest hi =>
    rw [List.cons_append, daemonArgs_word fun hf => by rw [parsePort_flag hf] at hp; contradiction, hp]
    exact hi

theorem daemonArgs_wrong (h : Wrong args m) : daemonArgs c args = .error m := by
  cases h
  case nickname | shared | downloads => rfl
  case other hf hp                   => rw [daemonArgs_word hf, hp]

-- Arguments are settings as far as they go.
theorem spelled_or_wrong (c : Config) (args : List String) :
    ∃ pre rest ss, args = pre ++ rest ∧ Spells pre ss ∧ (rest = [] ∨ ∃ m, Wrong rest m) := by
  induction c, args using daemonArgs.induct
  case case1 => exact ⟨[], [], [], rfl, .nil, .inl rfl⟩
  case case2 => exact ⟨[], _, [], rfl, .nil, .inr ⟨_, .nickname⟩⟩
  case case3 hi =>
    obtain ⟨pre, rest, ss, rfl, hs, hr⟩ := hi
    exact ⟨_ :: _ :: pre, rest, _, rfl, .nickname _ hs, hr⟩
  case case4 => exact ⟨[], _, [], rfl, .nil, .inr ⟨_, .shared⟩⟩
  case case5 hi =>
    obtain ⟨pre, rest, ss, rfl, hs, hr⟩ := hi
    exact ⟨_ :: _ :: pre, rest, _, rfl, .shared _ hs, hr⟩
  case case6 => exact ⟨[], _, [], rfl, .nil, .inr ⟨_, .downloads⟩⟩
  case case7 hi =>
    obtain ⟨pre, rest, ss, rfl, hs, hr⟩ := hi
    exact ⟨_ :: _ :: pre, rest, _, rfl, .downloads _ hs, hr⟩
  case case8 hp hi =>
    obtain ⟨pre, rest, ss, rfl, hs, hr⟩ := hi
    exact ⟨_ :: pre, rest, _, rfl, .port hp hs, hr⟩
  case case9 arg args h₁ h₂ h₃ h₄ h₅ h₆ hp =>
    refine ⟨[], _, [], rfl, .nil, .inr ⟨_, .other (fun hf => ?_) hp⟩⟩
    simp only [List.mem_cons, List.not_mem_nil, or_false] at hf
    obtain rfl | rfl | rfl := hf <;> cases args
    case inl.nil       => exact h₁ rfl rfl
    case inl.cons      => exact h₂ _ _ rfl rfl
    case inr.inl.nil   => exact h₃ rfl rfl
    case inr.inl.cons  => exact h₄ _ _ rfl rfl
    case inr.inr.nil   => exact h₅ rfl rfl
    case inr.inr.cons  => exact h₆ _ _ rfl rfl

theorem daemonArgs_ok_iff : daemonArgs c args = .ok c' ↔ ∃ ss, Spells args ss ∧ c' = ss.foldl apply c := by
  constructor
  case mpr =>
    rintro ⟨ss, hs, rfl⟩
    have ha : daemonArgs c (args ++ []) = daemonArgs (ss.foldl apply c) [] := daemonArgs_append hs
    rwa [List.append_nil] at ha
  case mp =>
    intro h
    obtain ⟨pre, rest, ss, rfl, hs, rfl | ⟨m, hm⟩⟩ := spelled_or_wrong c args
    case inr => rw [daemonArgs_append hs, daemonArgs_wrong hm] at h; contradiction
    case inl =>
      rw [daemonArgs_append hs] at h
      cases h
      exact ⟨ss, by rwa [List.append_nil], rfl⟩

theorem daemonArgs_error_iff : daemonArgs c args = .error m ↔
    ∃ pre rest ss, args = pre ++ rest ∧ Spells pre ss ∧ Wrong rest m := by
  constructor
  case mpr =>
    rintro ⟨pre, rest, ss, rfl, hs, hm⟩
    rw [daemonArgs_append hs, daemonArgs_wrong hm]
  case mp =>
    intro h
    obtain ⟨pre, rest, ss, rfl, hs, rfl | ⟨m', hm⟩⟩ := spelled_or_wrong c args
    case inl => rw [daemonArgs_append hs] at h; contradiction
    case inr =>
      rw [daemonArgs_append hs, daemonArgs_wrong hm] at h
      cases h
      exact ⟨pre, rest, ss, rfl, hs, hm⟩

namespace Setting

-- The setting that `config set` takes from its key and its value.
def ofKey (key val : String) : Option Setting :=
  match key with
  | "nickname"                    => some <| .nickname val
  | "shared" | "shared_dir"       => some <| .shared val
  | "downloads" | "downloads_dir" => some <| .downloads val
  | "port" | "listen_port"        => parsePort val |>.map .port
  | _                             => none

def ofArgs : List String → Option Setting
  | "set" :: key :: val :: _ => ofKey key val
  | _                        => none

end Setting

theorem Config.set_cases (c : Config) (key val : String) : (∃ s, ofKey key val = some s ∧ c.set key val = .ok (s.apply c)) ∨
    ofKey key val = none ∧ ∃ m, c.set key val = .error m := by
  simp only [Config.set]
  split
  case h_1 | h_2 | h_3 | h_4 | h_5 => exact .inl ⟨_, rfl, rfl⟩
  case h_6 | h_7 =>
    simp only [ofKey]
    cases parsePort val
    case none   => exact .inr ⟨rfl, _, rfl⟩
    case some p => exact .inl ⟨_, rfl, rfl⟩
  case h_8 =>
    refine .inr ⟨?_, _, rfl⟩
    simp only [ofKey]

-- A command on the configuration, and what fails during it.
structure ConfigCall where
  args : List String
  io : ConfigFaults

namespace ConfigCall

-- It can read the file, and does not get stuck in writing it.
def Sound (call : ConfigCall) : Prop :=
  call.io.read = none ∧ call.io.write = none

-- The setting that it saves.
def saved (call : ConfigCall) : List Setting :=
  if call.io.createDir = none then (ofArgs call.args).toList else []

def run [Toml] (dir : PosixPath.Path) (file : Option String) (call : ConfigCall) : Option String :=
  (configCommand dir call.io file call.args).snd

variable [Toml] {dir : PosixPath.Path} {file : Option String} {call : ConfigCall} {calls : List ConfigCall} {io : ConfigFaults}

theorem load_congr (h : io.read = none) : Config.load dir io file = .load dir .none file := by
  simp only [Config.load, h, ConfigFaults.none]

variable [LawfulToml]

theorem load_save (c : Config) (dir : PosixPath.Path) (file : Option String) (h : io.write = none) :
    Config.load dir .none (c.save io file).snd = if io.createDir = none then c else .load dir .none file := by
  obtain ⟨content, ht, hf⟩ := LawfulToml.readable c
  simp only [Config.save, ht, h]
  cases io.createDir
  case none   => simp [Config.load, ConfigFaults.none, hf, Except.toOption]
  case some e => rfl

theorem load_run (h : call.Sound) : Config.load dir .none (call.run dir file) =
    call.saved.foldl apply (.load dir .none file) := by
  obtain ⟨args, io⟩ := call
  obtain ⟨hr, hw⟩ := h
  have none (h : ofArgs args = none) : saved ⟨args, io⟩ = [] := by simp [saved, h]
  simp only [run, configCommand]
  split
  case h_1 => rw [none rfl]; rfl
  case h_3 tail hn =>
    have hs : ofArgs ("set" :: tail) = .none := by
      rw [ofArgs]
      exact fun key val _ he => hn key val _ (List.cons.inj he).right
    rw [none hs]
    rfl
  case h_4 =>
    rw [none (by simp only [ofArgs])]
    rfl
  case h_2 key val tail =>
    rw [load_congr hr]
    obtain ⟨s, hs, hc⟩ | ⟨hs, m, hc⟩ := Config.set_cases (.load dir .none file) key val
    case inr => rw [none hs, hc]; rfl
    case inl =>
      have hl := load_save (s.apply <| .load dir .none file) dir file hw
      rw [hc]
      simp only [saved, ofArgs, hs]
      split
      case h_1 he | h_2 he =>
        rw [he] at hl
        rw [hl]
        split <;> rfl

-- What is configured is what was, with the settings that have been saved.
theorem load_runs (h : ∀ call ∈ calls, call.Sound) : Config.load dir .none (calls.foldl (run dir) file) =
    (calls.flatMap saved).foldl apply (.load dir .none file) := by
  induction calls generalizing file
  case nil => rfl
  case cons call calls hi =>
    obtain ⟨hc, h⟩ := List.forall_mem_cons.mp h
    rw [List.foldl_cons, hi h, load_run hc, List.flatMap_cons, List.foldl_append]

end ConfigCall

section

open ConfigCall

variable [Toml] [LawfulToml] {dir : PosixPath.Path} {file : Option String} {io : ConfigFaults} {calls : List ConfigCall}

-- The daemon gets what was configured at first, with the settings of the commands since then and those of its
-- arguments, the later ones over the earlier ones. It does not start when an argument is not part of a setting.
theorem daemonMain_exact (h : ∀ call ∈ calls, call.Sound) (hr : io.read = none) :
    (∀ cmd c, daemonMain dir io (calls.foldl (run dir) file) args = .ok (cmd, c) ↔
      cmd = (daemonCommand args).fst ∧ ∃ ss, Spells (daemonCommand args).snd ss ∧
        c = (calls.flatMap saved ++ ss).foldl apply (.load dir .none file)) ∧
    ∀ m, daemonMain dir io (calls.foldl (run dir) file) args = .error m ↔
      ∃ pre rest ss, (daemonCommand args).snd = pre ++ rest ∧ Spells pre ss ∧ Wrong rest m := by
  simp only [daemonMain, load_congr hr, load_runs h, List.foldl_append]
  constructor
  case left =>
    intro cmd c
    rw [← daemonArgs_ok_iff]
    cases daemonArgs _ (daemonCommand args).snd <;> simp [Except.map, eq_comm]
  case right =>
    intro m
    rw [← daemonArgs_error_iff]
    cases daemonArgs _ (daemonCommand args).snd <;> simp [Except.map]

end

-- Two settings are saved, a third one is not, and the daemon is restarted with two more.
def settingCalls : List ConfigCall := [
  ⟨["set", "nickname", "Ada"], .none⟩,
  ⟨["set", "port", "70000"], .none⟩,
  ⟨["set", "listen_port", "7000"], .none⟩
]

theorem daemonMain_restart : @daemonMain Toml.plain "/p".toList .none
    (settingCalls.foldl (@ConfigCall.run Toml.plain "/p".toList) none) ["restart", "--shared", "/srv", "8000"] =
    .ok (.restart, { Config.default "/p".toList with listenPort := 8000, sharedDir := "/srv".toList, nickname := "Ada" }) := by
  have sound : ∀ call ∈ settingCalls, call.Sound := by
    simp only [settingCalls, List.forall_mem_cons]
    exact ⟨⟨rfl, rfl⟩, ⟨rfl, rfl⟩, ⟨rfl, rfl⟩, List.forall_mem_nil _⟩
  have command : daemonCommand ["restart", "--shared", "/srv", "8000"] = (.restart, ["--shared", "/srv", "8000"]) := by
    decide +kernel
  have port : parsePort "8000" = some 8000 := by decide +kernel
  have exact := (@daemonMain_exact ["restart", "--shared", "/srv", "8000"] Toml.plain Toml.plain_lawful "/p".toList none
    .none settingCalls sound rfl).left
  rw [command] at exact
  refine (exact _ _).mpr ⟨rfl, _, .shared "/srv" <| .port port .nil, ?_⟩
  decide +kernel

end Parsip
