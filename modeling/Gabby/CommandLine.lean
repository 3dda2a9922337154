import Gabby.Decimal
import Gabby.Exec
import Gabby.JsonParser
import Gabby.ServiceRequest
import Gabby.ThreadPool

/-! The command line: the flags and their values, the configuration that they make, and which
of the accepted command lines give a server that can start. -/
namespace Gabby

inductive LogLevel
  | off | error | info | warn | debug
  deriving DecidableEq

structure ServerConfig where
  port : ℤ
  readTimeoutMillis : ℤ
  writeTimeoutMillis : ℤ
  workerThreads : UInt32
  deriving DecidableEq

structure Config where
  logLevel : LogLevel
  serverConfig : ServerConfig
  modelDir : Bytes
  deriving DecidableEq

namespace Main

/-- How a command line is refused: `Die` ends the process, `std::stoi` throws
`std::invalid_argument` or `std::out_of_range`, and there may be no model directory. -/
inductive Exit
  | die (message : Bytes)
  | stoi (text : Bytes)
  | runtimeError (what : Bytes)
  deriving DecidableEq

/-- What the process finds around it. A directory that cannot be listed has the text of its
error. -/
structure Environment where
  hardwareConcurrency : UInt32
  home : Option Bytes
  list : Bytes → Except Bytes (List Bytes)

/-! ## The program -/

def defaultConfig (env : Environment) : Config where
  logLevel := .off
  serverConfig := {
    port := 8080
    readTimeoutMillis := 5000
    writeTimeoutMillis := 10000
    workerThreads := env.hardwareConcurrency - 1 }
  modelDir := []

/-- The value of the argument if it is this flag, and the arguments after the value. -/
def parseStrFlag (flag arg : Bytes) (args : List Bytes) :
    Except (Stop Exit) (Option (Bytes × List Bytes)) :=
  if arg ≠ flag then .ok none
  else match args with
    | [] => .error (.throw (.die (ascii "missing argument for " ++ flag)))
    | val::rest => .ok (some (val,rest))

def parseIntFlag (flag arg : Bytes) (args : List Bytes) :
    Except (Stop Exit) (Option (ℤ × List Bytes)) := do
  match ← parseStrFlag flag arg args with
  | none => .ok none
  | some (text,rest) => match stoi text with
    | none => .error (.throw (.stoi text))
    | some n => .ok (some (n,rest))

/-- One round of the loop in `ParseConfig`. An `int` that is assigned to an `unsigned int` is
taken modulo 2 ^ 32. -/
def parseArg (config : Config) (arg : Bytes) (args : List Bytes) :
    Except (Stop Exit) (Config × List Bytes) := do
  let server := config.serverConfig
  match ← parseIntFlag (ascii "--port") arg args with
  | some (n,rest) => .ok ({ config with serverConfig := { server with port := n } },rest)
  | none =>
  match ← parseIntFlag (ascii "--read_timeout_millis") arg args with
  | some (n,rest) =>
    .ok ({ config with serverConfig := { server with readTimeoutMillis := n } },rest)
  | none =>
  match ← parseIntFlag (ascii "--write_timeout_millis") arg args with
  | some (n,rest) =>
    .ok ({ config with serverConfig := { server with writeTimeoutMillis := n } },rest)
  | none =>
  if arg = ascii "--info" then .ok ({ config with logLevel := .info },args)
  else if arg = ascii "--warn" then .ok ({ config with logLevel := .warn },args)
  else if arg = ascii "--debug" then .ok ({ config with logLevel := .debug },args)
  else
  match ← parseIntFlag (ascii "--workers") arg args with
  | some (n,rest) =>
    .ok ({ config with serverConfig := { server with workerThreads := .ofInt n } },rest)
  | none =>
  match ← parseStrFlag (ascii "--model-dir") arg args with
  | some (dir,rest) => .ok ({ config with modelDir := dir },rest)
  | none => .error (.throw (.die (ascii "invalid argument: " ++ arg)))

/-- The loop over the arguments; every round uses up one or two. -/
def parseArgs : ℕ → Config → List Bytes → Except (Stop Exit) Config
  | _, config, [] => .ok config
  | 0, _, _::_ => .error .outOfFuel
  | n+1, config, arg::args => do
    let (config,rest) ← parseArg config arg args
    parseArgs n config rest

/-- `path /= rest` for a relative `rest`. -/
def appendPath (path rest : Bytes) : Bytes :=
  if path.getLast?.any (· ≠ chr '/') then path ++ chr '/' :: rest else path ++ rest

def findDefaultModelDir (env : Environment) : Except (Stop Exit) Bytes :=
  match env.home with
  | none => .error (.throw (.runtimeError (ascii "env var HOME is unset")))
  | some home =>
    let snapshotsDir := appendPath home (ascii
      ".cache/huggingface/hub/models--meta-llama--Llama-3.2-1B-Instruct/snapshots")
    match env.list snapshotsDir with
    | .error what => .error (.throw (.runtimeError
        (ascii "can't access model dir at " ++ snapshotsDir ++ ascii ": " ++ what)))
    | .ok [] => .error (.throw (.runtimeError (ascii "no snapshots found in " ++ snapshotsDir)))
    | .ok (dir::_) => .ok dir

/-- `ParseConfig`; the first argument is the name of the program. -/
def parseConfig (env : Environment) (argv : List Bytes) : Except (Stop Exit) Config := do
  let config ← parseArgs argv.tail.length (defaultConfig env) argv.tail
  if config.modelDir.isEmpty then
    let dir ← findDefaultModelDir env
    pure { config with modelDir := dir }
  else pure config

/-! ## Settings -/

inductive IntFlag
  | port | readTimeout | writeTimeout | workers
  deriving DecidableEq

def IntFlag.text : IntFlag → Bytes
  | port => ascii "--port"
  | readTimeout => ascii "--read_timeout_millis"
  | writeTimeout => ascii "--write_timeout_millis"
  | workers => ascii "--workers"

inductive Setting
  | int (flag : IntFlag) (n : ℤ)
  | level (level : LogLevel)
  | modelDir (dir : Bytes)

def levelFlag : LogLevel → Option Bytes
  | .info => some (ascii "--info")
  | .warn => some (ascii "--warn")
  | .debug => some (ascii "--debug")
  | _ => none

inductive Begins : List Bytes → Setting → List Bytes → Prop
  | int (flag : IntFlag) {text : Bytes} {n : ℤ} {rest : List Bytes} (hn : stoi text = some n) :
      Begins (flag.text::text::rest) (.int flag n) rest
  | level {level : LogLevel} {arg : Bytes} {rest : List Bytes} (hl : levelFlag level = some arg) :
      Begins (arg::rest) (.level level) rest
  | modelDir (dir : Bytes) (rest : List Bytes) :
      Begins (ascii "--model-dir"::dir::rest) (.modelDir dir) rest

inductive Spells : List Bytes → List Setting → Prop
  | nil : Spells [] []
  | cons {args rest : List Bytes} {s : Setting} {ss : List Setting} (hb : Begins args s rest)
      (h : Spells rest ss) : Spells args (s::ss)

end Main

open Main in
def Config.set (config : Config) : Setting → Config
  | .int .port n => { config with serverConfig := { config.serverConfig with port := n } }
  | .int .readTimeout n =>
    { config with serverConfig := { config.serverConfig with readTimeoutMillis := n } }
  | .int .writeTimeout n =>
    { config with serverConfig := { config.serverConfig with writeTimeoutMillis := n } }
  | .int .workers n =>
    { config with serverConfig := { config.serverConfig with workerThreads := .ofInt n } }
  | .level level => { config with logLevel := level }
  | .modelDir dir => { config with modelDir := dir }

namespace Main

section Flags

variable {flag arg : Bytes} {args rest : List Bytes} {config config' : Config}

theorem parseStrFlag_eq_none : parseStrFlag flag arg args = .ok none ↔ arg ≠ flag := by
  unfold parseStrFlag
  by_cases h : arg = flag
  · rw [if_neg (by simp [h])]
    cases args <;> simp [h]
  · simp [h]

theorem parseStrFlag_eq_some {val : Bytes} :
    parseStrFlag flag arg args = .ok (some (val,rest)) ↔ arg = flag ∧ args = val::rest := by
  unfold parseStrFlag
  by_cases h : arg = flag
  · rw [if_neg (by simp [h])]
    cases args <;> simp [h]
  · simp [h]

theorem parseIntFlag_eq_none : parseIntFlag flag arg args = .ok none ↔ arg ≠ flag := by
  rw [parseIntFlag,bind_eq_ok]
  constructor
  · rintro ⟨_ | ⟨text,rest⟩,h,h'⟩
    · exact parseStrFlag_eq_none.mp h
    · cases hn : stoi text <;> simp [hn] at h'
  · exact fun h => ⟨none,parseStrFlag_eq_none.mpr h,rfl⟩

theorem parseIntFlag_eq_some {n : ℤ} : parseIntFlag flag arg args = .ok (some (n,rest)) ↔
    arg = flag ∧ ∃ text, args = text::rest ∧ stoi text = some n := by
  rw [parseIntFlag,bind_eq_ok]
  constructor
  · rintro ⟨_ | ⟨text,rest'⟩,h,h'⟩
    · cases h'
    · obtain ⟨hf,ha⟩ := parseStrFlag_eq_some.mp h
      cases hn : stoi text with
      | none => simp [hn] at h'
      | some m =>
        simp only [hn,Except.ok.injEq,Option.some.injEq,Prod.mk.injEq] at h'
        obtain ⟨rfl,rfl⟩ := h'
        exact ⟨hf,text,ha,hn⟩
  · rintro ⟨hf,text,ha,hn⟩
    exact ⟨some (text,rest),parseStrFlag_eq_some.mpr ⟨hf,ha⟩,by simp [hn]⟩

theorem parseIntFlag_ne (h : arg ≠ flag) : parseIntFlag flag arg args = .ok none :=
  parseIntFlag_eq_none.mpr h

theorem parseIntFlag_self {text : Bytes} {n : ℤ} (h : stoi text = some n) :
    parseIntFlag flag flag (text::rest) = .ok (some (n,rest)) :=
  parseIntFlag_eq_some.mpr ⟨rfl,text,rfl,h⟩

theorem parseArg_of_begins {s : Setting} (h : Begins (arg::args) s rest) :
    parseArg config arg args = .ok (config.set s,rest) := by
  cases h with
  | int flag hn =>
    cases flag with
    | port =>
      rw [parseArg,IntFlag.text,parseIntFlag_self hn]
      rfl
    | readTimeout =>
      rw [parseArg,IntFlag.text,parseIntFlag_ne (by decide),ok_bind,parseIntFlag_self hn]
      rfl
    | writeTimeout =>
      rw [parseArg,IntFlag.text,parseIntFlag_ne (by decide),ok_bind,parseIntFlag_ne (by decide),
        ok_bind,parseIntFlag_self hn]
      rfl
    | workers =>
      rw [parseArg,IntFlag.text,parseIntFlag_ne (by decide),ok_bind,parseIntFlag_ne (by decide),
        ok_bind,parseIntFlag_ne (by decide),ok_bind]
      dsimp only
      rw [if_neg (by decide),if_neg (by decide),if_neg (by decide),parseIntFlag_self hn]
      rfl
  | @level level _ _ hl =>
    cases level with
    | off | error => cases hl
    | _ =>
      cases hl
      rw [parseArg,parseIntFlag_ne (by decide),ok_bind,parseIntFlag_ne (by decide),ok_bind,
        parseIntFlag_ne (by decide),ok_bind]
      rfl
  | modelDir dir =>
    rw [parseArg,parseIntFlag_ne (by decide),ok_bind,parseIntFlag_ne (by decide),ok_bind,
      parseIntFlag_ne (by decide),ok_bind]
    dsimp only
    rw [if_neg (by decide),if_neg (by decide),if_neg (by decide),parseIntFlag_ne (by decide),
      ok_bind]
    dsimp only
    rw [parseStrFlag_eq_some.mpr ⟨rfl,rfl⟩]
    rfl

/-- A round takes a setting that the arguments begin with. -/
theorem exists_begins (h : parseArg config arg args = .ok (config',rest)) :
    ∃ s, Begins (arg::args) s rest ∧ config' = config.set s := by
  have int : ∀ (flag : IntFlag) {n : ℤ}, parseIntFlag flag.text arg args = .ok (some (n,rest)) →
      Begins (arg::args) (.int flag n) rest := by
    intro flag n h
    obtain ⟨rfl,text,rfl,hn⟩ := parseIntFlag_eq_some.mp h
    exact .int flag hn
  -- the flags one after the other, in the order in which they are compared
  obtain ⟨_ | ⟨n,r⟩,ho,h⟩ := bind_eq_ok.mp h
  swap
  · cases h
    exact ⟨_,int .port ho,rfl⟩
  obtain ⟨_ | ⟨n,r⟩,ho,h⟩ := bind_eq_ok.mp h
  swap
  · cases h
    exact ⟨_,int .readTimeout ho,rfl⟩
  obtain ⟨_ | ⟨n,r⟩,ho,h⟩ := bind_eq_ok.mp h
  swap
  · cases h
    exact ⟨_,int .writeTimeout ho,rfl⟩
  have level : ∀ (level : LogLevel), levelFlag level = some arg →
      Begins (arg::args) (.level level) args := fun _ hl => .level hl
  dsimp only at h
  split_ifs at h with hinfo hwarn hdebug
  · cases h
    exact ⟨_,level .info (congrArg some hinfo.symm),rfl⟩
  · cases h
    exact ⟨_,level .warn (congrArg some hwarn.symm),rfl⟩
  · cases h
    exact ⟨_,level .debug (congrArg some hdebug.symm),rfl⟩
  obtain ⟨_ | ⟨n,r⟩,ho,h⟩ := bind_eq_ok.mp h
  swap
  · cases h
    exact ⟨_,int .workers ho,rfl⟩
  obtain ⟨_ | ⟨dir,r⟩,ho,h⟩ := bind_eq_ok.mp h
  · cases h
  · cases h
    obtain ⟨rfl,rfl⟩ := parseStrFlag_eq_some.mp ho
    exact ⟨_,.modelDir dir _,rfl⟩

theorem Begins.length_lt {s : Setting} (h : Begins args s rest) : rest.length < args.length := by
  cases h <;> simp only [List.length_cons] <;> omega

/-- The loop accepts exactly the settings that are spelled, and makes them in order. -/
theorem parseArgs_eq_ok {n : ℕ} (hn : args.length ≤ n) : parseArgs n config args = .ok config' ↔
    ∃ ss, Spells args ss ∧ config' = ss.foldl Config.set config := by
  have nil : ∀ n config, parseArgs n config [] = .ok config' ↔
      ∃ ss, Spells [] ss ∧ config' = ss.foldl Config.set config := by
    intro n config
    rw [parseArgs]
    constructor
    · rintro ⟨⟩
      exact ⟨[],.nil,rfl⟩
    · rintro ⟨ss,h,rfl⟩
      cases h with
      | nil => rfl
      | cons hb _ => cases hb
  induction n generalizing config args with
  | zero =>
    obtain rfl := List.eq_nil_of_length_eq_zero (Nat.le_zero.mp hn)
    exact nil 0 config
  | succ n ih =>
    cases args with
    | nil => exact nil (n+1) config
    | cons arg args =>
      rw [parseArgs,bind_eq_ok]
      constructor
      · rintro ⟨⟨c,rest⟩,hc,h⟩
        obtain ⟨s,hb,rfl⟩ := exists_begins hc
        have hlt := hb.length_lt
        obtain ⟨ss,hss,rfl⟩ := (ih (by simp only [List.length_cons] at hlt hn; omega)).mp h
        exact ⟨s::ss,.cons hb hss,rfl⟩
      · rintro ⟨ss,h,rfl⟩
        cases h with
        | @cons _ rest s ss hb hss =>
          have hlt := hb.length_lt
          exact ⟨_,parseArg_of_begins hb,
            (ih (by simp only [List.length_cons] at hlt hn; omega)).mpr ⟨ss,hss,rfl⟩⟩

end Flags

/-! ## The last value of each flag -/

def Setting.intOf (flag : IntFlag) : Setting → Option ℤ
  | .int f n => if f = flag then some n else none
  | _ => none

def Setting.dirOf : Setting → Option Bytes
  | .modelDir dir => some dir
  | _ => none

def lastOf {α : Type} (val : Setting → Option α) (ss : List Setting) : Option α :=
  (ss.filterMap val).getLast?

theorem foldl_set {α β : Type} (get : Config → α) (val : Setting → Option β) (f : β → α)
    (h : ∀ c s, get (c.set s) = ((val s).map f).getD (get c)) (c : Config) (ss : List Setting) :
    get (ss.foldl Config.set c) = ((lastOf val ss).map f).getD (get c) := by
  induction ss using List.reverseRecOn with
  | nil => rfl
  | append_singleton ss s ih =>
    rw [List.foldl_append,List.foldl_cons,List.foldl_nil,h,ih]
    cases hs : val s <;> simp [lastOf,hs]

variable {env : Environment} {argv : List Bytes} {ss : List Setting}

def HasModelDir (env : Environment) (ss : List Setting) : Prop :=
  (lastOf Setting.dirOf ss).getD [] ≠ [] ∨ ∃ dir, findDefaultModelDir env = .ok dir

theorem modelDir_foldl (env : Environment) : (ss.foldl Config.set (defaultConfig env)).modelDir =
    (lastOf Setting.dirOf ss).getD [] := by
  have h := foldl_set Config.modelDir Setting.dirOf id
    (fun c s => by rcases s with ⟨_ | _ | _ | _,_⟩ | _ | _ <;> rfl) (defaultConfig env) ss
  rwa [Option.map_id] at h

theorem parseConfig_eq_ok_imp {config : Config} (h : parseConfig env argv = .ok config) :
    ∃ ss, Spells argv.tail ss ∧ HasModelDir env ss ∧
      config.serverConfig = (ss.foldl Config.set (defaultConfig env)).serverConfig := by
  rw [parseConfig,bind_eq_ok] at h
  obtain ⟨c,hc,h⟩ := h
  obtain ⟨ss,hss,rfl⟩ := (parseArgs_eq_ok le_rfl).mp hc
  by_cases hd : (ss.foldl Config.set (defaultConfig env)).modelDir.isEmpty
  · rw [if_pos hd,bind_eq_ok] at h
    obtain ⟨dir,hdir,h⟩ := h
    cases h
    exact ⟨ss,hss,.inr ⟨dir,hdir⟩,rfl⟩
  · rw [if_neg hd] at h
    cases h
    refine ⟨ss,hss,.inl ?_,rfl⟩
    rw [← modelDir_foldl env]
    exact fun he => hd (List.isEmpty_iff.mpr he)

theorem exists_parseConfig (hss : Spells argv.tail ss) (hd : HasModelDir env ss) :
    ∃ config, parseConfig env argv = .ok config ∧
      config.serverConfig = (ss.foldl Config.set (defaultConfig env)).serverConfig := by
  rw [parseConfig,(parseArgs_eq_ok le_rfl).mpr ⟨ss,hss,rfl⟩,ok_bind]
  split
  · next he =>
    rcases hd with hd | ⟨dir,hdir⟩
    · rw [← modelDir_foldl env] at hd
      exact absurd (List.isEmpty_iff.mp he) hd
    · rw [hdir]
      exact ⟨_,rfl,rfl⟩
  · exact ⟨_,rfl,rfl⟩

/-! ## Startable servers -/

/-- What the server needs: a pool of at least one thread whose number is an `int`, a port, and
timeouts that are not negative. -/
structure Startable (config : ServerConfig) : Prop where
  workers : 1 ≤ config.workerThreads
  int : Json.toInt32 config.workerThreads.toNat = config.workerThreads.toNat
  port : 0 ≤ config.port ∧ config.port ≤ 65535
  readTimeout : 0 ≤ config.readTimeoutMillis
  writeTimeout : 0 ≤ config.writeTimeoutMillis

/-- The last value of each flag is in range, and where the number of workers is left to the
default there are at least two processors. -/
structure InRange (env : Environment) (ss : List Setting) : Prop where
  workers : ∀ n ∈ lastOf (Setting.intOf .workers) ss, 1 ≤ n
  processors : lastOf (Setting.intOf .workers) ss = none →
    2 ≤ env.hardwareConcurrency.toNat ∧ env.hardwareConcurrency.toNat ≤ 2^31
  port : ∀ n ∈ lastOf (Setting.intOf .port) ss, 0 ≤ n ∧ n ≤ 65535
  readTimeout : ∀ n ∈ lastOf (Setting.intOf .readTimeout) ss, 0 ≤ n
  writeTimeout : ∀ n ∈ lastOf (Setting.intOf .writeTimeout) ss, 0 ≤ n

/-- What a flag of type `int` sets. -/
theorem intField_foldl (get : Config → ℤ) (flag : IntFlag)
    (h : ∀ (c : Config) (s : Setting), get (c.set s) = (s.intOf flag).getD (get c)) :
    get (ss.foldl Config.set (defaultConfig env)) =
      (lastOf (Setting.intOf flag) ss).getD (get (defaultConfig env)) := by
  have h := foldl_set get (Setting.intOf flag) id (by simpa using h)
    (defaultConfig env) ss
  rwa [Option.map_id] at h

theorem port_foldl (env : Environment) (ss : List Setting) :
    (ss.foldl Config.set (defaultConfig env)).serverConfig.port =
      (lastOf (Setting.intOf .port) ss).getD 8080 :=
  intField_foldl (fun c => c.serverConfig.port) .port
    fun c s => by rcases s with ⟨_ | _ | _ | _,_⟩ | _ | _ <;> rfl

theorem readTimeout_foldl (env : Environment) (ss : List Setting) :
    (ss.foldl Config.set (defaultConfig env)).serverConfig.readTimeoutMillis =
      (lastOf (Setting.intOf .readTimeout) ss).getD 5000 :=
  intField_foldl (fun c => c.serverConfig.readTimeoutMillis) .readTimeout
    fun c s => by rcases s with ⟨_ | _ | _ | _,_⟩ | _ | _ <;> rfl

theorem writeTimeout_foldl (env : Environment) (ss : List Setting) :
    (ss.foldl Config.set (defaultConfig env)).serverConfig.writeTimeoutMillis =
      (lastOf (Setting.intOf .writeTimeout) ss).getD 10000 :=
  intField_foldl (fun c => c.serverConfig.writeTimeoutMillis) .writeTimeout
    fun c s => by rcases s with ⟨_ | _ | _ | _,_⟩ | _ | _ <;> rfl

theorem workers_foldl : (ss.foldl Config.set (defaultConfig env)).serverConfig.workerThreads =
    ((lastOf (Setting.intOf .workers) ss).map UInt32.ofInt).getD (env.hardwareConcurrency - 1) :=
  foldl_set (fun c => c.serverConfig.workerThreads) (Setting.intOf .workers) UInt32.ofInt
    (fun c s => by rcases s with ⟨_ | _ | _ | _,_⟩ | _ | _ <;> rfl) _ ss

theorem Spells.range {args : List Bytes} (h : Spells args ss) {flag : IntFlag} {n : ℤ}
    (hn : lastOf (Setting.intOf flag) ss = some n) : -2147483648 ≤ n ∧ n ≤ 2147483647 := by
  obtain ⟨s,hs,hsn⟩ := List.mem_filterMap.mp (List.mem_of_getLast? hn)
  clear hn
  induction h with
  | nil => simp at hs
  | cons hb _ ih =>
    rcases List.mem_cons.mp hs with rfl | hs
    · cases hb with
      | @int f text m rest hm =>
        have : m = n := by
          simp only [Setting.intOf] at hsn
          split at hsn
          · exact Option.some.inj hsn
          · cases hsn
        exact this ▸ stoi_range hm
      | level _ => cases hsn
      | modelDir _ _ => cases hsn
    · exact ih hs

theorem workers_iff (u : UInt32) :
    (1 ≤ u ∧ Json.toInt32 u.toNat = u.toNat) ↔ 1 ≤ u.toNat ∧ u.toNat < 2^31 := by
  refine and_congr (by rw [UInt32.le_iff_toNat_le]; rfl) ⟨fun h => ?_,Json.toInt32_of_lt⟩
  by_contra hge
  have hlt := Json.toInt32_lt h (not_lt.mp hge)
  omega

theorem isSome_make {num : ℤ} : (ThreadPool.make num Unit).isSome ↔ 1 ≤ num := by
  unfold ThreadPool.make
  split <;> simp <;> omega

/-- These are the numbers with which the constructor of the pool does not throw. -/
theorem make_isSome_iff (u : UInt32) : (ThreadPool.make (Json.toInt32 u.toNat) Unit).isSome ↔
    1 ≤ u ∧ Json.toInt32 u.toNat = u.toNat := by
  rw [isSome_make,workers_iff]
  constructor
  · intro h
    have hu := u.toNat_lt
    obtain ⟨k,hk⟩ := Int.eq_ofNat_of_zero_le (show 0 ≤ Json.toInt32 u.toNat by omega)
    have hlt : u.toNat < 2^31 := by
      by_contra hge
      have hk := Json.toInt32_lt hk (not_lt.mp hge)
      omega
    rw [Json.toInt32_of_lt hlt] at h
    exact ⟨by exact_mod_cast h,hlt⟩
  · rintro ⟨h,hlt⟩
    rw [Json.toInt32_of_lt hlt]
    exact_mod_cast h

theorem Startable.makes_pool {config : ServerConfig} (h : Startable config) :
    (ThreadPool.make (Json.toInt32 config.workerThreads.toNat) Unit).isSome :=
  (make_isSome_iff config.workerThreads).mpr ⟨h.workers,h.int⟩

theorem ofInt_iff {n : ℤ} (h : -2147483648 ≤ n ∧ n ≤ 2147483647) :
    1 ≤ (UInt32.ofInt n).toNat ∧ (UInt32.ofInt n).toNat < 2^31 ↔ 1 ≤ n := by
  rw [UInt32.ofInt,UInt32.toNat_ofNat']
  norm_num
  omega

theorem pred_iff (u : UInt32) :
    1 ≤ (u - 1).toNat ∧ (u - 1).toNat < 2^31 ↔ 2 ≤ u.toNat ∧ u.toNat ≤ 2^31 := by
  have := u.toNat_lt
  have hone : (1 : UInt32).toNat = 1 := rfl
  rw [UInt32.toNat_sub,hone]
  norm_num at this ⊢
  omega

theorem forall_mem_iff_getD {o : Option ℤ} {d : ℤ} {P : ℤ → Prop} (hd : P d) :
    (∀ n ∈ o, P n) ↔ P (o.getD d) := by
  cases o <;> simp [hd]

theorem workers_foldl_iff {args : List Bytes} (h : Spells args ss) :
    (1 ≤ (ss.foldl Config.set (defaultConfig env)).serverConfig.workerThreads ∧
      Json.toInt32 (ss.foldl Config.set (defaultConfig env)).serverConfig.workerThreads.toNat =
        (ss.foldl Config.set (defaultConfig env)).serverConfig.workerThreads.toNat) ↔
    (∀ n ∈ lastOf (Setting.intOf .workers) ss, 1 ≤ n) ∧
      (lastOf (Setting.intOf .workers) ss = none →
        2 ≤ env.hardwareConcurrency.toNat ∧ env.hardwareConcurrency.toNat ≤ 2^31) := by
  rw [workers_iff,workers_foldl]
  cases hn : lastOf (Setting.intOf .workers) ss with
  | none => simpa using pred_iff env.hardwareConcurrency
  | some n => simpa using ofInt_iff (h.range hn)

theorem startable_iff {args : List Bytes} (h : Spells args ss) :
    Startable (ss.foldl Config.set (defaultConfig env)).serverConfig ↔ InRange env ss := by
  have hport := forall_mem_iff_getD (o:=lastOf (Setting.intOf .port) ss) (d:=8080)
    (P:=fun n => 0 ≤ n ∧ n ≤ 65535) (by norm_num)
  have hread := forall_mem_iff_getD (o:=lastOf (Setting.intOf .readTimeout) ss) (d:=5000)
    (P:=fun n => 0 ≤ n) (by norm_num)
  have hwrite := forall_mem_iff_getD (o:=lastOf (Setting.intOf .writeTimeout) ss) (d:=10000)
    (P:=fun n => 0 ≤ n) (by norm_num)
  rw [← port_foldl env] at hport
  rw [← readTimeout_foldl env] at hread
  rw [← writeTimeout_foldl env] at hwrite
  constructor
  · intro hs
    obtain ⟨hworkers,hprocessors⟩ := (workers_foldl_iff h).mp ⟨hs.workers,hs.int⟩
    exact ⟨hworkers,hprocessors,hport.mpr hs.port,hread.mpr hs.readTimeout,
      hwrite.mpr hs.writeTimeout⟩
  · intro hs
    obtain ⟨hworkers,hint⟩ := (workers_foldl_iff h).mpr ⟨hs.workers,hs.processors⟩
    exact ⟨hworkers,hint,hport.mp hs.port,hread.mp hs.readTimeout,hwrite.mp hs.writeTimeout⟩

/-- Every configuration that is returned is startable exactly when the settings of the command
line are in range, unless there is no model directory. -/
theorem parseConfig_startable_iff (env : Environment) (argv : List Bytes) :
    (∀ config, parseConfig env argv = .ok config → Startable config.serverConfig) ↔
      ∀ ss, Spells argv.tail ss → HasModelDir env ss → InRange env ss := by
  constructor
  · intro h ss hss hd
    obtain ⟨config,hc,hs⟩ := exists_parseConfig hss hd
    exact (startable_iff hss).mp (hs ▸ h config hc)
  · intro h config hc
    obtain ⟨ss,hss,hd,hs⟩ := parseConfig_eq_ok_imp hc
    exact hs ▸ (startable_iff hss).mpr (h ss hss hd)

/-- On one processor no thread is left for the pool. -/
theorem not_parseConfig_startable : ¬ ∀ (env : Environment) (argv : List Bytes) (config : Config),
    parseConfig env argv = .ok config → Startable config.serverConfig := by
  intro h
  have hs := h ⟨1,none,fun _ => .ok []⟩ [ascii "gabby",ascii "--model-dir",ascii "m"] _ rfl
  exact absurd hs.workers (by decide)

end Main
end Gabby
