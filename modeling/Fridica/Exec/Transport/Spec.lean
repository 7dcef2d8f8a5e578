import Fridica.Config.Isolation.Spec
import Fridica.Exec.Isolation.Spec
import Fridica.Exec.Process.Spec
import Fridica.Exec.Ssh.Spec
import Fridica.Lib.Json

/-!
# Starting a program on a machine

The transports (`exec/local.rs`, `exec/ssh.rs`) with the environment that they pass on
(`exec/process.rs`), and over them the isolation (`exec/isolation.rs`) up to what its helper is
told.
-/

namespace Fridica.Exec.Transport

open Fridica.Checked Fridica.Loader
open Fridica.Path (Text split)
open Fridica.Json (Value)

/-! ## The environment -/

/-- An `OsString`, as its bytes. -/
abbrev OsString := Utf8.Bytes

/-- A map, as its entries in the order of the names. -/
abbrev Environment := List (OsString × OsString)

def os (t : Text) : OsString := (String.ofList t).toUTF8.toList

def insert (name value : OsString) : Environment → Environment
  | [] => [(name, value)]
  | v :: env =>
    if name = v.1 then (name, value) :: env
    else if name < v.1 then (name, value) :: v :: env
    else v :: insert name value env

def extend (env : Environment) (more : List (Text × Text)) : Environment :=
  more.foldl (fun env v => insert (os v.1) (os v.2) env) env

def kept (excluded : List Text) (v : OsString × OsString) : Bool :=
  let name := (Utf8.lossy v.1).map Char.toUpper
  v.1 ∉ excluded.map os && ¬ text "SLACK" <:+: name && ¬ text "FRIDICA_" <+: name &&
    Process.TOKEN_PREFIXES.all fun token => ¬ token <+: Utf8.lossy v.2

/-- Scrubbed after the overrides too. -/
def scrubbed_environment (inherited : Environment) (excluded : List Text)
    (extra : List (Text × Text)) : Environment :=
  (extend inherited extra).filter (kept excluded)

/-! ## Machines -/

structure Machine where
  name : Text
  transport : Text
  host : Text
  /-- What the resources of the machine set. -/
  environment : List (Text × Text)

/-- Contains private environment values. -/
structure Launch where
  argv : List Text
  cwd : Option Text
  env : Environment

/-- The daemon's machine, and what belongs to the libraries. -/
structure System where
  linux : Bool
  create_dir_all : Text → Bool
  /-- A directory that no one else can read, of this user. -/
  control_private : Text → Bool
  ssh_host : Text → Bool
  to_string : Value → Text
  /-- The texts of the Python programs. -/
  bootstrap : Text
  helper : Text
  mcp_startup : Text

variable (system : System)

/-! ## The local transport -/

/-- `Path::strip_prefix` with `~`. -/
def strip_tilde (path : Text) : Option Text :=
  let idle (part : Text) : Bool := part = [] ∨ part = ['.']
  match split path with
  | ['~'] :: rest => some (['/'].intercalate ((rest.dropWhile idle).rdropWhile idle))
  | _ => none

def expand_home (path home : Text) : Text := (strip_tilde path).elim path (Loader.join home)

structure LocalTransport where
  machine : Machine
  home : Text
  excluded_env : List Text

def LocalTransport.launch (t : LocalTransport) (command : List Text) (cwd : Text)
    (inherited : Environment) (create : Bool) : Except String Launch := do
  refuse (t.machine.transport ≠ text "local") "local transport requires a local machine"
  validate command
  let cwd := expand_home cwd t.home
  refuse (is_absolute cwd = false) "local workspace must be absolute"
  refuse (create ∧ system.create_dir_all cwd = false) "the workspace was not created"
  return ⟨command, some cwd,
    scrubbed_environment inherited t.excluded_env t.machine.environment⟩

/-! ## SSH -/

structure SshTransport where
  machine : Machine
  excluded_env : List Text
  control_directory : Text

def ssh_options (control : Text) : List Text :=
  ["-T", "-o", "BatchMode=yes", "-o", "ConnectTimeout=15", "-o", "ServerAliveInterval=30", "-o",
    "ServerAliveCountMax=4", "-o", "ControlMaster=auto", "-o"].map text ++
  [text "ControlPath=" ++ control] ++ ["-o", "ControlPersist=600", "--"].map text

def command (host script directory : Text) : Except String (List Text) := do
  refuse (system.ssh_host host = false ∨ nul ∈ script) "invalid SSH destination or script"
  return text "ssh" :: ssh_options (Loader.join directory (text "%C")) ++ [host, script]

def into_string (s : OsString) : Except String Text :=
  (Utf8.from_utf8 s).elim (.error "non-UTF8 remote environment") .ok

/-- What the remote shell exports. -/
def remote_environment (t : SshTransport) : Except String (List (Text × Text)) :=
  (scrubbed_environment [] t.excluded_env t.machine.environment).mapM fun v => do
    return (← into_string v.1, ← into_string v.2)

def SshTransport.launch (t : SshTransport) (words : List Text) (cwd : Text)
    (inherited : Environment) (create : Bool) : Except String Launch := do
  refuse (t.machine.transport ≠ text "ssh") "SSH transport requires an SSH machine"
  refuse (system.control_private t.control_directory = false)
    "SSH control directory must be private and owned by this user"
  let env ← remote_environment t
  let script ← remote_script_with_confinement words cwd env none create none
  let argv ← command system t.machine.host script t.control_directory
  return ⟨argv, none, scrubbed_environment inherited t.excluded_env []⟩

/-! ## The isolation -/

structure Isolation where
  «private» : List Text
deriving DecidableEq

def safe_path (p : Text) : Bool :=
  is_absolute p && nul ∉ p && (components p).all (· ≠ .parent)

def Isolation.new (config : Loader.Config) (additional : List Text) : Except String Isolation := do
  let private_ := [config.path, config.state_path, config.control_socket] ++
    config.contract.toList ++ config.deny_list.toList ++ config.repos.toList ++ additional
  refuse (private_.any fun p => !safe_path p || (components p).length = 1)
    "worker isolation requires private files below dedicated directories"
  return ⟨private_⟩

def string (t : Text) : Value := .string (String.ofList t)

def nullable (t : Option Text) : Value := t.elim .null string

/-- The words that run one of the Python programs. -/
def python (program : Text) (payload : Value) (command : List Text) : List Text :=
  ["/usr/bin/python3", "-I", "-S", "-c"].map text ++
    [system.bootstrap, program, system.to_string payload] ++ command

def local_payload (i : Isolation) (home cwd : Text) (create preflight : Bool)
    (probe_backend : Option Text) : Value :=
  .of_fields [("home", string home), ("workspace", string cwd),
    ("private", .array (i.private.map string)), ("create", .bool create),
    ("preflight", .bool preflight), ("probe_backend", nullable probe_backend)]

/-- Workers keep the target's normal files. -/
def remote_payload (cwd : Text) (create preflight : Bool) (probe_backend : Option Text)
    (excluded_env : List Text) : Value :=
  .of_fields [("home", .null), ("workspace", string cwd), ("private", .array []),
    ("create", .bool create), ("preflight", .bool preflight),
    ("probe_backend", nullable probe_backend), ("excluded_env", .array (excluded_env.map string))]

def Isolation.launch_mode (i : Isolation) (t : LocalTransport) (command : List Text) (cwd : Text)
    (inherited : Environment) (create preflight : Bool) (probe_backend : Option Text) :
    Except String Launch := do
  refuse (system.linux = false ∨ t.machine.transport ≠ text "local" ∨ safe_path cwd = false ∨
    safe_path t.home = false) "local worker isolation requires Linux and absolute paths"
  validate command
  let env := scrubbed_environment inherited t.excluded_env t.machine.environment
  let payload := local_payload i t.home cwd create preflight probe_backend
  return ⟨python system system.helper payload command, some ['/'],
    insert (os (text "HOME")) (os t.home) env⟩

def Isolation.launch_remote_mode (t : SshTransport) (command : List Text) (cwd : Text)
    (inherited : Environment) (create preflight : Bool) (probe_backend : Option Text) :
    Except String Launch := do
  refuse (Config.Isolation.remote_path cwd = false)
    "confined SSH workspace must be an absolute or home-relative path"
  validate command
  let payload := remote_payload cwd create preflight probe_backend t.excluded_env
  t.launch system (python system system.helper payload command) ['/'] inherited false

def startup_payload (home : Option Text) (cwd : Text) (excluded_env : List Text) (create : Bool) :
    Value :=
  .of_fields [("home", nullable home), ("workspace", string cwd), ("create", .bool create),
    ("excluded_env", .array (excluded_env.map string))]

/-- Codex finds every MCP server of the target's settings disabled. -/
def Isolation.mcp_startup (command : List Text) (home : Option Text) (cwd : Text)
    (excluded_env : List Text) (create : Bool) : Except String (List Text) := do
  validate command
  refuse (command.head? ≠ some (text "codex") ∨ command[1]? ≠ some (text "app-server") ∨
    Config.Isolation.remote_path cwd = false ∨ home.any fun p => safe_path p = false)
    "invalid Codex startup settings request"
  return python system system.mcp_startup (startup_payload home cwd excluded_env create) command

/-! ## What the helper is told -/

/-- A list of texts. -/
def texts (value : Value) : Option (List Text) :=
  value.as_array.bind fun l => l.mapM fun v => v.as_str.map String.toList

def request_of (value : Value) : Option Exec.Isolation.Request := do
  let home ← match ← value.get "home" with
    | .null => some none
    | home => home.as_str.map fun home => some home.toList
  let workspace ← (← value.get "workspace").as_str
  let private_ ← texts (← value.get "private")
  let create ← (← value.get "create").as_bool
  let backend := (value.get "probe_backend").bind Value.as_str
  let preflight := ((value.get "preflight").bind Value.as_bool).getD false
  return ⟨home, workspace.toList, private_, create, preflight, (backend.getD "").toList⟩

/-- The bootstrap runs the program that follows it, with the words after it. -/
def told (loads : Text → Option Value) : List Text → Option (Exec.Isolation.Request × List Text)
  | _ :: _ :: _ :: _ :: _ :: _ :: payload :: command =>
    ((loads payload).bind request_of).map (·, command)
  | _ => none

end Fridica.Exec.Transport
