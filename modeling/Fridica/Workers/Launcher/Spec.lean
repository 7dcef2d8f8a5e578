import Fridica.Exec.Transport.Spec

/-!
# Launching a worker

`SystemLauncher` of `workers/jsonl.rs`: how the command of a backend is started on the machine of
its worker, and what is probed before a confined worker is admitted.
-/

namespace Fridica.Workers.Launcher

open Fridica.Checked Fridica.Loader Fridica.Exec.Transport
open Fridica.Path (Text)

structure WorkerSpec where
  machine : Exec.Transport.Machine
  /-- The workspace's name and path. -/
  workspace : Loader.Workspace
  subfolders : Bool
  gpu_confine : Option Bool
  slot : Nat
  excluded_env : List Text

def WorkerSpec.create_cwd (spec : WorkerSpec) : Bool := 0 < spec.slot ∧ spec.subfolders

def WorkerSpec.confined (spec : WorkerSpec) : Bool := spec.gpu_confine = some true

structure SystemLauncher where
  home : Text
  environment : Environment
  ssh_control_directory : Text
  isolation : Isolation

variable (system : System) (launcher : SystemLauncher)

def local_transport (spec : WorkerSpec) : LocalTransport :=
  ⟨spec.machine, launcher.home, spec.excluded_env⟩

def ssh_transport (spec : WorkerSpec) : SshTransport :=
  ⟨spec.machine, spec.excluded_env, launcher.ssh_control_directory⟩

def is_codex (command : List Text) : Bool :=
  command.head? = some (text "codex") ∧ command[1]? = some (text "app-server")

def launch_local (spec : WorkerSpec) (command : List Text) : Except String Launch :=
  let transport := local_transport launcher spec
  if spec.confined then
    launcher.isolation.launch_mode system transport command spec.workspace.path
      launcher.environment spec.create_cwd false none
  else if is_codex command then do
    let words ← Isolation.mcp_startup system command (some launcher.home) spec.workspace.path
      spec.excluded_env spec.create_cwd
    transport.launch system words ['/'] launcher.environment false
  else
    transport.launch system command spec.workspace.path launcher.environment spec.create_cwd

def launch_remote (spec : WorkerSpec) (command : List Text) : Except String Launch :=
  let transport := ssh_transport launcher spec
  if spec.confined then
    Isolation.launch_remote_mode system transport command spec.workspace.path
      launcher.environment spec.create_cwd false none
  else if is_codex command then do
    let words ← Isolation.mcp_startup system command none spec.workspace.path spec.excluded_env
      spec.create_cwd
    transport.launch system words ['/'] launcher.environment false
  else
    transport.launch system command spec.workspace.path launcher.environment spec.create_cwd

def launch (spec : WorkerSpec) (command : List Text) : Except String Launch :=
  let failed (_ : String) := "backend_launch_configuration_failed"
  if spec.machine.transport = text "local" then
    (launch_local system launcher spec command).mapError failed
  else if spec.machine.transport = text "ssh" then
    (launch_remote system launcher spec command).mapError failed
  else .error "transport_unavailable"

/-! ## Admission -/

inductive Check
  | passed
  | backend_missing
  | inventory_refused
  | settings_refused
  | namespace_failed
  | runtime_or_transport_failed
  | probe_failed
deriving DecidableEq

/-- Exact markers and a successful exit are both required. -/
def probe_result : Option (Int × OsString) → Check
  | none => .probe_failed
  | some (returncode, stdout) =>
    let entered := "fridica-isolation:namespace\n"
    if returncode = 0 ∧ stdout = os (text (entered ++ "fridica-isolation:ready\n")) then .passed
    else if returncode = 97 ∧
        stdout = os (text (entered ++ "fridica-isolation:backend-missing\n")) then .backend_missing
    else if returncode = 97 ∧ stdout = os (text "fridica-isolation:inventory-refused\n") then
      .inventory_refused
    else if returncode = 97 ∧ stdout = os (text "fridica-isolation:settings-refused\n") then
      .settings_refused
    else if stdout = os (text entered) ∨ returncode = 97 ∧
        stdout = os (text (entered ++ "fridica-isolation:namespace-refused\n")) then
      .namespace_failed
    else .runtime_or_transport_failed

/-- What a check refuses a worker with. -/
def Check.code : Check → String
  | .inventory_refused => "worker_isolation_inventory_refused"
  | .settings_refused => "worker_isolation_settings_refused"
  | .namespace_failed => "worker_isolation_namespace_failed"
  | .runtime_or_transport_failed => "worker_isolation_runtime_or_transport_failed"
  | _ => "worker_isolation_probe_failed"

/-- The first option counts, so a probe neither shares a connection nor learns a host key. -/
def read_only_ssh_probe (l : Launch) : Launch :=
  { l with argv := l.argv.take 1 ++
      ["-o", "ControlMaster=no", "-o", "ControlPath=none", "-o", "ControlPersist=no", "-o",
        "StrictHostKeyChecking=yes", "-o", "UpdateHostKeys=no"].map text ++ l.argv.drop 1 }

/-- The launch that is probed, of the configured base of the workspace. -/
def preflight (spec : WorkerSpec) (base : Text) : Except String Launch :=
  let refused (_ : String) := "worker_isolation_launch_refused"
  if spec.machine.transport = text "local" then
    (launcher.isolation.launch_mode system (local_transport launcher spec) [text "/bin/true"] base
      launcher.environment false true none).mapError refused
  else if spec.machine.transport = text "ssh" then
    ((Isolation.launch_remote_mode system (ssh_transport launcher spec) [text "/bin/true"] base
      launcher.environment false true none).map read_only_ssh_probe).mapError refused
  else .error "worker_isolation_transport_unsupported"

def base_of (config : Loader.Config) (spec : WorkerSpec) : Option Text := do
  let machine ← config.machines.find? (·.name = spec.machine.name)
  let workspace ← machine.workspaces.find? (·.name = spec.workspace.name)
  return workspace.path

/-- `admit`, where `run` runs a probe to its end. -/
def admission (run : Launch → Option (Int × OsString)) (config : Loader.Config) (spec : WorkerSpec) :
    Except String Unit := do
  refuse ((Isolation.new config []).toOption ≠ some launcher.isolation)
    "worker_isolation_configuration_changed"
  if spec.confined then
    let base ← (base_of config spec).elim (.error "worker_isolation_target_unknown") .ok
    let probe ← preflight system launcher spec base
    let check := probe_result (run probe)
    refuse (check ≠ .passed) check.code

/-! ## What a machine is to run -/

/-- The words that run a command of the worker on its machine, and the directory. -/
def program (spec : WorkerSpec) (command : List Text) : List Text × Text :=
  let home := if spec.machine.transport = text "local" then some launcher.home else none
  let cwd := spec.workspace.path
  if spec.confined then
    let payload := if spec.machine.transport = text "local" then
        local_payload launcher.isolation launcher.home cwd spec.create_cwd false none
      else remote_payload cwd spec.create_cwd false none spec.excluded_env
    (python system system.helper payload command, ['/'])
  else if is_codex command then
    (python system system.mcp_startup (startup_payload home cwd spec.excluded_env spec.create_cwd)
      command, ['/'])
  else (command, home.elim cwd (expand_home cwd))

end Fridica.Workers.Launcher
