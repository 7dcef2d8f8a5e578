import Fridica.Exec.Settings.Spec
import Fridica.Lib.Checked
import Fridica.Lib.Path
import Mathlib

/-!
# The mounts of a confined worker

`main` of `exec/isolation_helper.py` up to the arguments of bubblewrap, with what it reads of the
settings (`exec/isolation_settings.py`) and its paths (`exec/settings_paths.py`). Text is a list of
characters.
-/

namespace Fridica.Exec.Isolation

open Fridica.Checked Fridica.Path

/-! ## Paths -/

inductive Failure
  | refused
  /-- `FileNotFoundError` -/
  | missing
deriving DecidableEq

def path (value : Text) : Except Failure Text :=
  if value.head? ≠ some '/' ∨ '\x00' ∈ value ∨ ['.'] ∈ split value ∨ ['.', '.'] ∈ split value then
    .error .refused
  else .ok ('/' :: ['/'].intercalate ((split value).filter (· ≠ [])))

def within (value root : Text) : Bool := value = root ∨ rstrip root ++ ['/'] <+: value

/-! ## The filesystem -/

inductive Node
  | directory
  | file (data : List UInt8) (links : Nat)
  /-- A symbolic link, which is not followed, or a special file. -/
  | other
deriving DecidableEq

abbrev Nodes := List Text → Option Node

/-- `directory`, from a directory already open. -/
def walk (nodes : Nodes) (here : List Text) : List Text → Except Failure Unit
  | [] => .ok ()
  | part :: rest =>
    match nodes (here ++ [part]) with
    | none => .error .missing
    | some .directory => walk nodes (here ++ [part]) rest
    | some _ => .error .refused

def directory (nodes : Nodes) (value : Text) : Except Failure Unit := walk nodes [] (parts value)

def walk_create (nodes : Nodes) (here : List Text) : List Text → Except Failure Nodes
  | [] => .ok nodes
  | part :: rest =>
    match nodes (here ++ [part]) with
    | none =>
      walk_create (Function.update nodes (here ++ [part]) (some .directory)) (here ++ [part]) rest
    | some .directory => walk_create nodes (here ++ [part]) rest
    | some _ => .error .refused

/-- `directory`, with `create`. -/
def directory_create (nodes : Nodes) (value : Text) : Except Failure Nodes :=
  walk_create nodes [] (parts value)

def regular (nodes : Nodes) (value : Text) : Except Failure (List UInt8) := do
  directory nodes (dirname value)
  match nodes (parts value) with
  | none => .error .missing
  | some (.file data links) => if links = 1 then .ok data else .error .refused
  | some _ => .error .refused

/-- A file that is not there is written. -/
def default (nodes : Nodes) (value : Text) (data : List UInt8) : Except Failure Nodes := do
  let nodes ← directory_create nodes (dirname value)
  if (nodes (parts value)).isSome then return nodes
  else return Function.update nodes (parts value) (some (.file data 1))

inductive Stat
  | directory
  | regular (links : Nat)
  | other

structure Host (σ δ : Type) where
  linux : Bool
  home : Option Text
  environment : Text → Option Text
  nodes : Nodes
  /-- `os.path.realpath` -/
  realpath : Text → Text
  /-- `os.stat`, which follows links. -/
  stat : Text → Except Failure Stat
  /-- The names in a directory, which have no slash. -/
  scandir : Nodes → Text → List { name : Text // IsPart name }
  load : Text → List UInt8 → Except Failure (Settings.Document σ)
  render : String → Settings.Document σ → Except Settings.Refused δ

structure Request where
  /-- `None` on a remote target. -/
  home : Option Text
  workspace : Text
  «private» : List Text
  create : Bool
  preflight : Bool
  probe_backend : Text

variable {σ δ : Type} (host : Host σ δ)

/-! ## What is masked -/

def home_of (request : Request) : Except Failure Text :=
  match request.home, host.home with
  | some home, _ => path home
  | none, some home => path home
  | none, none => .error .refused

def target (request : Request) (home value : Text) : Except Failure Text :=
  if request.home = none ∧ ['~', '/'] <+: value then path (home ++ '/' :: value.drop 2)
  else path value

/-- A second hard-link name could live outside every masked directory. -/
def check_link (value : Text) : Except Failure Unit :=
  match host.stat value with
  | .error .missing => .ok ()
  | .error .refused => .error .refused
  | .ok .directory => .error .refused
  | .ok (.regular links) => refuse (links ≠ 1) .refused
  | .ok .other => .ok ()

def mask_order (a b : Text) : Prop := a.length < b.length ∨ (a.length = b.length ∧ a ≤ b)

instance : DecidableRel mask_order := fun a b => by unfold mask_order; infer_instance

def masks_of (private_ : List Text) : List Text :=
  (private_.map dirname).dedup.insertionSort mask_order

def select : List Text → List Text → Except Failure (List Text)
  | selected, [] => .ok selected
  | selected, mask :: masks =>
    if mask = ['/'] then .error .refused
    else if selected.any (within mask) then select selected masks
    else select (selected ++ [mask]) masks

/-- `open("...")` of a directory for each. -/
def directories (nodes : Nodes) : List Text → Except Failure Unit
  | [] => .ok ()
  | value :: values => do
    directory nodes value
    directories nodes values

def check_links : List Text → Except Failure Unit
  | [] => .ok ()
  | value :: values => do
    check_link host value
    check_links values

def text (s : String) : Text := s.toList

def state_of (home : Text) : List Text :=
  [home ++ text "/.codex", home ++ text "/.claude", home ++ text "/.claude.json"]

/-! ## Settings -/

def LIMIT : Nat := 1024 * 1024

/-- The workspace and the directories above it. -/
def ancestors : Nat → Text → List Text
  | 0, ancestor => [ancestor]
  | fuel + 1, ancestor =>
    if ancestor = ['/'] then [ancestor] else ancestor :: ancestors fuel (dirname ancestor)

def check_root (key : String) (expected : Text) : Except Failure Unit :=
  match host.environment (text key) with
  | none => .ok ()
  | some value => do
    let value ← path value
    refuse (value ≠ expected) .refused

def scanned (nodes : Nodes) (codex_home : Text) : Except Failure (List Text) :=
  match directory nodes codex_home with
  | .error .missing => .ok []
  | .error .refused => .error .refused
  | .ok () =>
    let names := (host.scandir nodes codex_home).map Subtype.val
    if names.length > 4096 then .error .refused
    else .ok ((names.filter (text ".config.toml" <:+ ·)).map fun name => codex_home ++ '/' :: name)

def suffixes : List Text :=
  [text "/.codex/config.toml", text "/.mcp.json", text "/.claude/settings.json",
    text "/.claude/settings.local.json"]

def candidates (nodes : Nodes) (home workspace : Text) : Except Failure (List Text) := do
  let entries ← scanned host nodes (home ++ text "/.codex")
  let found := ([home ++ text "/.codex/config.toml", text "/etc/codex/config.toml",
      text "/etc/codex/managed_config.toml", home ++ text "/.claude.json",
      home ++ text "/.claude/settings.json", home ++ text "/.claude/settings.local.json"] ++
    entries ++ (ancestors workspace.length workspace).flatMap fun ancestor =>
      suffixes.map (rstrip ancestor ++ ·)).dedup
  if found.length > 256 then .error .refused
  else return found.insertionSort (· ≤ ·)

/-- The layers that there are. One hidden by a mask is not restored. -/
def documents (nodes : Nodes) (masks roots : List Text) (total count : Nat) :
    List Text → Except Failure (List (Settings.Layer σ))
  | [] => .ok []
  | name :: names =>
    if masks.any (within name) ∧ ¬ roots.any (within name) then
      documents nodes masks roots total count names
    else
      match regular nodes name with
      | .error .missing => documents nodes masks roots total count names
      | .error .refused => .error .refused
      | .ok raw => do
        let raw := raw.take (LIMIT + 1)
        let total := total + raw.length
        refuse (raw.length > LIMIT ∨ total > 8 * LIMIT ∨ count ≥ 64) .refused
        let document ← host.load name raw
        let rest ← documents nodes masks roots total (count + 1) names
        return (String.ofList name, document) :: rest

def settings_snapshots (nodes : Nodes) (home workspace : Text) (masks state : List Text) :
    Except Failure (List (String × δ)) := do
  check_root host "CODEX_HOME" (home ++ text "/.codex")
  check_root host "CLAUDE_CONFIG_DIR" (home ++ text "/.claude")
  let names ← candidates host nodes home workspace
  let layers ← documents host nodes masks (workspace :: state) 0 0 names
  match Settings.settings_snapshots false host.render layers with
  | .ok (snapshots, _) => .ok snapshots
  | .error _ => .error .refused

/-! ## Mounts -/

inductive Kind
  | ro_bind
  | dev_bind
  | proc
  | tmpfs
  | bind_fd
  | ro_bind_fd
  | bind_data
  | ro_bind_data
  | remount_ro
deriving DecidableEq

structure Mount where
  kind : Kind
  dest : Text
deriving DecidableEq

def fd_mount (preflight : Bool) (dest : Text) : Mount :=
  ⟨if preflight then .ro_bind_fd else .bind_fd, dest⟩

/-- The backend state that there is. -/
def state_mounts (nodes : Nodes) (preflight : Bool) : List Text → Except Failure (List Mount)
  | [] => .ok []
  | value :: values =>
    let opened : Except Failure Unit :=
      if text ".json" <:+ value then (regular nodes value).map fun _ => () else directory nodes value
    match opened with
    | .error .missing => state_mounts nodes preflight values
    | .error .refused => .error .refused
    | .ok () => do
      let rest ← state_mounts nodes preflight values
      return fd_mount preflight value :: rest

def hooks_mount (nodes : Nodes) (preflight : Bool) (hooks : Text) : Except Failure (List Mount) :=
  match directory nodes hooks with
  | .ok () => .ok [⟨.ro_bind_fd, hooks⟩]
  | .error .missing => if preflight then .ok [] else .error .missing
  | .error .refused => .error .refused

def snapshot_mount (home : Text) (name : Text) : Mount :=
  ⟨if name = home ++ text "/.claude.json" then .bind_data else .ro_bind_data, name⟩

/-- The directories and files that a worker starts from. -/
def prepared (nodes : Nodes) (home : Text) : Except Failure Nodes := do
  let nodes ← directory_create nodes (home ++ text "/.codex")
  let nodes ← directory_create nodes (home ++ text "/.claude/hooks")
  let nodes ← default nodes (home ++ text "/.codex/config.toml") []
  let nodes ← default nodes (home ++ text "/.claude/settings.json") "\x7b\x7d".toUTF8.toList
  default nodes (home ++ text "/.claude/settings.local.json") "\x7b\x7d".toUTF8.toList

/-- Nothing is written in a preflight. -/
def started (request : Request) (home : Text) : Except Failure Nodes :=
  if request.preflight then .ok host.nodes else prepared host.nodes home

def open_workspace (nodes : Nodes) (request : Request) (workspace : Text) :
    Except Failure Nodes :=
  if request.create ∧ ¬ request.preflight then directory_create nodes workspace
  else (directory nodes workspace).map fun _ => nodes

/-- What a worker sees before its own mounts: everything, read-only. -/
def base : List Mount :=
  [⟨.ro_bind, ['/']⟩, ⟨.dev_bind, text "/dev"⟩, ⟨.proc, text "/proc"⟩, ⟨.tmpfs, text "/tmp"⟩]

def main (request : Request) (command : List Text) : Except Failure (List Mount) := do
  refuse (host.linux = false) .refused
  let home ← home_of host request
  let workspace ← target request home request.workspace
  let given ← request.private.mapM (target request home)
  refuse (home = ['/'] ∨ command = []) .refused
  -- Resolve private aliases too, but never use them as worker mount sources.
  let resolved ← given.mapM fun p => path (host.realpath p)
  let private_ := given ++ resolved
  check_links host private_
  let selected ← select [] (masks_of private_)
  let state := state_of home
  refuse (private_.any fun secret => (workspace :: state).any (within secret)) .refused
  directories host.nodes selected
  directory host.nodes home
  let nodes ← started host request home
  refuse (request.preflight ∧ request.probe_backend ∉ [[], text "codex", text "claude"]) .refused
  let snapshots ← settings_snapshots host nodes home workspace selected state
  let nodes ← open_workspace nodes request workspace
  let states ← state_mounts nodes request.preflight state
  let hooks ← hooks_mount nodes request.preflight (home ++ text "/.claude/hooks")
  return base ++ selected.map (⟨.tmpfs, ·⟩) ++ [fd_mount request.preflight workspace] ++ states ++
    hooks ++ snapshots.map (fun s => snapshot_mount home s.1.toList) ++
    selected.map (⟨.remount_ro, ·⟩)

/-! ## The view -/

/-- The mount hides what was at the path before. -/
def Mount.covers (m : Mount) (p : Text) : Bool := m.kind ≠ .remount_ro ∧ parts m.dest <+: parts p

/-- The mount that shows at a path, once all are made in order. -/
def view (mounts : List Mount) (p : Text) : Option Mount :=
  mounts.foldl (fun seen m => if m.covers p then some m else seen) none

end Fridica.Exec.Isolation
