import Fridica.Lib.Checked
import Fridica.Lib.Path

/-!
# Where the files of a configuration lie

`resolve_path`, `within` and `protect` of `config/loader.rs`, with the paths that `parse` gives them.
The other settings of a source, which are only checked, are left out. A path is its text.
-/

namespace Fridica.Loader

open Fridica.Checked Fridica.Path

/-! ## The filesystem -/

inductive Component
  | parent
  | name (part : Text)
deriving DecidableEq

/-- `Path::components`, without the root and the dots, which change nothing. -/
def components (path : Text) : List Component :=
  (split path).filterMap fun part =>
    if part = [] ∨ part = ['.'] then none
    else if part = ['.', '.'] then some .parent
    else some (.name part)

def is_absolute (path : Text) : Bool := path.head? = some '/'

inductive Node
  | directory
  | file
  | link (target : Text)
deriving DecidableEq

inductive Errno
  | not_found
  | other
deriving DecidableEq

/-- What there is at the components of an absolute path. -/
abbrev Nodes := List Text → Option Node

/-- The walk of the operating system, which goes on behind a link by `follow`. -/
def walk (nodes : Nodes) (follow : List Text → List Component → Except Errno (List Text)) :
    List Text → List Component → Except Errno (List Text)
  | here, [] => .ok here
  | here, .parent :: rest => walk nodes follow here.dropLast rest
  | here, .name part :: rest =>
    match nodes (here ++ [part]) with
    | none => .error .not_found
    | some .directory => walk nodes follow (here ++ [part]) rest
    | some .file => if rest = [] then .ok (here ++ [part]) else .error .other
    | some (.link target) =>
      follow (if is_absolute target then [] else here) (components target ++ rest)

/-- The walk with so many links at most. -/
def os_resolve (nodes : Nodes) : Nat → List Text → List Component → Except Errno (List Text)
  | 0 => walk nodes fun _ _ => .error .other
  | links + 1 => walk nodes (os_resolve nodes links)

def MAXSYMLINKS : Nat := 40

/-- `std::fs::canonicalize` -/
def canonicalize (nodes : Nodes) (path : List Component) : Except Errno (List Text) :=
  os_resolve nodes MAXSYMLINKS [] path

/-- `std::fs::symlink_metadata`, of a name in a directory. -/
def symlink_metadata (nodes : Nodes) (directory : List Text) (part : Text) : Except Errno Node :=
  match canonicalize nodes (directory.map .name) with
  | .error e => .error e
  | .ok found =>
    if found ≠ [] ∧ nodes found ≠ some .directory then .error .other
    else
      match nodes (found ++ [part]) with
      | none => .error .not_found
      | some node => .ok node

/-- What is at the end of a path, behind any links. -/
def metadata (nodes : Nodes) (path : Text) : Option Node :=
  match canonicalize nodes (components path) with
  | .error _ => none
  | .ok found => if found = [] then some .directory else nodes found

def is_file (nodes : Nodes) (path : Text) : Bool := metadata nodes path = some .file

def is_dir (nodes : Nodes) (path : Text) : Bool := metadata nodes path = some .directory

/-! ## Resolving -/

structure Host where
  nodes : Nodes
  current_dir : Text
  /-- `users::get_user_by_name`: the home directory. -/
  user_home : Text → Option Text
  /-- The fold of one component. No character folds to or from a slash. -/
  casefold : Text → Text
  /-- `egress::deny_list` takes the file. -/
  deny_list : Text → Bool
  digest : Text → Text

structure LoadContext where
  home : Text
  runtime_dir : Option Text
  uid : Text
  «protected» : List Text

variable (host : Host) (context : LoadContext)

/-- `Path::join` -/
def join (base path : Text) : Text :=
  if is_absolute path then path else rstrip base ++ '/' :: path

def text (s : String) : Text := s.toList

/-- The path without a `~`. -/
def expand_home (path : Text) : Except String Text :=
  if path = text "~" then .ok context.home
  else if text "~/" <+: path then .ok (join context.home (path.drop 2))
  else if text "~" <+: path then
    let name := (path.drop 1).takeWhile (· ≠ '/')
    match host.user_home name with
    | none => .error "cannot expand unknown user's home directory"
    | some home => .ok (join home (path.drop (name.length + 2)))
  else .ok path

/-- The path that a setting means, before links and `..` are resolved. -/
def expand (path base : Text) : Except String Text := do
  refuse (path = [] ∨ '\x00' ∈ path) "path must be nonempty and contain no NUL"
  let path ← expand_home host context path
  return join base path

/-- Canonicalize existing components before applying `..`. -/
def resolve (nodes : Nodes) : List Text → List Component → Except String (List Text)
  | resolved, [] => .ok resolved
  | resolved, .parent :: rest => resolve nodes resolved.dropLast rest
  | resolved, .name part :: rest =>
    match symlink_metadata nodes resolved part with
    | .ok (.link _) =>
      match canonicalize nodes ((resolved ++ [part]).map .name) with
      | .ok found => resolve nodes found rest
      | .error _ => .error "cannot resolve path symlink"
    | .ok _ => resolve nodes (resolved ++ [part]) rest
    | .error .not_found => resolve nodes (resolved ++ [part]) rest
    | .error .other => .error "cannot read path"

def resolve_path (path base : Text) : Except String Text := do
  let path ← expand host context path base
  let resolved ← resolve host.nodes [] (components path)
  return render resolved

def casefold_path (path : Text) : List Text := (parts path).map host.casefold

def within (path root : Text) : Except String Bool := do
  let path ← resolve_path host context path host.current_dir
  return casefold_path host root <+: casefold_path host path

/-! ## Sources -/

structure WorkspaceSource where
  name : Text
  path : Text
  mode : Text

structure MachineSource where
  name : Text
  transport : Text
  workspaces : List WorkspaceSource

structure Source where
  contract : Option Text
  repos : Option Text
  deny_list : Option Text
  state_path : Option Text
  control_socket : Option Text
  machines : List MachineSource

structure Workspace where
  name : Text
  path : Text
  mode : Text

structure Machine where
  name : Text
  transport : Text
  workspaces : List Workspace

structure Config where
  path : Text
  contract : Option Text
  repos : Option Text
  deny_list : Option Text
  state_path : Text
  control_socket : Text
  machines : List Machine

structure Registry where
  remote : Text → Bool
  writable : Text → Bool

variable (registry : Registry)

/-! ## Loading -/

def file (path base : Text) : Except String Text := do
  let p ← resolve_path host context path base
  refuse (is_file host.nodes p = false) (String.ofList p ++ " is not a file")
  return p

def optional_file (path : Option Text) (base : Text) : Except String (Option Text) :=
  match path with
  | none => .ok none
  | some path => (file host context path base).map some

def contract_of (source : Source) (base : Text) : Except String (Option Text) :=
  match source.contract with
  | some p => (file host context p base).map some
  | none =>
    if is_file host.nodes (join base (text "contract.md")) then
      (resolve_path host context (join base (text "contract.md")) base).map some
    else .ok none

def deny_list_of (source : Source) (base : Text) : Except String (Option Text) :=
  match source.deny_list with
  | none => .ok none
  | some path => do
    let path ← file host context path base
    refuse (host.deny_list path = false) "invalid egress.deny_list"
    return some path

def DEFAULT_STATE : Text := text "~/.local/state/fridica/state.sqlite3"

def os_len (path : Text) : Nat := (String.ofList path).utf8ByteSize

/-- Where the socket is when no place is set. -/
def default_socket (state_path : Text) : Text :=
  let p := join (dirname state_path) (text "control.sock")
  if os_len p ≤ 100 then p
  else
    let directory := match context.runtime_dir.filter (is_dir host.nodes) with
      | some p => join p (text "fridica")
      | none => text "/tmp/fridica-" ++ context.uid
    join directory (text "control-" ++ (host.digest state_path).take 12 ++ text ".sock")

def control_socket_of (source : Source) (base state_path : Text) : Except String Text :=
  match source.control_socket with
  | some path => do
    let p ← resolve_path host context path base
    refuse (os_len p > 100) "state.control_socket path is too long for a Unix socket"
    return p
  | none => do
    let p := default_socket host context state_path
    refuse (os_len p > 100)
      "runtime control socket path is too long; configure a shorter state.control_socket"
    return p

def remote_path (s : Text) : Except String Text := do
  refuse (¬ (text "/" <+: s ∨ text "~/" <+: s)) "remote paths must be absolute or start with ~/"
  refuse (['.', '.'] ∈ split s) "remote paths may not contain .."
  let start := if text "//" <+: s ∧ ¬ text "///" <+: s then text "//"
    else if text "/" <+: s then text "/" else []
  let p := start ++ ['/'].intercalate ((split s).filter fun part => part ≠ [] ∧ part ≠ ['.'])
  refuse (p ∈ [text "/", text "//", text "~"])
    "remote home directory or / is too broad for a workspace"
  return p

def workspace_path (transport path base : Text) : Except String Text :=
  if transport = text "local" then do
    let p ← resolve_path host context path base
    refuse (is_dir host.nodes p = false) "workspace is not an existing directory"
    let home ← resolve_path host context context.home base
    refuse (p = ['/'] ∨ p = home) "home directory or / is too broad for a workspace"
    return p
  else remote_path path

def workspaces_of (transport base : Text) : List WorkspaceSource → Except String (List Workspace)
  | [] => .ok []
  | w :: ws => do
    let path ← workspace_path host context transport w.path base
    let rest ← workspaces_of transport base ws
    return ⟨w.name, path, w.mode⟩ :: rest

def machines_of (base : Text) : List MachineSource → Except String (List Machine)
  | [] => .ok []
  | m :: ms => do
    refuse (m.transport ∉ [text "local", text "ssh", text "slurm"]) "invalid machine transport"
    let workspaces ← workspaces_of host context m.transport base m.workspaces
    refuse (workspaces = []) "machine needs at least one workspace"
    let rest ← machines_of base ms
    return ⟨m.name, m.transport, workspaces⟩ :: rest

/-- Each of the paths is outside the workspace. -/
def outside (root : Text) (message : Text → String) : List Text → Except String Unit
  | [] => .ok ()
  | path :: paths => do
    let inside ← within host context path root
    refuse inside (message path)
    outside root message paths

def protect_workspace (config : Config) («protected» : List Text) (m : Machine) (w : Workspace) :
    Except String Unit := do
  let place := String.ofList m.name ++ ":" ++ String.ofList w.name
  outside host context w.path (fun _ => "state.path must be outside workspace " ++ place)
    [config.state_path]
  -- Control capabilities are secrets too, even when explicitly placed.
  outside host context w.path (fun _ => "state.control_socket must be outside workspace " ++ place)
    [config.control_socket]
  if registry.writable w.mode then
    outside host context w.path
      (fun path => String.ofList path ++ " is inside writable workspace " ++ place) «protected»
  else .ok ()

def protect_machine (config : Config) («protected» : List Text) (m : Machine) :
    List Workspace → Except String Unit
  | [] => .ok ()
  | w :: ws => do
    protect_workspace host context registry config «protected» m w
    protect_machine config «protected» m ws

def protect_local (config : Config) («protected» : List Text) (m : Machine) : Except String Unit :=
  if registry.remote m.transport then .ok ()
  else protect_machine host context registry config «protected» m m.workspaces

def protect_machines (config : Config) («protected» : List Text) :
    List Machine → Except String Unit
  | [] => .ok ()
  | m :: ms => do
    protect_local host context registry config «protected» m
    protect_machines config «protected» ms

def protect (config : Config) : Except String Unit :=
  protect_machines host context registry config
    (context.protected ++ [config.path] ++ config.contract.toList ++ config.repos.toList)
    config.machines

def parse (source : Source) (path : Text) : Except String Config := do
  let path ← resolve_path host context path host.current_dir
  refuse (path = ['/']) "configuration needs a parent directory"
  let base := dirname path
  let contract ← contract_of host context source base
  let repos ← optional_file host context source.repos base
  let deny_list ← deny_list_of host context source base
  let state_path ← resolve_path host context (source.state_path.getD DEFAULT_STATE) base
  let control_socket ← control_socket_of host context source base state_path
  let machines ← machines_of host context base source.machines
  let config : Config := ⟨path, contract, repos, deny_list, state_path, control_socket, machines⟩
  protect host context registry config
  return config

end Fridica.Loader
