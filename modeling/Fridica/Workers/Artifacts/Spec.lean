import Fridica.Exec.Isolation.Spec
import Fridica.Exec.Transport.Spec
import Fridica.Lib.Checked
import Fridica.Lib.Frame
import Fridica.Workers.Inputs.Spec

/-!
# The artifacts of a job

`collect` and `progress` of `workers/artifacts.rs`, with the reads that they rest on: `read_file` of
`exec/local.rs` here, and of `exec/artifacts.rs` with `artifact_read.py` on another machine. Between
the time a path is resolved and the time its file is opened, anything may change.
-/

namespace Fridica.Workers.Artifacts

open Fridica.Checked Fridica.Frame
open Fridica.Exec.Isolation (Nodes Node walk directory regular within)
open Fridica.Loader (text)
open Fridica.Path (Text Normal parts)

def ARTIFACT_LIMIT : ℕ := 20 * 1024 * 1024
def PROGRESS_LIMIT : ℕ := 64 * 1024

/-- A path without links, dots or double slashes. -/
abbrev Real := { p : Text // Normal p }

/-- A machine: where its paths lead when they are resolved, and what is there when it is opened. -/
structure Host where
  realpath : Text → Option Real
  nodes : Nodes

/-! ## Reading here -/

section Local

variable (host : Host)

/-- The first root that the path is below, with the way from there. -/
def select (resolved : Real) (root : Text) : Option (List Text × List Text) :=
  (host.realpath root).bind fun root =>
    if parts root.1 <+: parts resolved.1 then
      some (parts root.1, (parts resolved.1).drop (parts root.1).length)
    else none

def read_file (path : Text) (roots : List Text) (limit : ℕ) : Except String Bytes := do
  refuse (¬ Loader.is_absolute path ∨ .parent ∈ Loader.components path)
    "artifact path must be absolute without parent traversal"
  let some resolved := host.realpath path | throw "artifact does not exist"
  let some (root, relative) := roots.findSome? (select host resolved)
    | throw "artifact is outside the workspace"
  (walk host.nodes [] root).mapError fun _ => "artifact root is not a directory"
  refuse relative.isEmpty "artifact is not a regular file"
  (walk host.nodes root relative.dropLast).mapError fun _ => "artifact is not below directories"
  match host.nodes (root ++ relative) with
  | some (.file data _) =>
    refuse (data.length > limit) "artifact exceeded the size limit"
    return data
  | _ => throw "artifact is not a regular file"

/-- `LocalTransport::read_file`, for the home directory of the daemon. -/
def read_local (home path : Text) (roots : List Text) (limit : ℕ) : Except String Bytes :=
  read_file host (Exec.Transport.expand_home path home)
    (roots.map fun root => Exec.Transport.expand_home root home) limit

end Local

/-! ## Reading on another machine -/

structure Request where
  path : Text
  roots : List Text
  limit : ℕ

def HEADER : Bytes := "fridica-artifact-v1\x00".toUTF8.toList

section Helper

variable (host : Host) (home : Text)

def expanded (value : Text) : Except Exec.Isolation.Failure Text :=
  Exec.Isolation.path (if text "~/" <+: value then home ++ value.drop 1 else value)

/-- `os.path.realpath`, with `strict`. -/
def strict (value : Text) : Except Exec.Isolation.Failure Real :=
  match host.realpath value with
  | some real => .ok real
  | none => .error .missing

/-- The loop over the roots. -/
def allow (target : Real) : List Text → Except Exec.Isolation.Failure Unit
  | [] => .error .refused
  | root :: rest => do
    let resolved ← strict host (← expanded home root)
    if within target.1 resolved.1 ∧ target ≠ resolved then directory host.nodes resolved.1
    else allow target rest

/-- `artifact_read.py`, which writes a frame or refuses. -/
def emit (request : Request) : Except Exec.Isolation.Failure Bytes := do
  let home ← Exec.Isolation.path home
  refuse (request.limit > 20 * 1024 * 1024) .refused
  refuse (request.roots.isEmpty ∨ request.roots.length > 16) .refused
  let target ← strict host (← expanded home request.path)
  allow host home target request.roots
  let data ← regular host.nodes target.1
  refuse (data.length > request.limit) .refused
  return frame HEADER 8 data

end Helper

/-- What the daemon takes of the output of a process. -/
def read_frame (limit : ℕ) (stdout : Bytes) : Except String Bytes := do
  refuse (¬ HEADER <+: stdout) "artifact read failed"
  let body := stdout.drop HEADER.length
  refuse (body.length < 8) "incomplete artifact frame"
  let data := body.drop 8
  refuse (of_be (body.take 8) ≠ data.length ∨ data.length > limit) "invalid artifact frame length"
  return data

/-- The adapter for other machines. `run` starts the helper on one, and gives its return code and
its output. -/
structure Remote where
  read_timeout : ℚ
  run : Request → Option (ℤ × Bytes)

def read_remote (remote : Remote) (path : Text) (roots : List Text) (limit : ℕ) :
    Except String Bytes := do
  refuse (limit > ARTIFACT_LIMIT ∨ remote.read_timeout ≤ 0 ∨ remote.read_timeout > 120)
    "invalid artifact read bounds"
  let some (returncode, stdout) := remote.run ⟨path, roots, limit⟩ | throw "artifact read failed"
  refuse (returncode ≠ 0) "artifact read failed"
  read_frame limit stdout

/-! ## Collecting -/

structure ArtifactRef where
  path : Text
  kind : String

structure CollectedArtifact where
  reference : ArtifactRef
  data : Option Bytes
  error : String

/-- Whether the name of the path has this extension, in any case. -/
def named (path : Text) (suffix : String) : Bool :=
  (Inputs.extension path).any fun e => e.map Char.toLower = suffix.toList

def validate_reference (reference : ArtifactRef) : Except String Unit := do
  let path := reference.path
  refuse ('\x00' ∈ path ∨ ¬ (Loader.is_absolute path ∨ text "~/" <+: path) ∨
    .parent ∈ Loader.components path) "artifact_requires_absolute_path"
  refuse (reference.kind ∉ ["png", "pdf", "md"]) "artifact_kind_unsupported"
  -- Any text file goes as it is. Only a name that claims one of the binary kinds is refused.
  let fits : Bool :=
    if reference.kind = "md" then !named path "png" && !named path "pdf"
    else named path reference.kind
  refuse (¬ fits) "artifact_suffix_mismatch"

def PNG : Bytes := [0x89, 0x50, 0x4e, 0x47, 0x0d, 0x0a, 0x1a, 0x0a]
def PDF : Bytes := [0x25, 0x50, 0x44, 0x46, 0x2d]

def validate_content (reference : ArtifactRef) (data : Bytes) : Except String Unit := do
  refuse (data.length > ARTIFACT_LIMIT) "artifact_size_limit"
  refuse (reference.kind = "png" ∧ ¬ PNG <+: data) "artifact_invalid_png"
  refuse (reference.kind = "pdf" ∧ ¬ PDF <+: data) "artifact_invalid_pdf"
  refuse (reference.kind = "md" ∧ (Utf8.from_utf8 data).isNone) "artifact_invalid_utf8"
  refuse (reference.kind ∉ ["png", "pdf", "md"]) "artifact_kind_unsupported"

/-- An adapter with the daemon's host and home. The one for local workers knows no other machine. -/
structure JobIo where
  host : Host
  home : Text
  remote : Option Remote

/-- The transport of a worker's machine, and its workspace. -/
structure WorkerSpec where
  transport : String
  workspace : Text

variable (io : JobIo) (spec : WorkerSpec)

def read (path : Text) (limit : ℕ) : Except String Bytes :=
  let failed (_ : String) := "artifact_read_failed"
  if spec.transport = "local" then
    (read_local io.host io.home path [spec.workspace] limit).mapError failed
  else if spec.transport = "ssh" then
    match io.remote with
    | none => .error "artifact_remote_adapter_unavailable"
    | some remote => (read_remote remote path [spec.workspace] limit).mapError failed
  else .error "artifact_transport_unsupported"

def collect_one (reference : ArtifactRef) : Except String Bytes := do
  validate_reference reference
  let data ← read io spec reference.path ARTIFACT_LIMIT
  validate_content reference data
  return data

def collected (reference : ArtifactRef) : CollectedArtifact :=
  match collect_one io spec reference with
  | .ok data => ⟨reference, some data, ""⟩
  | .error error => ⟨reference, none, error⟩

def collect (artifacts : List ArtifactRef) : Except String (List CollectedArtifact) :=
  if artifacts.length > 3 then .error "artifact_count_limit"
  else .ok (artifacts.map (collected io spec))

/-! ## Progress notes -/

/-- One file for each attempt of a job. -/
def progress_file (id : Text) (attempt : ℕ) : Text :=
  text "progress-" ++ id.filter (fun c => c.isAlphanum || c = '-') ++ '-' ::
    (Nat.toDigits 10 attempt ++ text ".md")

def progress (file : Text) : Option Bytes :=
  if '/' ∈ file ∨ file.head? = some '.' then none
  else (read io spec (Loader.join spec.workspace file) PROGRESS_LIMIT).toOption

end Fridica.Workers.Artifacts
