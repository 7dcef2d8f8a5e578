import Fridica.Config.Writers.Spec
import Fridica.Lib.Act

/-!
# The journal of configuration edits

An edit is recorded as an intent, the file is replaced, and the configuration in memory follows. What
a failure or a crash leaves in between is settled by the next pass (`threads/runtime.rs`) or the next
start (`threads/configuration.rs`).
-/

namespace Fridica.Threads.Configuration

open Fridica.Effect

variable {F : Type} [DecidableEq F]

structure Config (F : Type) where
  path : String
  fingerprint : F
deriving DecidableEq

structure Intent (F : Type) where
  path : String
  before : F
  after : F
deriving DecidableEq

/-- What a running daemon holds: its snapshot, and the configuration of its supervisor. -/
structure Memory (F : Type) where
  config : Config F
  supervisor : Config F

/-- A completed intent, with the file and the configuration in force at that moment. -/
structure Completion (F : Type) where
  intent : Intent F
  applied : Bool
  disk : Option F
  in_force : Config F

structure World (F : Type) where
  files : String → Option String
  /-- The intent of the journal. -/
  pending : Option (Nat × Intent F)
  next_seq : Nat
  daemon : Option (Memory F)
  ticks : Nat
  /-- Ghost: the completed intents, oldest first. -/
  completions : List (Completion F)

/-- What becomes of a call to the system, the store or an adapter. -/
inductive Answer
  | proceed
  | fail (error : String)
  /-- The process ends there. -/
  | crash

/-- How a computation ends early. -/
inductive Stop
  | error (message : String)
  | crash

structure Outside (F : Type) where
  fingerprint : String → F
  answer : Nat → Answer

abbrev Host (F : Type) := Act (World F) Stop

variable (out : Outside F)

def bail {α : Type} (message : String) : Host F α := throw (.error message)

/-- A call that can fail, or be the last. -/
def call : Host F Unit := do
  let w ← get
  set { w with ticks := w.ticks + 1 }
  match out.answer w.ticks with
  | .proceed => return ()
  | .fail error => bail error
  | .crash => throw .crash

def liftExcept {α : Type} : Except String α → Host F α
  | .ok a => return a
  | .error error => bail error

/-! ## The file -/

def disk_fingerprint (path : String) : Host F F := do
  call out
  let w ← get
  let source ← liftExcept (Fridica.Config.read (w.files path))
  return out.fingerprint source

def sync_directory : Host F Unit := call out

/-- `load`. The call fails where the source is not a configuration. -/
def load (path : String) : Host F (Config F) := do
  call out
  let w ← get
  match w.files path with
  | none => bail "configuration cannot be read; run fridica init for a new installation"
  | some source => return ⟨path, out.fingerprint source⟩

/-- `replace` of `config/editor.rs`. Its first call is for the lock, its second for the temporary
file, its third for the rename. -/
def commit (path : String) (writer : Fridica.Config.Writer F) : Host F Unit := do
  if writer.source.utf8ByteSize > Fridica.Config.SIZE then
    bail "edited configuration exceeds 1 MiB"
  else do
    call out
    call out
    let w ← get
    liftExcept (Fridica.Config.check out.fingerprint writer.before (w.files path))
    call out
    modify fun w => { w with files := Function.update w.files path (some writer.source) }
    sync_directory out

/-! ## The journal -/

def pending_configuration_edit : Host F (Option (Nat × Intent F)) := do
  call out
  return (← get).pending

def complete_configuration_edit (applied : Bool) (in_force : Config F) : Host F Unit := do
  call out
  modify fun w =>
    match w.pending with
    | none => w
    | some (_, intent) =>
      { w with
        pending := none
        completions := w.completions ++
          [⟨intent, applied, (w.files intent.path).map out.fingerprint, in_force⟩] }

/-- The intent is recorded, then the file replaced. The intent stays whatever comes of that. -/
def replace (intent : Intent F) (edit : Host F Unit) : Host F Unit := do
  call out
  modify fun w => { w with pending := some (w.next_seq, intent), next_seq := w.next_seq + 1 }
  edit

def verify (intent : Intent F) (config : Config F) : Host F Bool := do
  if intent.path ≠ config.path then
    bail "pending configuration edit conflicts with loaded configuration"
  else do
    let disk ← disk_fingerprint out config.path
    if disk ≠ config.fingerprint then
      bail "pending configuration edit conflicts with loaded configuration"
    else if config.fingerprint = intent.after then return true
    else if config.fingerprint = intent.before then return false
    else bail "pending configuration edit conflicts with external changes"

/-! ## The daemon -/

def memory : Host F (Memory F) := do
  match (← get).daemon with
  | some m => return m
  | none => throw .crash

def keep (m : Memory F) : Host F Unit := modify fun w => { w with daemon := some m }

/-- The configuration on disk is taken into memory, unless it is there. -/
def adopt (intent : Intent F) (current : Config F) : Host F Unit := do
  if current.fingerprint = intent.after then return ()
  else do
    -- The adapter factory.
    call out
    let config ← load out current.path
    let _ ← verify out intent config
    -- `manager_for`, then `reconfigure` of the supervisor.
    call out
    call out
    keep ⟨config, config⟩

def reconcile (intent : Intent F) : Host F Unit := do
  let m ← memory
  let current := m.config
  let disk ← disk_fingerprint out current.path
  if intent.path ≠ current.path then bail "pending configuration path mismatch"
  else if disk = intent.before ∧ current.fingerprint = intent.before then
    complete_configuration_edit out false current
  else if disk ≠ intent.after then
    bail "pending configuration conflicts with external changes"
  else do
    adopt out intent current
    sync_directory out
    let m ← memory
    complete_configuration_edit out true m.config

def reconcile_configuration : Host F Unit := do
  match ← pending_configuration_edit out with
  | none => return ()
  | some (_, intent) => reconcile out intent

/-- `edit` is what the changes make of the source. -/
def update_configuration (edit : String → Except String String) : Host F Unit := do
  reconcile_configuration out
  let m ← memory
  let current := m.config
  -- The adapter factory, then the read of the file.
  call out
  call out
  let w ← get
  let writer ← liftExcept (Fridica.Config.prepare out.fingerprint (.live current.fingerprint) edit
    (w.files current.path))
  -- `manager_for`, then `validate_reconfiguration`.
  call out
  call out
  if out.fingerprint writer.source = current.fingerprint then return ()
  else do
    replace out ⟨current.path, writer.before, out.fingerprint writer.source⟩
      (commit out current.path writer)
    reconcile_configuration out

def recover_startup (config : Config F) : Host F Unit := do
  match ← pending_configuration_edit out with
  | none => return ()
  | some (_, intent) => do
    let applied ← verify out intent config
    sync_directory out
    complete_configuration_edit out applied config

/-- A start of the daemon with the configuration at `path`. -/
def start (path : String) : Host F Unit := do
  let config ← load out path
  recover_startup out config
  -- The rest of the start.
  call out
  keep ⟨config, config⟩

/-! ## Runs -/

inductive Event
  | start (path : String)
  | pass
  | update (edit : String → Except String String)
  | crash

def World.stopped (w : World F) : World F := { w with daemon := none }

/-- A procedure of the running daemon, which a crash ends. -/
def World.runs (w : World F) (procedure : Host F Unit) : World F :=
  match outcome procedure w with
  | (.error .crash, t) => t.stopped
  | (_, t) => t

def perform (w : World F) (event : Event) : World F :=
  match event, w.daemon with
  | .start path, none =>
    match outcome (start out path) w with
    | (.ok _, t) => t
    | (.error _, t) => t.stopped
  | .pass, some _ => w.runs (reconcile_configuration out)
  | .update edit, some _ => w.runs (update_configuration out edit)
  | .crash, _ => w.stopped
  | _, _ => w

def initial (files : String → Option String) : World F := ⟨files, none, 0, none, 0, []⟩

def run (files : String → Option String) (events : List Event) : World F :=
  events.foldl (perform out) (initial files)

end Fridica.Threads.Configuration
