import Mathlib.Logic.Function.Basic
import Mathlib.Data.String.Basic

/-!
# The writers of the configuration file

`replace` of `config/editor.rs`, step by step, with its two callers: `Prepared` of the running
daemon, and `Draft` of the setup commands (`config/setup.rs`). Any number of them run at once.
-/

namespace Fridica.Config

def SIZE : Nat := 1024 * 1024

def ATTEMPTS : Nat := 20

variable {F : Type} [DecidableEq F]

/-- Where a writer's new source comes from. -/
inductive Origin (F : Type)
  /-- `Prepared::new`, with the fingerprint of the configuration in force. -/
  | live (current : F)
  /-- `Draft::open`. -/
  | draft
deriving DecidableEq

inductive Phase
  | prepared
  | waiting (attempts : Nat)
  | locked
  | written
  | checked
  | renamed
  | leaving (result : Except String Unit)
  | done (result : Except String Unit)
  | crashed

def Phase.holds : Phase → Bool
  | .locked | .written | .checked | .renamed | .leaving _ => true
  | _ => false

def Phase.over : Phase → Bool
  | .prepared | .waiting _ | .locked | .written | .checked => false
  | _ => true

structure Writer (F : Type) where
  origin : Origin F
  /-- The content it was prepared from. -/
  seen : String
  before : F
  source : String
  phase : Phase

structure Change (F : Type) where
  writer : Nat
  old : Option String
  before : F
  source : String

structure World (F : Type) where
  /-- The content, where there is a regular file. -/
  file : Option String
  lock : Option Nat
  writers : Nat → Option (Writer F)
  /-- Ghost: the replacements, oldest first. -/
  changes : List (Change F)

/-- `read`: a regular file of at most 1 MiB. -/
def read (file : Option String) : Except String String :=
  match file with
  | some source =>
    if source.utf8ByteSize > SIZE then
      .error "configuration must be a regular file of at most 1 MiB"
    else .ok source
  | none => .error "configuration must be a regular file of at most 1 MiB"

variable (fingerprint : String → F)

/-- A new writer. `edit` is what it makes of the source that it reads. -/
def prepare (origin : Origin F) (edit : String → Except String String) (file : Option String) :
    Except String (Writer F) := do
  let seen ← read file
  match origin with
  | .live current =>
    if fingerprint seen ≠ current then
      .error "configuration changed outside the daemon; restart before editing"
    else do
      let source ← edit seen
      if source.utf8ByteSize > SIZE then .error "edited configuration exceeds 1 MiB"
      else return ⟨origin, seen, current, source, .prepared⟩
  | .draft => do
    let source ← edit seen
    return ⟨origin, seen, fingerprint seen, source, .prepared⟩

/-- The file that `read` finds is the one that was prepared for. -/
def check (before : F) (file : Option String) : Except String Unit :=
  match read file with
  | .error error => .error error
  | .ok source =>
    if fingerprint source ≠ before then .error "configuration changed before replacement" else .ok ()

def World.set (w : World F) (id : Nat) (writer : Writer F) (phase : Phase) : World F :=
  { w with writers := Function.update w.writers id (some { writer with phase := phase }) }

/-- The next operation of a writer. `failure` is the error of the system, if it fails. -/
def advance (w : World F) (id : Nat) (writer : Writer F) (failure : Option String) :
    Option (World F) :=
  match writer.phase with
  | .prepared =>
    if writer.source.utf8ByteSize > SIZE then
      some (w.set id writer (.done (.error "edited configuration exceeds 1 MiB")))
    else
      match failure with
      | some error => some (w.set id writer (.done (.error error)))
      | none => some (w.set id writer (.waiting 0))
  | .waiting attempts =>
    if failure = none ∧ w.lock = none then
      some { w.set id writer .locked with lock := some id }
    else if attempts < ATTEMPTS then some (w.set id writer (.waiting (attempts + 1)))
    else some (w.set id writer (.done (.error "another Fridica configuration edit is in progress")))
  | .locked =>
    match failure with
    | some error => some (w.set id writer (.leaving (.error error)))
    | none => some (w.set id writer .written)
  | .written =>
    match failure with
    | some error => some (w.set id writer (.leaving (.error error)))
    | none =>
      match check fingerprint writer.before w.file with
      | .error error => some (w.set id writer (.leaving (.error error)))
      | .ok () => some (w.set id writer .checked)
  | .checked =>
    match failure with
    | some error => some (w.set id writer (.leaving (.error error)))
    | none =>
      some { w.set id writer .renamed with
        file := some writer.source
        changes := w.changes ++ [⟨id, w.file, writer.before, writer.source⟩] }
  | .renamed =>
    match failure with
    | some error => some (w.set id writer (.leaving (.error error)))
    | none => some (w.set id writer (.leaving (.ok ())))
  | .leaving result => some { w.set id writer (.done result) with lock := none }
  | .done _ => none
  | .crashed => none

inductive Action (F : Type)
  | prepare (id : Nat) (origin : Origin F) (edit : String → Except String String)
  | advance (id : Nat) (failure : Option String)
  | crash (id : Nat)

def step (w : World F) : Action F → Option (World F)
  | .prepare id origin edit =>
    match w.writers id with
    | some _ => none
    | none =>
      match prepare fingerprint origin edit w.file with
      | .ok writer => some { w with writers := Function.update w.writers id (some writer) }
      | .error _ => some w
  | .advance id failure =>
    match w.writers id with
    | some writer => advance fingerprint w id writer failure
    | none => none
  | .crash id =>
    match w.writers id with
    | some writer =>
      -- The system takes the lock back from a process that ends.
      some { w.set id writer .crashed with lock := if w.lock = some id then none else w.lock }
    | none => none

def run (w : World F) (actions : List (Action F)) : Option (World F) :=
  actions.foldlM (step fingerprint) w

/-- The file before any writer. -/
def initial (file : Option String) : World F := ⟨file, none, fun _ => none, []⟩

end Fridica.Config
