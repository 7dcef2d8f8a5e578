import Mathlib.Data.Rat.Defs
import Mathlib.Algebra.Order.Ring.Rat
import Mathlib.Logic.Function.Basic

/-!
# The sessions that jobs continue

`run_task` of `workers/supervisor.rs` up to its request to the backend: which session it resumes,
which one it forks, and what is kept of the instructions that a session was begun with. The jobs of
different workers interleave at every transaction.
-/

namespace Fridica.Workers.Sessions

variable {F : Type} [DecidableEq F]

/-- A worker as the store has it. An empty session is none. -/
structure WorkerRecord (F : Type) where
  backend_session_id : String
  instructions_fingerprint : Option F
  backend : String
  machine : String
  updated : ℚ
deriving DecidableEq

structure Job where
  id : String
  attempt : Nat
  /-- The instructions of its run, from the owner rules at that time. -/
  instructions : String
  retry_of : String
  fork_from_worker : String
deriving DecidableEq

structure RunRequest where
  job_id : String
  attempt : Nat
  resume : String
  fork_from : String
deriving DecidableEq

inductive Phase
  | claimed
  /-- The fingerprint is recorded. -/
  | begun (resume : String)
  | running (request : RunRequest)
deriving DecidableEq

/-- A job on its way. `record` is the worker as it was claimed. -/
structure Task (F : Type) where
  job : Job
  record : WorkerRecord F
  now : ℚ
  phase : Phase

structure World (F : Type) where
  workers : String → Option (WorkerRecord F)
  tasks : String → Option (Task F)
  /-- Ghost: the sessions there are, with the text each was begun with. One that is older than the
  fingerprints has none. -/
  sessions : String → Option (Option String)
  /-- Ghost: the requests to the backends, with their jobs. -/
  requests : List (Job × RunRequest)

variable (fingerprint : String → F) (session_timeout : ℚ)

/-- The session that the worker would continue. -/
def resumes (t : Task F) : String :=
  let stale := t.record.updated ≠ 0 ∧ t.now - t.record.updated > session_timeout
  if stale ∧ t.job.retry_of = "" then "" else t.record.backend_session_id

/-- `begin_instructions`: the fingerprint is stored, and the session of a fresh one forgotten. -/
def begin_instructions (w : WorkerRecord F) (fingerprint : F) (fresh : Bool) : WorkerRecord F :=
  { w with
    instructions_fingerprint := some fingerprint
    backend_session_id := if fresh then "" else w.backend_session_id }

/-- The session to resume, and the worker after the transaction. -/
def fresh_unless_same_instructions (w : WorkerRecord F) (instructions resume : String) :
    String × WorkerRecord F :=
  -- No fingerprint means the session predates this check: keep it.
  let same := match w.instructions_fingerprint with
    | none => true
    | some f => f = fingerprint instructions
  let resume := if same then resume else ""
  (resume, begin_instructions w (fingerprint instructions) (resume = ""))

/-- The session to fork, and why it is none. -/
def fork_source (workers : String → Option (WorkerRecord F)) (t : Task F) : String × String :=
  if t.job.fork_from_worker = "" then ("", "")
  else
    match workers t.job.fork_from_worker with
    | none => ("", "source_worker_missing")
    | some source =>
      if source.backend_session_id = "" then ("", "source_session_missing")
      else if source.backend ≠ t.record.backend then ("", "source_backend_differs")
      else if source.machine ≠ t.record.machine then ("", "source_machine_differs")
      else (source.backend_session_id, "")

def request (workers : String → Option (WorkerRecord F)) (t : Task F) (resume : String) :
    RunRequest :=
  ⟨t.job.id, t.job.attempt, resume, if resume = "" then (fork_source workers t).1 else ""⟩

inductive Step
  | create (worker backend machine : String)
  | claim (worker : String) (job : Job) (now : ℚ)
  | begin (worker : String)
  | request (worker : String)
  /-- The job ends. `returned` is the session of its run, or empty. -/
  | finish (worker returned : String) (now : ℚ)
  /-- The daemon ends, with the jobs on their way. -/
  | crash

def World.with_task (w : World F) (worker : String) (t : Task F) (phase : Phase) : World F :=
  { w with tasks := Function.update w.tasks worker (some { t with phase := phase }) }

/-- The text that the session of a finished run was begun with. -/
def begun_with (w : World F) (job : Job) (request : RunRequest) : Option String :=
  if request.resume = "" then some job.instructions else (w.sessions request.resume).getD none

/-- The end of a run that returned a session: the one that it resumed, or a new one. -/
def finish_run (w : World F) (worker : String) (record : WorkerRecord F) (job : Job)
    (request : RunRequest) (returned : String) (now : ℚ) : Option (World F) :=
  let kept := { w with
    workers := Function.update w.workers worker
      (some { record with backend_session_id := returned, updated := now })
    tasks := Function.update w.tasks worker none }
  if returned = request.resume then some kept
  else if (w.sessions returned).isSome then none
  else some { kept with
    sessions := Function.update w.sessions returned (some (begun_with w job request)) }

def step (w : World F) : Step → Option (World F)
  | .create worker backend machine =>
    match w.workers worker with
    | some _ => none
    | none =>
      some { w with
        workers := Function.update w.workers worker (some ⟨"", none, backend, machine, 0⟩) }
  | .claim worker job now =>
    match w.workers worker, w.tasks worker with
    | some record, none =>
      some { w with tasks := Function.update w.tasks worker (some ⟨job, record, now, .claimed⟩) }
    | _, _ => none
  | .begin worker =>
    match w.workers worker, w.tasks worker with
    | some record, some t =>
      if t.phase = .claimed then
        let (resume, record) := fresh_unless_same_instructions fingerprint record
          t.job.instructions (resumes session_timeout t)
        some { w.with_task worker t (.begun resume) with
          workers := Function.update w.workers worker (some record) }
      else none
    | _, _ => none
  | .request worker =>
    match w.tasks worker with
    | some t =>
      match t.phase with
      | .begun resume =>
        let request := request w.workers t resume
        some { w.with_task worker t (.running request) with
          requests := w.requests ++ [(t.job, request)] }
      | _ => none
    | none => none
  | .finish worker returned now =>
    match w.workers worker, w.tasks worker with
    | some record, some t =>
      if returned = "" then
        some { w with
          workers := Function.update w.workers worker (some { record with updated := now })
          tasks := Function.update w.tasks worker none }
      else
        match t.phase with
        | .running request => finish_run w worker record t.job request returned now
        | _ => none
    | _, _ => none
  | .crash => some { w with tasks := fun _ => none }

def run (w : World F) (steps : List Step) : Option (World F) :=
  steps.foldlM (step fingerprint session_timeout) w

/-- The store before fingerprints were recorded, with the sessions that there were. -/
def initial (workers : String → Option (WorkerRecord F)) (old : String → Bool) : World F :=
  ⟨fun worker => (workers worker).map ({ · with instructions_fingerprint := none }), fun _ => none,
    fun id => if old id then some none else none, []⟩

end Fridica.Workers.Sessions
