import Fridica.Workers.Supervisor.World

/-!
# The task of one attempt

`run_task` of `workers/supervisor.rs` from its `select!` on: the operation of the job, its deadline
and the control signals race, and the task closes the process and records the completion. Signals
come in at any time, also while the task is handling one. The store takes what it is given.
-/

namespace Fridica.Workers.RunTask

/-! ## The operation -/

structure Outcome where
  status : String
  artifacts : List String
  backend_session_id : String
deriving DecidableEq

structure CollectedArtifact where
  reference : String
  data : Option (List UInt8)
  error : String
deriving DecidableEq

abbrev Result := Except WorkerFailure (Outcome × List CollectedArtifact)

/-- What the operation awaits. -/
inductive Stage
  | admission
  | prepare
  | instructions
  | fork
  | context
  /-- The intent is recorded. -/
  | record
  /-- `in_backend` is set, and `worker.run` is called. -/
  | run
  | collect (outcome : Outcome)
deriving DecidableEq

inductive Operation
  | pending (stage : Stage)
  | ready (result : Result)
deriving DecidableEq

/-- What comes back from an await. -/
inductive Answer
  | done
  | failed (failure : WorkerFailure)
  | outcome (outcome : Outcome)
  | artifacts (collected : Except String (List CollectedArtifact))
deriving DecidableEq

def STATUSES : List String := ["done", "partial", "failed", "needs_input"]

/-- The operation from one await to the next. -/
def advance : Stage → Answer → Option Operation
  | .admission, .done => some (.pending .prepare)
  | .prepare, .done => some (.pending .instructions)
  | .instructions, .done => some (.pending .fork)
  | .fork, .done => some (.pending .context)
  | .context, .done => some (.pending .record)
  | .record, .done => some (.pending .run)
  | .run, .outcome outcome =>
    if outcome.status ∈ STATUSES then some (.pending (.collect outcome))
    else
      some (.ready (.error ⟨.refusal, "invalid_worker_result", outcome.backend_session_id⟩))
  | .collect outcome, .artifacts (.ok collected) => some (.ready (.ok (outcome, collected)))
  | .collect outcome, .artifacts (.error code) =>
    some (.ready (.ok (outcome, outcome.artifacts.map fun reference => ⟨reference, none, code⟩)))
  | .fork, .failed _ | .collect _, .failed _ => none
  | _, .failed failure => some (.ready (.error failure))
  | _, _ => none

/-- One poll of the operation: it goes through the awaits that are ready. The second component says
whether it began the backend run. -/
def poll : Stage → List Answer → Option (Operation × Bool)
  | stage, [] => some (.pending stage, false)
  | stage, answer :: answers =>
    match advance stage answer with
    | some (.pending next) =>
      (poll next answers).map fun (operation, began) => (operation, began || stage = .record)
    | some (.ready result) => if answers = [] then some (.ready result, false) else none
    | none => none

/-! ## The task -/

structure Completion where
  outcome : Except WorkerFailure Outcome
  artifacts : List CollectedArtifact
  interrupted : Bool
  stopped : Bool
  allow_retry : Bool
deriving DecidableEq

/-- How the wait ended. The signal is `run` when no signal ended it. -/
structure Waited where
  result : Result
  signal : Signal
deriving DecidableEq

/-- The branch of the biased `select!` that is polled next. -/
inductive Branch
  | control
  | timeout
  | operation
deriving DecidableEq

inductive Phase
  | select (branch : Branch)
  /-- A signal was taken, and the approvals are cancelled. -/
  | cancelling (signal : Signal)
  | interrupting (signal : Signal)
  /-- The operation has the grace period to end. -/
  | draining (signal : Signal)
  /-- The deadline passed, and the worker is interrupted. -/
  | overdue
  /-- The waiters for approvals are woken. -/
  | waking (waited : Waited)
  | closing (waited : Waited)
  | noting (waited : Waited)
  | recording (waited : Waited) (retire closed : Bool)
  /-- The completion was stale, and the process is closed once more. -/
  | closing_again
  | ended (task_end : TaskEnd)
deriving DecidableEq

inductive Event
  | sent (signal : Signal)
  | taken (signal : Signal)
  /-- The operation ended the wait. -/
  | finished
  /-- The deadline ended the wait. -/
  | expired
  /-- The backend run was begun. -/
  | begun
  /-- A close of the process was confirmed or not. -/
  | closed (confirmed : Bool)
  /-- `worker_close_unconfirmed` -/
  | noted
  | recorded (job : String) (attempt : Nat) (completion : Completion)
deriving DecidableEq

structure State where
  phase : Phase
  stage : Stage
  in_backend : Bool
  /-- The value in the channel, and whether the task has not seen it yet. -/
  signal : Signal
  unseen : Bool
  /-- The deadline has passed. -/
  late : Bool
  /-- What happened, in order. -/
  log : List Event
deriving DecidableEq

def initial : State := ⟨.select .control, .admission, false, .run, false, false, []⟩

/-- What the task reads of its job and its worker. -/
structure Task where
  job : Job
  ephemeral : Bool

def State.to (s : State) (phase : Phase) : State := { s with phase }

def State.logs (s : State) (event : Event) : State := { s with log := s.log ++ [event] }

def interrupted_failure (signal : Signal) : WorkerFailure :=
  ⟨if signal = .stop then .cancelled else .interrupted, "worker_interrupted", ""⟩

def timeout_failure : WorkerFailure := ⟨.execution, "job_timeout", ""⟩

variable (t : Task)

def retires (w : Waited) : Bool := t.ephemeral || !w.result.isOk || w.signal ≠ .run

/-- What follows the wait. -/
def after (w : Waited) : Phase :=
  if retires t w then if w.signal = .run then .waking w else .closing w
  else .recording w false false

def completion (w : Waited) : Completion where
  outcome := w.result.map Prod.fst
  artifacts := match w.result with
    | .ok (_, artifacts) => artifacts
    | .error _ => []
  interrupted := w.signal ≠ .run
  stopped := w.signal = .stop
  allow_retry := w.signal = .run

/-- The operation was polled. -/
def State.polled (s : State) (began : Bool) : State :=
  if began then { s with in_backend := true }.logs .begun else s

inductive Action
  /-- From outside. -/
  | send (signal : Signal)
  | pass
  /-- The next branch of the `select!` is polled; `answers` are what the operation gets. -/
  | poll (answers : List Answer)
  /-- `approvals.cancel`, or its grace period, ended. -/
  | cancelled
  /-- `worker.interrupt`, or its grace period, ended. -/
  | interrupted
  | drain (answers : List Answer)
  /-- The grace period of the operation ended. -/
  | give_up
  /-- `worker.close` ended well in its grace period or not, and the process is alive or not. -/
  | close (ended_well alive : Bool)
  | note
  | complete (stale : Bool)

def step (s : State) : Action → Option State
  | .send signal =>
    if signal = .run then none
    else some ({ s with signal, unseen := true }.logs (.sent signal))
  | .pass => some { s with late := true }
  | .poll answers =>
    match s.phase with
    | .select .control =>
      if s.unseen then
        some (({ s with unseen := false }.logs (.taken s.signal)).to (.cancelling s.signal))
      else some (s.to (.select .timeout))
    | .select .timeout =>
      if s.late then some ((s.logs .expired).to .overdue) else some (s.to (.select .operation))
    | .select .operation =>
      match poll s.stage answers with
      | some (.pending stage, began) =>
        some (({ s with stage }.polled began).to (.select .control))
      | some (.ready result, began) =>
        some (((s.polled began).logs .finished).to (after t ⟨result, .run⟩))
      | none => none
    | _ => none
  | .cancelled =>
    match s.phase with
    | .cancelling signal => some (s.to (.interrupting signal))
    | .waking w => some (s.to (.closing w))
    | _ => none
  | .interrupted =>
    match s.phase with
    | .interrupting signal =>
      if s.in_backend ∧ signal ≠ .shutdown then some (s.to (.draining signal))
      else some (s.to (after t ⟨.error (interrupted_failure signal), signal⟩))
    | .overdue => some (s.to (after t ⟨.error timeout_failure, .run⟩))
    | _ => none
  | .drain answers =>
    match s.phase with
    | .draining signal =>
      match poll s.stage answers with
      | some (.pending stage, began) => some ({ s with stage }.polled began)
      | some (.ready result, began) => some ((s.polled began).to (after t ⟨result, signal⟩))
      | none => none
    | _ => none
  | .give_up =>
    match s.phase with
    | .draining signal => some (s.to (after t ⟨.error (interrupted_failure signal), signal⟩))
    | _ => none
  | .close ended_well alive =>
    let confirmed := ended_well && !alive
    match s.phase with
    | .closing w =>
      some ((s.logs (.closed confirmed)).to
        (if confirmed then .recording w true true else .noting w))
    | .closing_again => some ((s.logs (.closed confirmed)).to (.ended ⟨true, confirmed⟩))
    | _ => none
  | .note =>
    match s.phase with
    | .noting w => some ((s.logs .noted).to (.recording w true false))
    | _ => none
  | .complete stale =>
    match s.phase with
    | .recording w retire closed =>
      some ((s.logs (.recorded t.job.id t.job.attempt (completion w))).to
        (if stale then .closing_again else .ended ⟨retire, closed⟩))
    | _ => none

def run (s : State) : List Action → Option State
  | [] => some s
  | a :: actions => (step t s a).bind (run · actions)

/-! ## What the log says -/

def Event.sends : Event → Option Signal
  | .sent signal => some signal
  | _ => none

/-- The signal that ended the wait; `run` when the operation or the deadline did. -/
def Event.ends_wait : Event → Option Signal
  | .taken signal => some signal
  | .finished | .expired => some .run
  | _ => none

def Event.completes : Event → Option (String × Nat × Completion)
  | .recorded job attempt completion => some (job, attempt, completion)
  | _ => none

def last_sent (log : List Event) : Option Signal := (log.filterMap Event.sends).getLast?

def waits (log : List Event) : List Signal := log.filterMap Event.ends_wait

def completions (log : List Event) : List (String × Nat × Completion) :=
  log.filterMap Event.completes

/-- A signal was taken before the operation or the deadline ended the wait. -/
def SignalFirst (log : List Event) : Prop :=
  ∃ earlier signal later, log = earlier ++ .taken signal :: later ∧ waits earlier = []

/-- The process was confirmed closed, or the failure was noted and the supervisor hears of it. -/
def Closed (log : List Event) (e : TaskEnd) : Prop :=
  .closed true ∈ log ∨ .noted ∈ log ∧ e.retire = true ∧ e.closed = false

/-- What holds of a task that came to `s`. -/
structure Settles (s : State) : Prop where
  once : (completions s.log).length ≤ 1
  completed : ∀ e, s.phase = .ended e → (completions s.log).length = 1
  attempt : ∀ c ∈ completions s.log, c.1 = t.job.id ∧ c.2.1 = t.job.attempt
  interrupted : ∀ c ∈ completions s.log, c.2.2.interrupted ↔ SignalFirst s.log
  no_retry : ∀ c ∈ completions s.log, c.2.2.interrupted → c.2.2.allow_retry = false
  /-- A signal that is taken is the latest that was sent. -/
  latest : ∀ earlier signal later, s.log = earlier ++ .taken signal :: later →
    last_sent earlier = some signal
  stopped : .taken .stop ∈ s.log → ∀ c ∈ completions s.log, c.2.2.stopped
  stop_sent : ∀ earlier job attempt c later,
    s.log = earlier ++ .recorded job attempt c :: later → c.stopped → .sent .stop ∈ earlier
  begun_first : ∀ earlier signal later, s.log = earlier ++ .taken signal :: later →
    .begun ∉ later
  closed : ∀ e, s.phase = .ended e →
    (t.ephemeral ∨ (∃ c ∈ completions s.log, c.2.2.outcome.isOk = false) ∨
      ∃ signal, .taken signal ∈ s.log) → Closed s.log e
  /-- Nothing keeps the task from its end. -/
  ends : ∃ actions s' e, run t s actions = some s' ∧ s'.phase = .ended e

/-- A Stop that was sent before the completion was recorded marks it. -/
def StopsMarked (log : List Event) : Prop :=
  ∀ earlier job attempt c later, log = earlier ++ .recorded job attempt c :: later →
    .sent .stop ∈ earlier → c.stopped

end Fridica.Workers.RunTask
