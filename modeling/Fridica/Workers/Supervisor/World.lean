import Fridica.Lib.Act
import Mathlib.Data.Rat.Defs
import Mathlib.Algebra.Order.Field.Rat

/-!
# The supervisor and what is around it

The data of `workers/supervisor.rs`, and the world that it runs in: the durable store, the worker
processes and the tasks of the jobs. Between two calls of the supervisor the rest of the daemon and
the processes do what they like. Whatever comes back from outside is an `Answer`, and the answers of
a whole run are given by the number of the call. The mutex over the state is held through a whole
operation, so only one operation runs at a time.
-/

open Fridica.Effect

namespace Fridica.Workers

/-! ## Data -/

structure Workspace where
  name : String
  path : String
deriving DecidableEq

structure Machine where
  name : String
  transport : String
  workspaces : List Workspace
  backends : List String
  /-- `resources.environment()` -/
  environment : List (String × String)
  max_workers : Nat
  max_jobs : Nat
deriving DecidableEq

structure Limits where
  max_jobs : Nat
  session_timeout : ℚ
  job_timeout : ℚ
  worker_idle : ℚ
deriving DecidableEq

structure Parent where
  backend : String
  model : String
  reasoning_effort : String
deriving DecidableEq

structure Config where
  machines : List Machine
  limits : Limits
  parent : Parent
  secret_env : List String
deriving DecidableEq

/-- `config.machines.get(name)` -/
def Config.machine (config : Config) (name : String) : Option Machine :=
  config.machines.find? (·.name = name)

structure WorkerSpec where
  worker_id : String
  machine : Machine
  workspace : Workspace
  backend : String
  instructions : String
  model : String
  reasoning_effort : String
  job_timeout : ℚ
  idle_timeout : ℚ
  excluded_env : List String
  slot : Nat
deriving DecidableEq

structure WorkerRecord where
  id : String
  machine : String
  workspace : String
  backend : String
  slot : Nat
  status : String
  updated : ℚ
deriving DecidableEq

structure Job where
  id : String
  worker_id : String
  attempt : Nat
  status : String
  retry_of : String
deriving DecidableEq

structure ClaimedJob where
  job : Job
  worker : WorkerRecord
deriving DecidableEq

inductive FailureKind
  | refusal
  | execution
  | cancelled
  | interrupted
deriving DecidableEq

structure WorkerFailure where
  kind : FailureKind
  code : String
  backend_session_id : String
deriving DecidableEq

/-- The completion of a job that ends in `failure`. -/
structure Completion where
  failure : WorkerFailure
  interrupted : Bool
  stopped : Bool
  allow_retry : Bool
deriving DecidableEq

inductive WorkerOperation
  | interrupt
  | stop
deriving DecidableEq

structure WorkerIntent where
  op : WorkerOperation
  worker : String
  job : Option String
  attempt : Option Nat
deriving DecidableEq

structure PendingWorkerControl where
  seq : Nat
  intent : WorkerIntent
deriving DecidableEq

structure WorkSnapshot where
  workers : List WorkerRecord
  queued : List Job
  running : List Job
deriving DecidableEq

/-! ## The durable store -/

/-- A committed intent, with the outcome that completed it. -/
structure WorkerControl extends PendingWorkerControl where
  outcome : Option String
deriving DecidableEq

/-- The tables that the supervisor reads. -/
structure Durable where
  workers : List WorkerRecord
  jobs : List Job
  controls : List WorkerControl
deriving DecidableEq

namespace Durable

def queued (d : Durable) : List Job := d.jobs.filter (·.status = "queued")

def running (d : Durable) : List Job := d.jobs.filter (·.status = "running")

def work_snapshot (d : Durable) : WorkSnapshot := ⟨d.workers, d.queued, d.running⟩

def job_record (d : Durable) (id : String) : Option Job := d.jobs.find? (·.id = id)

def pending_worker_controls (d : Durable) : List PendingWorkerControl :=
  (d.controls.filter (·.outcome.isNone)).map (·.toPendingWorkerControl)

end Durable

/-! ## The state -/

inductive Signal
  | run
  | interrupt
  | stop
  | shutdown
deriving DecidableEq

/-- A live entry. `worker` is the handle of its process. -/
structure Live where
  worker_id : String
  spec : WorkerSpec
  worker : Nat
  retiring : Bool
deriving DecidableEq

structure Running where
  worker_id : String
  attempt : Nat
  control : Signal
deriving DecidableEq

structure TaskEnd where
  retire : Bool
  closed : Bool
deriving DecidableEq

structure State where
  config : Config
  live : List Live
  /-- By job id, in its order. -/
  running : List (String × Running)
  closing : Bool
  observe_only : Bool

/-- The state with what is around it. -/
structure Scene extends State where
  /-- The tasks that `close` took and has not awaited yet. -/
  taken : List (String × Running)
  store : Durable
  alive : Nat → Bool
  busy : Nat → Bool
  /-- The next handle. -/
  handles : Nat
  /-- The processes that were neither alive, engaged nor retiring when a close of them began. -/
  dead : List Nat
  /-- The processes that a close or the end of a task left unconfirmed. -/
  unconfirmed : List Nat

/-- What the supervisor does to the outside, as the history keeps it. -/
inductive Call
  | moment
  /-- A victim of an eviction in a pass over the queued jobs. -/
  | evict (worker : Nat) (queued : List Job)
  | start (job : String) (worker : Nat)
  | send (job : String) (signal : Signal) (intent : Option WorkerIntent)
  | done (seq : Nat) (intent : WorkerIntent) (outcome : String)

/-- The scene at every call, the latest first. -/
structure World where
  scene : Scene
  ticks : Nat
  history : List (Call × Scene)

/-! ## The outside -/

structure Answer where
  /-- What the rest of the daemon commits first. -/
  others : Durable → Durable
  /-- The processes that are alive, and those that are busy, from then on. -/
  alive : Scene → Nat → Bool
  busy : Nat → Bool
  now : ℚ
  /-- A read of the store fails. -/
  read : Option String
  is_finished : Bool
  task : Except String TaskEnd
  /-- `close` ends well within the grace period. -/
  close : Bool
  instructions : Except String String
  create : Option WorkerFailure
  /-- The approvals and the factory take a new configuration. -/
  reconfigure : Option String
  claim_job : String → Nat → List Machine → Limits → ℚ → Durable →
    Except String (Option ClaimedJob × Durable)
  complete_job : String → Nat → Completion → ℚ → Durable → Except String Durable
  interrupt_worker : String → ℚ → Durable → Except String Durable
  stop_worker : String → String → ℚ → Durable → Except String Durable
  note : String → String → ℚ → Durable → Except String Durable
  complete_worker_control : Nat → String → ℚ → Durable → Except String Durable

/-- What the supervisor uses from outside this repository. -/
structure Outside where
  answer : Nat → Answer
  machine_for_slot : Machine → Nat → Machine
  workspace_for_slot : Workspace → Nat → Workspace
  machine_for_slot_name : ∀ m slot, (machine_for_slot m slot).name = m.name

abbrev Sup := Act World String

section Calls

variable (out : Outside)

def Scene.moved (a : Answer) (sc : Scene) : Scene :=
  { sc with store := a.others sc.store, alive := a.alive sc, busy := a.busy }

def World.on (f : Scene → Scene) (w : World) : World := { w with scene := f w.scene }

def World.log (c : Call) (w : World) : World := { w with history := (c, w.scene) :: w.history }

/-- The world after its next moment. -/
def World.next (w : World) : World :=
  World.log .moment
    { w with scene := w.scene.moved (out.answer w.ticks), ticks := w.ticks + 1 }

def scene : Sup Scene := return (← get).scene

def edit (f : Scene → Scene) : Sup Unit := modify (World.on f)

def log (c : Call) : Sup Unit := modify (World.log c)

/-- An await. -/
def tick : Sup Answer := do
  let w ← get
  modify (World.next out)
  return out.answer w.ticks

def clock : Sup ℚ := return (← tick out).now

/-! ### Transactions -/

def read {α : Type} (view : Durable → Except String α) : Sup α := do
  let a ← tick out
  let sc ← scene
  match a.read with
  | some e => throw e
  | none =>
    match view sc.store with
    | .error e => throw e
    | .ok x => return x

def write {α : Type} (f : Answer → Durable → Except String (α × Durable)) : Sup α := do
  let a ← tick out
  let sc ← scene
  match f a sc.store with
  | .error e => throw e
  | .ok (x, d) => do
    edit fun sc => { sc with store := d }
    return x

def commit (f : Answer → Durable → Except String Durable) : Sup Unit :=
  write out fun a d => (f a d).map ((), ·)

def work_snapshot : Sup WorkSnapshot := read out fun d => .ok d.work_snapshot

/-- The job with this ID; an unknown job is an error. -/
def job (id : String) : Sup Job :=
  read out fun d =>
    match d.job_record id with
    | none => .error "unknown job"
    | some j => .ok j

def pending_worker_controls : Sup (List PendingWorkerControl) :=
  read out fun d => .ok d.pending_worker_controls

/-- Admit queued job `id` in `slot` against `config`'s machines and limits. -/
def claim (id : String) (slot : Nat) (config : Config) (now : ℚ) : Sup (Option ClaimedJob) :=
  write out fun a d => a.claim_job id slot config.machines config.limits now d

/-- Record how a job attempt ended. -/
def complete (id : String) (attempt : Nat) (completion : Completion) (now : ℚ) : Sup Unit :=
  commit out fun a d => a.complete_job id attempt completion now d

def interrupt_worker (id : String) (now : ℚ) : Sup Unit :=
  commit out fun a d => a.interrupt_worker id now d

def stop_worker (id actor : String) (now : ℚ) : Sup Unit :=
  commit out fun a d => a.stop_worker id actor now d

def record_close_failure (worker_id : String) (now : ℚ) : Sup Unit :=
  commit out fun a d => a.note "worker_close_unconfirmed" worker_id now d

def complete_worker_control (seq : Nat) (intent : WorkerIntent) (outcome : String) (now : ℚ) :
    Sup Unit := do
  let a ← tick out
  let sc ← scene
  match a.complete_worker_control seq outcome now sc.store with
  | .error e => throw e
  | .ok d => do
    log (.done seq intent outcome)
    edit fun sc => { sc with store := d }

end Calls

/-! ### How they end -/

section Ends

variable {out : Outside} {α : Type} {w : World} {E : String → World → Prop}

@[simp] theorem wp_scene {Q : Scene → World → Prop} : wp scene Q E w ↔ Q w.scene w := Iff.rfl

@[simp] theorem wp_edit {f : Scene → Scene} {Q : Unit → World → Prop} :
    wp (edit f) Q E w ↔ Q () (w.on f) := Iff.rfl

@[simp] theorem wp_log {c : Call} {Q : Unit → World → Prop} :
    wp (log c) Q E w ↔ Q () (w.log c) := Iff.rfl

@[simp] theorem wp_tick {Q : Answer → World → Prop} :
    wp (tick out) Q E w ↔ Q (out.answer w.ticks) (w.next out) := Iff.rfl

@[simp] theorem wp_clock {Q : ℚ → World → Prop} :
    wp (clock out) Q E w ↔ Q (out.answer w.ticks).now (w.next out) := Iff.rfl

theorem wp_read {view : Durable → Except String α} {Q : α → World → Prop}
    (hQ : ∀ x, view (w.next out).scene.store = .ok x → Q x (w.next out))
    (hE : ∀ e, E e (w.next out)) : wp (read out view) Q E w := by
  unfold read
  simp only [wp_bind, wp_tick, wp_scene]
  cases (out.answer w.ticks).read with
  | some e => exact hE e
  | none =>
    cases h : view (w.next out).scene.store with
    | error e => exact hE e
    | ok x => exact hQ x h

theorem wp_write {f : Answer → Durable → Except String (α × Durable)} {Q : α → World → Prop}
    (hQ : ∀ x d, f (out.answer w.ticks) (w.next out).scene.store = .ok (x, d) →
      Q x ((w.next out).on fun sc => { sc with store := d }))
    (hE : ∀ e, E e (w.next out)) : wp (write out f) Q E w := by
  unfold write
  simp only [wp_bind, wp_tick, wp_scene]
  cases h : f (out.answer w.ticks) (w.next out).scene.store with
  | error e => exact hE e
  | ok r => exact hQ r.1 r.2 h

theorem wp_commit {f : Answer → Durable → Except String Durable} {Q : Unit → World → Prop}
    (hQ : ∀ d, f (out.answer w.ticks) (w.next out).scene.store = .ok d →
      Q () ((w.next out).on fun sc => { sc with store := d }))
    (hE : ∀ e, E e (w.next out)) : wp (commit out f) Q E w := by
  refine wp_write (fun x d hd => ?_) hE
  cases h : f (out.answer w.ticks) (w.next out).scene.store with
  | error e => simp [h, Except.map] at hd
  | ok d' =>
    obtain rfl : d' = d := by simpa [h, Except.map] using hd
    exact hQ d' h

end Ends

end Fridica.Workers
