import Fridica.Workers.Supervisor.World
import Fridica.Lib.Text

/-!
# The operations of the supervisor

`workers/supervisor.rs`: `reap`, `schedule`, `interrupt`, `stop`, `reconcile_parent_controls`,
`close` and what they call.
-/

open Fridica.Effect

namespace Fridica.Workers

variable (out : Outside)

/-! ## The live entries and the running jobs -/

/-- The first entry of a worker, with its index. -/
def position (live : List Live) (worker_id : String) : Option (Live × Nat) :=
  live.zipIdx.find? (·.1.worker_id = worker_id)

def retire (i : Nat) (live : List Live) : List Live :=
  live.modify i fun l => { l with retiring := true }

/-- `live.retain(|l| l.worker_id != worker_id)` -/
def retain (worker_id : String) (live : List Live) : List Live :=
  live.filter (·.worker_id ≠ worker_id)

def get (id : String) (running : List (String × Running)) : Option Running :=
  (running.find? (·.1 = id)).map (·.2)

def remove (id : String) (running : List (String × Running)) : List (String × Running) :=
  running.filter (·.1 ≠ id)

def insert (id : String) (r : Running) : List (String × Running) → List (String × Running)
  | [] => [(id, r)]
  | (k, v) :: rest =>
    if id < k then (id, r) :: (k, v) :: rest
    else if id = k then (id, r) :: rest
    else (k, v) :: insert id r rest

def send_replace (id : String) (signal : Signal) (running : List (String × Running)) :
    List (String × Running) :=
  running.map fun p => if p.1 = id then (p.1, { p.2 with control := signal }) else p

def running_of (worker_id : String) (running : List (String × Running)) :
    Option (String × Running) :=
  running.find? (·.2.worker_id = worker_id)

/-- The tasks that have not been awaited yet. -/
def Scene.tasks (sc : Scene) : List (String × Running) := sc.running ++ sc.taken

/-- A job of the worker runs in such a task. -/
def Scene.engaged (sc : Scene) (worker_id : String) : Bool :=
  sc.tasks.any (·.2.worker_id = worker_id)

/-- The processes of a worker's entries. -/
def Scene.processes (sc : Scene) (worker_id : String) : List Nat :=
  (sc.live.filter (·.worker_id = worker_id)).map (·.worker)

/-! ## Reaping -/

/-- The task of a running job has finished, or its durable job is over. -/
def is_over (id : String) : Sup Bool := do
  let a ← tick out
  if a.is_finished then return true
  else
    let j ← job out id
    return j.status ≠ "running"

def finished : List (String × Running) → Sup (List String)
  | [] => return []
  | (id, _) :: rest => do
    let ended ← is_over out id
    let done ← finished rest
    return if ended then id :: done else done

/-- A task that ends so may leave its process behind. -/
def leaves_process : Except String TaskEnd → Bool
  | .ok e => e.retire && !e.closed
  | .error _ => true

/-- The task of a running job ends with `result`. -/
def Scene.ended (id worker_id : String) (result : Except String TaskEnd) (sc : Scene) : Scene :=
  { sc with
    running := remove id sc.running
    unconfirmed :=
      if leaves_process result then sc.processes worker_id ++ sc.unconfirmed else sc.unconfirmed }

/-- What `reap` does with the entry of a worker whose task ended. -/
def Scene.reaped (worker_id : String) (result : Except String TaskEnd) (sc : Scene) : Scene :=
  if leaves_process result then
    match position sc.live worker_id with
    | none => sc
    | some (_, i) => { sc with live := retire i sc.live }
  else
    match result with
    | .ok ⟨true, _⟩ => { sc with live := retain worker_id sc.live }
    | _ => sc

def reap_one (error : Option String) (id : String) : Sup (Option String) := do
  let result := (← tick out).task
  let sc ← scene
  match get id sc.running with
  | none => throw "called `Option::unwrap()` on a `None` value"
  | some r => do
    edit fun sc => (sc.ended id r.worker_id result).reaped r.worker_id result
    match result with
    | .ok _ => return error
    | .error e => return some e

def reap : Sup Unit := do
  let sc ← scene
  let done ← finished out sc.running
  match ← done.foldlM (reap_one out) none with
  | some e => throw e
  | none => return

/-! ## Closing -/

def close_worker (worker : Nat) : Sup Bool := do
  let a ← tick out
  let sc ← scene
  return a.close ∧ ¬ sc.alive worker

/-- The entry at `i` is `l`: its close begins. -/
def Scene.retiring (i : Nat) (l : Live) (sc : Scene) : Scene :=
  { sc with
    live := retire i sc.live
    dead :=
      if l.retiring ∨ sc.alive l.worker ∨ sc.engaged l.worker_id then sc.dead
      else l.worker :: sc.dead }

def close_live (i : Nat) : Sup Bool := do
  let _ ← tick out
  let sc ← scene
  match sc.live[i]? with
  | none => throw "index out of bounds"
  | some l => do
    edit (Scene.retiring i l)
    if ← close_worker out l.worker then
      edit fun sc => { sc with live := sc.live.eraseIdx i }
      return true
    else
      edit fun sc => { sc with unconfirmed := l.worker :: sc.unconfirmed }
      if l.retiring then return false
      else
        let now ← clock out
        record_close_failure out l.worker_id now
        return false

/-! ## Scheduling -/

def make_spec (config : Config) (w : WorkerRecord) : Except String WorkerSpec :=
  match config.machine w.machine with
  | none => .error "machine removed"
  | some m =>
    if m.transport = "slurm" then .error "Slurm execution is unsupported"
    else
      match m.workspaces.find? (·.name = w.workspace) with
      | none => .error "workspace removed"
      | some space =>
        if w.backend ∉ m.backends then .error "backend removed"
        else
          let same_backend : Bool := w.backend = config.parent.backend
          .ok {
            worker_id := w.id
            machine := out.machine_for_slot m w.slot
            workspace := out.workspace_for_slot space w.slot
            backend := w.backend
            instructions := ""
            model := if same_backend then config.parent.model else ""
            reasoning_effort := if same_backend then config.parent.reasoning_effort else ""
            job_timeout := config.limits.job_timeout
            idle_timeout := config.limits.worker_idle
            excluded_env := config.secret_env
            slot := w.slot }

def failed (code : String) (kind : FailureKind) : Completion :=
  ⟨⟨kind, code, ""⟩, false, false, false⟩

/-- The bookkeeping of one pass. -/
structure Pass where
  records : List WorkerRecord
  occupied : List (String × Nat)
  busy : List String
  per_machine : String → Nat
  assigned : String × Nat → Nat
  total : Nat
  started : List String

namespace Pass

def record (p : Pass) (id : String) : Option WorkerRecord := p.records.find? (·.id = id)

/-- The bookkeeping at the start: the running jobs hold their slots, and every worker that is not
stopped is assigned to its slot. -/
def start (snapshot : WorkSnapshot) (running : List (String × Running)) : Pass :=
  let records := snapshot.workers.foldl
    (fun records w => w :: records.filter (·.id ≠ w.id)) []
  let held := snapshot.running.filterMap fun j => records.find? (·.id = j.worker_id)
  { records := records
    occupied := held.map fun w => (w.machine, w.slot)
    busy := snapshot.running.map (·.worker_id) ++ running.map (·.2.worker_id)
    per_machine := fun machine => held.countP (·.machine = machine)
    assigned := fun slot =>
      records.countP fun w => w.status ≠ "stopped" ∧ (w.machine, w.slot) = slot
    total := snapshot.running.length
    started := [] }

/-- `min_by_key`: the first of the least. -/
def least (key : Nat → Nat × Nat) : List Nat → Option Nat
  | [] => none
  | slot :: rest =>
    match least key rest with
    | none => some slot
    | some other =>
      if (key slot).1 < (key other).1 ∨ (key slot).1 = (key other).1 ∧ (key slot).2 ≤ (key other).2
      then some slot else some other

/-- The slot that a job of `w` takes on `m`: the worker's own, or the free one with the fewest
workers. -/
def choose (p : Pass) (m : Machine) (w : WorkerRecord) : Option Nat :=
  if 0 < w.slot ∧ w.slot ≤ m.max_jobs then
    if (m.name, w.slot) ∈ p.occupied then none else some w.slot
  else
    least (fun slot => (p.assigned (m.name, slot), slot))
      ((List.range' 1 m.max_jobs).filter fun slot => (m.name, slot) ∉ p.occupied)

/-- The bookkeeping once a job of `w` runs in `slot`. -/
def take (p : Pass) (w : WorkerRecord) (slot : Nat) (c : ClaimedJob) : Pass :=
  { records := c.worker :: p.records.filter (·.id ≠ c.worker.id)
    occupied := (c.worker.machine, slot) :: p.occupied
    busy := c.worker.id :: p.busy
    per_machine := fun machine =>
      p.per_machine machine + if machine = c.worker.machine then 1 else 0
    assigned := fun at_slot =>
      p.assigned at_slot +
        if at_slot = (c.worker.machine, slot) ∧ c.worker.slot ≠ w.slot then 1 else 0
    total := p.total + 1
    started := p.started ++ [c.job.id] }

end Pass

/-- The spec with the instructions of the owner, read again for each job. -/
def spec_of (config : Config) (view : WorkerRecord) : Sup (Except String WorkerSpec) := do
  match make_spec out config view with
  | .error e => return .error e
  | .ok spec =>
    match (← tick out).instructions with
    | .error e => return .error e
    | .ok instructions =>
      if Text.trim instructions = "" then return .error "worker instructions are empty"
      else return .ok { spec with instructions := instructions }

/-- The entry may keep the process that it has. -/
def current (config : Config) (now : ℚ) (j : Job) (w : WorkerRecord)
    (spec : Except String WorkerSpec) (alive : Bool) (l : Live) : Prop :=
  ¬ (w.updated ≠ 0 ∧ config.limits.session_timeout < now - w.updated ∧ j.retry_of = "") ∧
    (match spec with
      | .error _ => False
      | .ok spec => spec = l.spec) ∧
    l.retiring = false ∧ alive

instance {config : Config} {now : ℚ} {j : Job} {w : WorkerRecord}
    {spec : Except String WorkerSpec} {alive : Bool} {l : Live} :
    Decidable (current config now j w spec alive l) := by
  unfold current
  cases spec <;> infer_instance

/-- Retiring or changed-policy processes must be confirmed closed first. -/
def settle_process (config : Config) (now : ℚ) (j : Job) (w : WorkerRecord)
    (spec : Except String WorkerSpec) : Sup Bool := do
  let _ ← tick out
  let sc ← scene
  match position sc.live w.id with
  | none => return true
  | some (l, i) =>
    if current config now j w spec (sc.alive l.worker) l then return true
    else close_live out i

/-- The entries that take up a process of machine `m`, as the supervisor counts them. -/
def Scene.occupied_processes (sc : Scene) (m : Machine) : List (Live × Nat) :=
  sc.live.zipIdx.filter fun p =>
    p.1.spec.machine.name = m.name ∧
      (sc.alive p.1.worker ∨ p.1.retiring ∨ sc.running.any (·.2.worker_id = p.1.worker_id))

/-- An idle process that may be closed for another worker. -/
def Scene.victim (sc : Scene) (m : Machine) (queued : List Job) : Option (Live × Nat) :=
  (sc.occupied_processes m).find? fun p =>
    ¬ sc.running.any (·.2.worker_id = p.1.worker_id) ∧ ¬ queued.any (·.worker_id = p.1.worker_id) ∧
      ¬ sc.busy p.1.worker

/-- The eviction loop: whether machine `m` has room for one more process. -/
def make_room (m : Machine) (queued : List Job) : Nat → Sup Bool
  | 0 => return false
  | fuel + 1 => do
    let _ ← tick out
    let sc ← scene
    if (sc.occupied_processes m).length < m.max_workers then return true
    else
      match sc.victim m queued with
      | none => return false
      | some (l, i) => do
        log (.evict l.worker queued)
        if ← close_live out i then make_room m queued fuel
        else return false

/-- Room for a worker without an entry. Every turn of the loop removes an entry. -/
def find_room (m : Machine) (queued : List Job) (w : WorkerRecord) : Sup Bool := do
  let sc ← scene
  if sc.live.any (·.worker_id = w.id) then return true
  else make_room out m queued (sc.live.length + 1)

/-- The worker's process: the one in its entry, or a new one. -/
def process_for (c : ClaimedJob) (spec : WorkerSpec) : Sup (Except WorkerFailure Nat) := do
  let a ← tick out
  let sc ← scene
  match sc.live.find? (·.worker_id = c.worker.id) with
  | some l => return .ok l.worker
  | none =>
    match a.create with
    | some failure => return .error failure
    | none => do
      edit fun sc => { sc with
        live := sc.live ++ [⟨c.worker.id, spec, sc.handles, false⟩]
        handles := sc.handles + 1 }
      return .ok sc.handles

/-- The claimed job gets its process and its task, or ends in a failure. -/
def launch (p : Pass) (now : ℚ) (w : WorkerRecord) (slot : Nat) (spec : Except String WorkerSpec)
    (c : ClaimedJob) : Sup Pass := do
  match spec with
  | .error _ => do
    complete out c.job.id c.job.attempt (failed "worker_configuration_unavailable" .refusal) now
    return p
  | .ok spec =>
    match ← process_for out c spec with
    | .error failure => do
      complete out c.job.id c.job.attempt ⟨failure, false, false, false⟩ now
      return p
    | .ok worker => do
      log (.start c.job.id worker)
      edit fun sc => { sc with
        running := insert c.job.id ⟨c.worker.id, c.job.attempt, .run⟩ sc.running }
      return p.take w slot c

/-- One queued job of the pass. -/
def schedule_job (config : Config) (now : ℚ) (queued : List Job) (p : Pass) (j : Job) :
    Sup Pass := do
  match p.record j.worker_id with
  | none => throw "queued job has no worker"
  | some w =>
    match config.machine w.machine with
    | none => do
      let _ ← claim out j.id 1 config now
      return p
    | some m =>
      if w.status = "stopped" then do
        let _ ← claim out j.id 1 config now
        return p
      else if w.id ∈ p.busy ∨ m.max_jobs ≤ p.per_machine m.name then return p
      else
        match p.choose m w with
        | none => return p
        | some slot => do
          let spec ← spec_of out config { w with slot := slot }
          if ← settle_process out config now j w spec then
            if ← find_room out m queued w then
              match ← claim out j.id slot config now with
              | none => return p
              | some c => launch out p now w slot spec c
            else return p
          else return p

/-- The loop over the queued jobs, which ends at the limit. -/
def schedule_jobs (config : Config) (now : ℚ) (queued : List Job) : List Job → Pass → Sup Pass
  | [], p => return p
  | j :: rest, p =>
    if config.limits.max_jobs ≤ p.total then return p
    else do
      let p ← schedule_job out config now queued p j
      schedule_jobs config now queued rest p

def schedule : Sup (List String) := do
  reap out
  let sc ← scene
  if sc.closing ∨ sc.observe_only then return []
  else
    let now ← clock out
    let snapshot ← work_snapshot out
    let p ← schedule_jobs out sc.config now snapshot.queued snapshot.queued
      (Pass.start snapshot sc.running)
    return p.started

/-! ## Controls -/

def send (id : String) (signal : Signal) (intent : Option WorkerIntent) : Sup Unit := do
  log (.send id signal intent)
  edit fun sc => { sc with running := send_replace id signal sc.running }

def interrupt (worker_id : String) : Sup Bool := do
  reap out
  let sc ← scene
  match running_of worker_id sc.running with
  | none => return false
  | some (id, _) => do
    let now ← clock out
    interrupt_worker out worker_id now
    send id .interrupt none
    return true

/-- The process that a stop leaves: the one of the task that it awaited, or an idle one. -/
def stop_process (worker_id : String) (retire_it : Bool) : Sup Unit := do
  let sc ← scene
  match position sc.live worker_id with
  | none => return
  | some (_, i) => do
    if retire_it then edit fun sc => { sc with live := retire i sc.live }
    let _ ← close_live out i

/-- Process-only cleanup for a stop whose durable effects already committed. -/
def finish_stop (worker_id : String) : Sup Unit := do
  let sc ← scene
  match running_of worker_id sc.running with
  | some (id, _) => do
    send id .stop none
    let result := (← tick out).task
    edit (Scene.ended id worker_id result)
    match result with
    | .error e => throw e
    | .ok e =>
      if e.closed then edit fun sc => { sc with live := retain worker_id sc.live }
      else stop_process out worker_id e.retire
  | none => stop_process out worker_id false
  let sc ← scene
  if sc.live.any fun l => l.worker_id = worker_id ∧ l.retiring then
    throw "worker process termination remains unconfirmed"

def stop (worker_id : String) : Sup Unit := do
  let now ← clock out
  stop_worker out worker_id "owner" now
  finish_stop out worker_id

/-- Interrupted tasks may retain an unconfirmed process. Finish its retirement first. -/
def finish_retirement (worker_id : String) : Sup Unit := do
  let sc ← scene
  if sc.running.any (·.2.worker_id = worker_id) then return
  else
    match sc.live.zipIdx.find? fun p => p.1.worker_id = worker_id ∧ p.1.retiring with
    | none => return
    | some (_, i) =>
      if ← close_live out i then return
      else throw "worker process termination remains unconfirmed"

/-- What completes an intent, if anything does yet. -/
def control_outcome (intent : WorkerIntent) : Sup (Option String) := do
  match intent.op with
  | .stop => do
    finish_stop out intent.worker
    return some "stopped"
  | .interrupt =>
    let sc ← scene
    match (intent.job.bind fun id => (get id sc.running).map (id, ·)).filter
      fun r => r.2.worker_id = intent.worker ∧ some r.2.attempt = intent.attempt with
    | some (id, r) => do
      -- A concurrent owner stop or interrupt takes precedence.
      if r.control = .run then send id .interrupt (some intent)
      return none
    | none =>
      match intent.job with
      | none => return some "idle_noop"
      | some id => do
        let target ← job out id
        if some target.attempt = intent.attempt ∧ target.status = "running" then
          throw "worker outcome remains unconfirmed"
        else do
          finish_retirement out intent.worker
          return some
            (if some target.attempt = intent.attempt then "target_finished"
            else "target_superseded")

def reconcile_one (_ : Unit) (c : PendingWorkerControl) : Sup Unit := do
  match ← control_outcome out c.intent with
  | none => return
  | some outcome => do
    let now ← clock out
    complete_worker_control out c.seq c.intent outcome now

def reconcile_parent_controls : Sup Unit := do
  let sc ← scene
  if sc.observe_only then return
  else
    reap out
    let pending ← pending_worker_controls out
    pending.foldlM (reconcile_one out) ()

/-! ## Closing down and new configurations -/

def settle : Sup Unit := reap out

def await_taken (failure : Option String) (p : String × Running) : Sup (Option String) := do
  let result := (← tick out).task
  edit fun sc => { sc.ended p.1 p.2.worker_id result with taken := remove p.1 sc.taken }
  match result with
  | .ok _ => return failure
  | .error e => return some e

/-- A failed close must not prevent termination of independent processes. -/
def close_next (failure : Option String) (i : Nat) : Sup (Option String) := do
  match ← attempt (close_live out i) with
  | .ok true => return failure
  | .ok false => return some "worker process termination remains unconfirmed"
  | .error e => return some e

def close : Sup Unit := do
  edit fun sc => { sc with
    closing := true
    taken := sc.taken ++ sc.running.map fun p => (p.1, { p.2 with control := .shutdown })
    running := [] }
  let sc ← scene
  let failure ← sc.taken.foldlM (await_taken out) none
  let sc ← scene
  match ← (List.range sc.live.length).reverse.foldlM (close_next out) failure with
  | some e => throw e
  | none => return

def reconfigure (config : Config) : Sup Unit := do
  let sc ← scene
  if sc.closing then throw "supervisor is closing"
  else if config.limits.job_timeout ≤ 0 then throw "invalid worker deadline"
  else
    match (← tick out).reconfigure with
    | some e => throw e
    | none => edit fun sc => { sc with config := config }

/-! ## Runs -/

inductive Operation
  | schedule
  | settle
  | interrupt (worker_id : String)
  | stop (worker_id : String)
  | reconcile_parent_controls
  | close
  | reconfigure (config : Config)
deriving DecidableEq

/-- The world after an operation. -/
def perform (w : World) : Operation → World
  | .schedule => after (schedule out) w
  | .settle => after (settle out) w
  | .interrupt worker_id => after (interrupt out worker_id) w
  | .stop worker_id => after (stop out worker_id) w
  | .reconcile_parent_controls => after (reconcile_parent_controls out) w
  | .close => after (close out) w
  | .reconfigure config => after (reconfigure out config) w

/-- An empty supervisor over a store. -/
def Empty (w : World) : Prop :=
  w.scene.live = [] ∧ w.scene.running = [] ∧ w.scene.taken = [] ∧ w.scene.closing = false ∧
    w.scene.dead = [] ∧ w.scene.unconfirmed = [] ∧ w.history = []

end Fridica.Workers
