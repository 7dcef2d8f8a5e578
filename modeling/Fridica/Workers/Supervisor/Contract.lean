import Fridica.Workers.Supervisor.Spec

/-!
# What the supervisor relies on

The durable store, the other writers and the worker processes are outside. Each result names what it
takes from them here.
-/

namespace Fridica.Workers

namespace Durable

def worker (d : Durable) (id : String) : Option WorkerRecord := d.workers.find? (·.id = id)

/-- The machine and the slot of a worker. -/
def place (d : Durable) (worker_id : String) : Option (String × Nat) :=
  (d.worker worker_id).map fun w => (w.machine, w.slot)

/-- The places that the running jobs occupy. -/
def places (d : Durable) : List (String × Nat) := d.running.filterMap fun j => d.place j.worker_id

/-- How many of them are on a machine. -/
def load (d : Durable) (machine : String) : Nat := d.places.countP (·.1 = machine)

def Stopped (id : String) (d : Durable) : Prop := ∀ w ∈ d.workers, w.id = id → w.status = "stopped"

/-- A job belongs to one worker for good. -/
def Owned (owner : String → String) (d : Durable) : Prop := ∀ j ∈ d.jobs, j.worker_id = owner j.id

/-- A stop is committed before its cleanup is. -/
def StopsCommitted (d : Durable) : Prop :=
  ∀ c ∈ d.controls, c.outcome = none → c.intent.op = .stop → Stopped c.intent.worker d

def RunsAt (id : String) (attempt : Nat) (d : Durable) : Prop :=
  ∃ j, d.job_record id = some j ∧ j.attempt = attempt ∧ j.status = "running"

/-- The intent is not returned any more. -/
def Completed (seq : Nat) (d : Durable) : Prop := ∀ c ∈ d.controls, c.seq = seq → c.outcome ≠ none

def DistinctSeqs (d : Durable) : Prop := (d.controls.map (·.seq)).Nodup

end Durable

open Durable

/-! ## Writers -/

/-- One commit, by the supervisor or by somebody else. -/
inductive Answer.Writes (a : Answer) : Durable → Durable → Prop
  | others {d} : a.Writes d (a.others d)
  | claim_job {id slot machines limits now c d d'} :
    a.claim_job id slot machines limits now d = .ok (c, d') → a.Writes d d'
  | complete_job {id attempt completion now d d'} :
    a.complete_job id attempt completion now d = .ok d' → a.Writes d d'
  | interrupt_worker {id now d d'} : a.interrupt_worker id now d = .ok d' → a.Writes d d'
  | stop_worker {id actor now d d'} : a.stop_worker id actor now d = .ok d' → a.Writes d d'
  | note {kind text now d d'} : a.note kind text now d = .ok d' → a.Writes d d'
  | complete_worker_control {seq outcome now d d'} :
    a.complete_worker_control seq outcome now d = .ok d' → a.Writes d d'

/-- What every commit leaves true. -/
def Outside.Respects (out : Outside) (P : Durable → Prop) : Prop :=
  ∀ n d d', (out.answer n).Writes d d' → P d → P d'

/-! ## A pass over a store that nobody else changes -/

/-- `claim_job` admits the queued job `id` in `slot`, and changes nothing else. -/
structure Admitted (owner : String → String) (id : String) (slot : Nat) (machines : List Machine)
    (c : ClaimedJob) (d d' : Durable) : Prop where
  job_id : c.job.id = id
  job_worker : c.job.worker_id = owner id
  worker_id : c.worker.id = owner id
  worker_slot : c.worker.slot = slot
  worker_status : c.worker.status ≠ "stopped"
  /-- Its worker is not stopped, and its machine is configured. -/
  known : ∃ w, d.worker (owner id) = some w ∧ w.status ≠ "stopped" ∧
    w.machine = c.worker.machine ∧ ∃ m ∈ machines, m.name = w.machine
  queued : ∀ j ∈ d.running, j.id ≠ id
  running : d'.running.Perm (c.job :: d.running)
  worker : d'.worker (owner id) = some c.worker
  workers : ∀ other, other ≠ owner id → d'.worker other = d.worker other

/-- The same jobs run, and every worker has the place that it had. -/
structure Unmoved (d d' : Durable) : Prop where
  running : d'.running.Perm d.running
  place : ∀ id, d'.place id = d.place id

structure Quiet (out : Outside) (owner : String → String) : Prop where
  others : ∀ n d, (out.answer n).others d = d
  note : ∀ n kind text now d d', (out.answer n).note kind text now d = .ok d' → d' = d
  admitted : ∀ n id slot machines limits now c d d',
    (out.answer n).claim_job id slot machines limits now d = .ok (some c, d') →
      Admitted owner id slot machines c d d'
  refused : ∀ n id slot machines limits now d d',
    (out.answer n).claim_job id slot machines limits now d = .ok (none, d') → Unmoved d d'
  /-- The attempt that runs is over once it is completed. -/
  ended_running : ∀ n id attempt completion now d d',
    (∀ j ∈ d.running, j.id = id → j.attempt = attempt) →
    (out.answer n).complete_job id attempt completion now d = .ok d' →
      d'.running.Perm (d.running.filter (·.id ≠ id))
  ended_place : ∀ n id attempt completion now d d',
    (out.answer n).complete_job id attempt completion now d = .ok d' →
      ∀ id, d'.place id = d.place id
  /-- No revival of stopped workers. -/
  stops : ∀ id, out.Respects (Stopped id)

/-! ## Whole runs -/

/-- A claim gives the job that was asked for, with its worker. -/
structure Keyed (out : Outside) (owner : String → String) : Prop where
  owned : out.Respects (Owned owner)
  claimed : ∀ n id slot machines limits now c d d',
    (out.answer n).claim_job id slot machines limits now d = .ok (some c, d') →
      c.job.id = id ∧ c.worker.id = owner id

structure Tame (out : Outside) : Prop where
  /-- An idle process comes alive only after a job is started on it. -/
  idle : ∀ n sc l, l ∈ sc.live → sc.engaged l.worker_id = false →
    (out.answer n).alive sc l.worker = true → sc.alive l.worker = true
  /-- No revival of stopped workers. -/
  stops : ∀ id, out.Respects (Stopped id)
  stopped : ∀ n id actor now d d',
    (out.answer n).stop_worker id actor now d = .ok d' → Stopped id d'
  refused : ∀ n id slot machines limits now c d d',
    (out.answer n).claim_job id slot machines limits now d = .ok (some c, d') →
      ¬ Stopped c.worker.id d
  committed : out.Respects StopsCommitted

/-- An intent is returned until it is completed, and only `claim_job` starts an attempt. -/
structure Steady (out : Outside) : Prop where
  seqs : out.Respects DistinctSeqs
  completed : ∀ seq, out.Respects (Completed seq)
  completes : ∀ n seq outcome now d d',
    (out.answer n).complete_worker_control seq outcome now d = .ok d' → Completed seq d'
  others : ∀ n id attempt d, RunsAt id attempt ((out.answer n).others d) → RunsAt id attempt d
  note : ∀ n kind text now id attempt d d', (out.answer n).note kind text now d = .ok d' →
    RunsAt id attempt d' → RunsAt id attempt d

end Fridica.Workers
