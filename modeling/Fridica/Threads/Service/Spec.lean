import Fridica.Lib.Dialogue
import Mathlib.Data.Rat.Defs

/-!
# The service

`coordinate` of `threads/service.rs`. What it asks of the store, the host's services, the socket and
the runtime are questions. Of what it waits for at once, what ends first is the answer.
-/

open Fridica.Ask

namespace Fridica.Threads.Service

/-- What the socket fails with is `σ`. -/
inductive Failure (σ : Type)
  | configuration
  | storage
  | runtime
  | socket (failure : σ)
  | socket_stopped
  | shutdown
  | task
  | host_service

variable {σ : Type}

abbrev Outcome (σ : Type) := Except (Failure σ) Unit

/-- What ends the start of the host's services. -/
inductive Started (σ : Type)
  /-- A stop, or the caller is gone. -/
  | stopped
  | started (outcome : Except (Failure σ) (Option String))

/-- What ends the work of the service. -/
inductive Served (σ : Type)
  | stopped
  | host_failed
  | socket (outcome : Except σ Unit)
  /-- The work, the history or the heartbeat. -/
  | loop (outcome : Outcome σ)

structure RuntimeStart where
  pid : ℕ
  started_at : ℚ
  observe_only : Bool
  config_fingerprint : String

/-- What a note or a record says. -/
inductive Detail (σ : Type)
  | previous (status : Option String)
  | observe_only (observe : Bool)
  | failure (failure : Failure σ)
  | ended (failure : Option (Failure σ))

/-- What a unit of work writes. -/
inductive Write (σ : Type)
  | note (kind : String) (detail : Detail σ)
  | record (kind : String) (detail : Detail σ)
  | start_runtime (start : RuntimeStart)
  | stop_runtime
  | advertise_control (endpoint : String)

inductive Query (σ : Type)
  | previous_slack_status
  | transact (writes : List (Write σ))
  | start
  | serve
  | stop_socket
  | stop_host
  | close

abbrev Answer : Query σ → Type
  -- The store may fail, or have no status yet.
  | .previous_slack_status => Option (Option String)
  -- A unit of work is committed or not.
  | .transact _ => Bool
  | .start => Started σ
  | .serve => Served σ
  -- The socket may not end in time.
  | .stop_socket => Option (Except σ Unit)
  | .stop_host => Outcome σ
  | .close => Bool

abbrev Act (σ α : Type) := Fallible (Query σ) Answer (Failure σ) α

def committed (done : Bool) : Outcome σ := if done then .ok () else .error .storage

def transact (writes : List (Write σ)) : Act σ (Outcome σ) := do
  let done ← ask (.transact writes)
  return committed done

def interrupted (previous : Option String) : List (Write σ) :=
  if previous.any (· != "stopped") then [.note "service_interrupted" (.previous previous)] else []

def beginning (previous : Option String) (start : RuntimeStart) : List (Write σ) :=
  interrupted previous ++
    [.start_runtime start, .record "service_start" (.observe_only start.observe_only)]

/-- `begin`, of a clock that tells a time. It reads and writes in one unit of work. -/
def begin_ (start : Option RuntimeStart) : Act σ (Outcome σ) :=
  match start with
  | none => pure (.error .configuration)
  | some start => do
    let status : Option (Option String) ← ask Query.previous_slack_status
    match status with
    | none => return .error .storage
    | some previous => transact (beginning previous start)

def endpoint (path : Option String) : Act σ (Outcome σ) :=
  transact [.advertise_control (path.getD "")]

def health (kind : String) (failure : Failure σ) : Act σ (Outcome σ) :=
  transact [.note kind (.failure failure)]

def Served.outcome : Served σ → Outcome σ
  | .stopped => .ok ()
  | .host_failed => .error .host_service
  | .socket (.ok ()) => .error .socket_stopped
  | .socket (.error failure) => .error (.socket failure)
  | .loop outcome => outcome

def Served.socket_done : Served σ → Bool
  | .socket _ => true
  | _ => false

def closed : Option (Except σ Unit) → Outcome σ
  | some (.ok ()) => .ok ()
  | some (.error failure) => .error (.socket failure)
  | none => .error .shutdown

/-- Preserve the primary failure but also record cleanup faults. -/
def cleanup (kind : String) (outcome result : Outcome σ) : Act σ (Outcome σ) :=
  match outcome with
  | .ok () => pure result
  | .error failure => do
    match ← health kind failure with
    | .ok () => return result.bind fun () => .error failure
    | .error _ => return .error .storage

def serve : Act σ (Outcome σ) := do
  let served : Served σ ← ask Query.serve
  if served.socket_done then return served.outcome
  let outcome : Option (Except σ Unit) ← ask Query.stop_socket
  cleanup "service_socket_shutdown_failed" (closed outcome) served.outcome

/-- The result so far, and whether the service runs. -/
def start (started : Option RuntimeStart) : Act σ (Outcome σ × Bool) := do
  match ← begin_ started with
  | .error failure => return (.error failure, false)
  | .ok () =>
    let host : Started σ ← ask Query.start
    match host with
    | .stopped => return (.ok (), false)
    | .started (.error failure) => return (.error failure, false)
    | .started (.ok path) =>
      let result ← endpoint path
      return (result, true)

def work (result : Outcome σ) (run : Bool) : Act σ (Outcome σ) :=
  match result with
  | .ok () => if run then serve else pure (.ok ())
  | .error failure => pure (.error failure)

/-- Stop accepting/drain authenticated controls before worker teardown. -/
def stop (result : Outcome σ) : Act σ (Outcome σ) := do
  let stopped ← ask .stop_host
  let result ← cleanup "service_host_shutdown_failed" stopped result
  let withdrawn ← endpoint none
  let result := withdrawn.bind fun () => result
  let done ← ask .close
  cleanup "service_worker_shutdown_failed" (if done then .ok () else .error .shutdown) result

def error_of (result : Outcome σ) : Option (Failure σ) :=
  match result with
  | .ok () => none
  | .error failure => some failure

def ending (failure : Option (Failure σ)) : List (Write σ) :=
  [.stop_runtime, .record "service_stop" (.ended failure)] ++
    if failure.isSome then [.note "service_failed" (.ended failure)] else []

def end_ (result : Outcome σ) : Act σ Unit := do
  unit (transact (ending (error_of result)))
  unit (pure result)

def coordinate (started : Option RuntimeStart) : Act σ Unit := do
  let (result, run) ← start started
  let result ← work result run
  let result ← stop result
  end_ result

end Fridica.Threads.Service
