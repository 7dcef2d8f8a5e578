import Fridica.Lib.Act
import Fridica.Lib.Text
import Mathlib.Data.Rat.Defs

/-!
# The owner's controls of a thread

`apply` and `instruct` of `threads/controls.rs`. One call is one unit of work, which is discarded
when it fails. A time that is not finite is `none`.
-/

namespace Fridica.Threads.Controls

open Fridica.Effect Fridica.Text

/-! ## What is stored -/

inductive Authority
  | owner
  | system
  | desktop_read_only
deriving DecidableEq

inductive ThreadControl
  | active
  | paused (by_ : Authority) (reason : String) (since : ℚ)
  | closed
  | archived
  | cleaned
deriving DecidableEq

/-- `details` is `none` where the stored text is no `ThreadControl`. -/
structure ControlState where
  control : String
  details : Option ThreadControl
deriving DecidableEq

inductive Control
  | pause (reason : String)
  | resume
  | retry
  | close
  | archive
  | restore
  | clean
  | instruct (text : String)
deriving DecidableEq

/-- The `owner_instruction` of the inbox. -/
structure Instruction where
  client_id : String
  id : Int
  text : String
deriving DecidableEq

structure ResumePoint where
  latest : Option (String × ℚ)
  newest : ℚ

structure Core (σ : Type) where
  can_resume : ThreadControl → Authority → Bool
  control_state : σ → String → Except String ControlState
  owner_instruction : σ → String → String → Option (Int × String)
  worker_stop_pending : σ → String → Except String Bool
  has_live_workers : σ → String → Except String Bool
  worker_control_pending : σ → String → Except String Bool
  resume_point : σ → String → Except String ResumePoint
  set_control : String → String → ThreadControl → String → ℚ → Bool → Act σ String Unit
  restart_turns : String → Act σ String Unit
  retry_failed_turn : String → Act σ String (Option Int)
  unblock : String → Act σ String Unit
  release_worker_results : String → Act σ String Unit
  queue_worker_stops : List String → ℚ → Bool → Act σ String Unit
  wipe : String → ℚ → Act σ String Unit
  queue_owner_instruction : String → String → String → ℚ → Act σ String Int
  reset_thread_at : String → ℚ → Act σ String Unit
  resume_message : String → String → Bool → ℚ → Act σ String Unit
  audit_control : ℚ → Authority → String → String → Control → Act σ String Unit
  record : String → ℚ → String → Authority → Control → Act σ String Unit

structure View where
  control : ControlState
  instructions : List Instruction
deriving DecidableEq

section Contract

variable {σ : Type}

/-- The computation leaves the thread as it is, or fails. -/
def Leaves {α : Type} (view : σ → View) (m : Act σ String α) : Prop :=
  ∀ s, wp m (fun _ t => view t = view s) (fun _ _ => True) s

/-- The storage contract, for one thread. -/
structure Core.Contract (u : Core σ) (session : String) (view : σ → View) : Prop where
  control_state : ∀ s c, u.control_state s session = .ok c → c = (view s).control
  owner_instruction : ∀ s client_id, u.owner_instruction s session client_id =
    ((view s).instructions.find? (·.client_id = client_id)).map fun r => (r.id, r.text)
  set_control : ∀ state detail reason now reset s,
    wp (u.set_control session state detail reason now reset)
      (fun _ t => view t = { view s with control := ⟨state, some detail⟩ }) (fun _ _ => True) s
  queue_owner_instruction : ∀ client_id text now s,
    wp (u.queue_owner_instruction session client_id text now)
      (fun id t => view t =
        { view s with instructions := (view s).instructions ++ [⟨client_id, id, text⟩] })
      (fun _ _ => True) s
  /-- The rows stay, with their ids. Their texts are erased. -/
  wipe : ∀ now s, wp (u.wipe session now)
    (fun _ t => view t =
      { view s with instructions := (view s).instructions.map ({ · with text := "" }) })
    (fun _ _ => True) s
  restart_turns : Leaves view (u.restart_turns session)
  retry_failed_turn : Leaves view (u.retry_failed_turn session)
  unblock : Leaves view (u.unblock session)
  release_worker_results : Leaves view (u.release_worker_results session)
  queue_worker_stops : ∀ now force, Leaves view (u.queue_worker_stops [session] now force)
  reset_thread_at : ∀ boundary, Leaves view (u.reset_thread_at session boundary)
  resume_message : ∀ event trigger now, Leaves view (u.resume_message session event trigger now)
  audit_control : ∀ now actor name action,
    Leaves view (u.audit_control now actor name session action)
  record : ∀ kind now actor action, Leaves view (u.record kind now session actor action)

end Contract

/-! ## One call -/

section Calls

variable {σ : Type} (u : Core σ)

def query {α : Type} (f : σ → Except String α) : Act σ String α := do
  match f (← get) with
  | .ok a => return a
  | .error e => throw e

def refuse (p : Prop) [Decidable p] (e : String) : Act σ String Unit :=
  if p then throw e else pure ()

def when (p : Prop) [Decidable p] (m : Act σ String Unit) : Act σ String Unit :=
  if p then m else pure ()

def terminal (control : String) : Bool :=
  control = "closed" ∨ control = "archived" ∨ control = "cleaned"

def ThreadControl.is_paused : ThreadControl → Bool
  | .paused .. => true
  | _ => false

/-- The control before the call. A pause of before the details were stored is the owner's. -/
def prior (c : ControlState) (now : ℚ) : ThreadControl :=
  let prior := c.details.getD .active
  if c.control = "paused" ∧ prior.is_paused = false then
    .paused .owner "Unclassified legacy pause" now
  else prior

/-- The state that the control leads to, its name, and the details to store. -/
def target (session : String) (action : Control) (actor : Authority) (now : ℚ) (c : ControlState) :
    Act σ String (String × String × ThreadControl) :=
  match action with
  | .pause reason => do
    refuse (terminal c.control) "closed threads require explicit restoration"
    refuse (trim reason = "") "pause requires a reason"
    match prior c now with
    | .paused .owner _ _ =>
      -- No other actor can relabel an owner's pause and then resume it.
      refuse (actor ≠ .owner) "owner pause is protected"
    | _ => pure ()
    return ("paused", "pause", .paused actor reason now)
  | .resume => do
    refuse (c.control = "paused" ∧ u.can_resume (prior c now) actor = false)
      "only the owner may resume an owner-paused thread"
    refuse (terminal c.control) "closed threads require explicit restoration"
    return ("active", "resume", .active)
  | .instruct _ => do
    refuse (c.control = "paused" ∧ u.can_resume (prior c now) actor = false)
      "only the owner may resume an owner-paused thread"
    refuse (actor ≠ .owner) "owner instructions require owner authentication"
    refuse (terminal c.control) "closed threads require explicit restoration"
    return ("active", "instruct", .active)
  | .retry => do
    refuse (c.control ≠ "active") "only an active thread can retry its last decision"
    return ("active", "retry", .active)
  | .restore => do
    refuse (actor ≠ .owner) "restoration requires owner authentication"
    let stopping ← query (u.worker_stop_pending · session)
    -- Include older terminal threads which predate durable stop intents.
    let live ← query (u.has_live_workers · session)
    refuse stopping "thread worker cleanup is pending"
    let control ← query (u.worker_control_pending · session)
    refuse control "thread worker cleanup is pending"
    refuse (terminal c.control ∧ live) "thread worker cleanup is pending"
    return ("active", "restore", .active)
  | .close => do
    refuse (actor ≠ .owner) "only the owner may close, archive or clean a thread"
    return ("closed", "close", .closed)
  | .archive => do
    refuse (actor ≠ .owner) "only the owner may close, archive or clean a thread"
    return ("archived", "archive", .archived)
  | .clean => do
    refuse (actor ≠ .owner) "only the owner may close, archive or clean a thread"
    return ("cleaned", "clean", .cleaned)

def ThreadControl.reason : ThreadControl → String
  | .paused _ reason _ => reason
  | _ => ""

/-- What the control does to the turns of the thread. -/
def turns (session : String) : Control → Act σ String Unit
  | .resume => u.restart_turns session
  | .retry => do
    -- Nothing changes: the unit of work is discarded.
    let turn ← u.retry_failed_turn session
    refuse turn.isNone "nothing to retry"
  | .instruct _ => u.unblock session
  | _ => pure ()

/-- What it does to the workers and to what is kept of a thread that is left. -/
def left (session : String) (action : Control) (state : String) (now : ℚ) : Act σ String Unit := do
  when (state = "active") (u.release_worker_results session)
  when (action = .close ∨ action = .archive ∨ action = .clean)
    (u.queue_worker_stops [session] now true)
  when (action = .clean) (u.wipe session now)

/-- What it puts into the inbox. -/
def queued (session : String) (actor : Authority) (now : ℚ) (client_id : Option String) :
    Control → Act σ String (Option Int)
  | .instruct text => do
    refuse (trim text = "") "instruction must contain text"
    return some (← u.queue_owner_instruction session (client_id.getD "") text now)
  | .resume => do
    let point ← query (u.resume_point · session)
    let boundary := point.latest.elim point.newest (·.2 - 1 / 1000000)
    u.reset_thread_at session boundary
    (match point.latest with
      | some (event, _) => u.resume_message session event (actor = .owner) now
      | none => pure ())
    return none
  | _ => return none

def apply_tx (session : String) (action : Control) (actor : Authority) (now : ℚ)
    (client_id : Option String) : Act σ String (Option Int) := do
  let c ← query (u.control_state · session)
  let (state, name, detail) ← target u session action actor now c
  let reset_streak := state = "active" ∧ action ≠ .restore
  u.set_control session state detail detail.reason now reset_streak
  turns u session action
  left u session action state now
  let instruction ← queued u session actor now client_id action
  u.audit_control now actor ("thread." ++ name) session action
  u.record "thread_control" now session actor action
  return instruction

/-- A unit of work: all of it, or nothing. -/
def transact {α : Type} (m : Act σ String α) (s : σ) : Except String α × σ :=
  match outcome m s with
  | (.ok a, t) => (.ok a, t)
  | (.error e, _) => (.error e, s)

def apply (session : String) (action : Control) (actor : Authority) (now : Option ℚ) (s : σ) :
    Except String Unit × σ :=
  match now with
  | none => (.error "invalid control time", s)
  | some now =>
    if actor ≠ .owner then (.error "thread control requires an authenticated capability", s)
    else transact (do let _ ← apply_tx u session action actor now none) s

def client_valid (client_id : String) : Bool :=
  8 ≤ client_id.utf8ByteSize ∧ client_id.utf8ByteSize ≤ 80 ∧
    client_id.toList.all fun c => c.isAlphanum || c = '-'

def instruct (session text client_id : String) (actor : Authority) (now : Option ℚ) (s : σ) :
    Except String Int × σ :=
  match now with
  | none => (.error "owner instruction authentication required", s)
  | some now =>
    if actor ≠ .owner then (.error "owner instruction authentication required", s)
    else
      let text := trim text
      if ¬ (1 ≤ text.length ∧ text.length ≤ 4000 ∧ client_valid client_id) then
        (.error "invalid instruction", s)
      else transact (do
        match u.owner_instruction (← get) session client_id with
        | some (id, prior) =>
          refuse (prior ≠ text) "instruction ID reused with different text"
          return id
        | none =>
          match ← apply_tx u session (.instruct text) actor now (some client_id) with
          | some id => return id
          | none => throw "instruction ID") s

/-! ## Any number of calls -/

inductive Call
  | control (action : Control) (actor : Authority) (now : Option ℚ)
  | instruct (text client_id : String) (actor : Authority) (now : Option ℚ)
deriving DecidableEq

/-- The instruction id of a call that succeeds, if it is an instruction. -/
def perform (session : String) (s : σ) : Call → Except String (Option Int) × σ
  | .control action actor now =>
    let (answer, t) := apply u session action actor now s
    (answer.map fun _ => none, t)
  | .instruct text client_id actor now =>
    let (answer, t) := instruct u session text client_id actor now s
    (answer.map some, t)

structure Entry where
  call : Call
  answer : Except String (Option Int)

def Entry.cleans (e : Entry) : Bool :=
  match e.call, e.answer with
  | .control .clean _ _, .ok _ => true
  | _, _ => false

/-- The calls so far with their answers, the latest first. The workers are cleaned up in between. -/
inductive Run (session : String) (view : σ → View) (start : σ) : σ → List Entry → Prop
  | start : Run session view start start []
  | call {s : σ} {log : List Entry} (c : Call) : Run session view start s log →
      Run session view start (perform u session s c).2 (⟨c, (perform u session s c).1⟩ :: log)
  | cleanup {s t : σ} {log : List Entry} : Run session view start s log → view t = view s →
      Run session view start t log

end Calls

end Fridica.Threads.Controls
