import Mathlib.Data.Rat.Defs
import Mathlib.Algebra.Order.Field.Rat
import Fridica.Attention.Spec

/-!
# The turn of a thread

What one turn of a thread is about and what the parent decides in it
(`ParentRequest` and `Decision`). JSON fields that may be absent are options.
-/

namespace Fridica.Threads

open Fridica.Attention (Trigger)

/-! ## Inbox items -/

inductive Kind
  | message
  | owner_instruction
  | obligation_due
  | worker_result
  | worker_interrupted
  | handoff
  | post_refused
  | debrief
  | worker_progress
  | other (name : String)
deriving DecidableEq

inductive HandoffKind
  | context
  | post
deriving DecidableEq

structure Payload where
  owner_trigger : Bool
  resumed : Bool
  class_ : Option String
  hop : Option Nat
  from_ : Option String
  from_session : Option String
  kind : Option HandoffKind
  note : Option String
  answers : List String
  context : Option String
deriving DecidableEq

def Payload.empty : Payload := ⟨false, false, none, none, none, none, none, none, [], none⟩

structure Meta where
  kind : String
  status : String
  turn : Option Nat
deriving DecidableEq

structure Message where
  event_id : Option String
  ts : Option ℚ
  sender : Option String
  text : Option String
  meta_ : Option Meta
deriving DecidableEq

/-- `matches!(kind, "worker_result" | "worker_interrupted")` -/
def Kind.worker_result? (kind : Kind) : Bool :=
  kind = .worker_result ∨ kind = .worker_interrupted

/-- The kinds of a turn that may answer and delegate. -/
def Kind.supported (kind : Kind) : Bool :=
  match kind with
  | .message | .owner_instruction | .obligation_due | .worker_result | .worker_interrupted
  | .handoff | .post_refused => true
  | .debrief | .worker_progress | .other _ => false

/-! ## Worker results -/

structure ResultRow where
  id : Option String
  job_status : Option String
  reported : Bool
  inbox_id : Option Int
  worker_id : Option String
  /-- `result.status` -/
  result_status : Option String
deriving DecidableEq

/-- Where a worker result came from; `null` has neither field. -/
structure Origin where
  event_id : Option String
  class_ : Option Trigger
deriving DecidableEq

def Origin.null : Origin := ⟨none, none⟩

/-- What `results::load` adds to the trigger of a worker result. -/
structure Snapshot where
  results : List ResultRow
  pending : Bool
  group_size : Option Nat
  origin : Origin
deriving DecidableEq

/-! ## The request -/

/-- What a turn answers to. -/
structure TurnTrigger where
  kind : Kind
  ref : String
  payload : Payload
  message : Option Message
  source_peer : Option Bool
  snapshot : Option Snapshot
  /-- `refused.trigger_event` of a refused post -/
  refused_event : Option String
deriving DecidableEq

structure LinkedThread where
  thread : Option String
  control : Option String
deriving DecidableEq

structure Obligation where
  id : Option String
  state : Option String
  /-- The state of each delivery. -/
  deliveries : Option (List (Option String))
deriving DecidableEq

/-- What a turn reads of its thread. -/
structure SessionData where
  id : Option String
  workspace : Option String
  channel : Option String
  root_ts : Option String
  status : Option String
  version : Option Int
  parent_review_required : Bool
  linked_threads : List LinkedThread
  notes_revision : Option Int
  wait_streak : Option Int
  no_progress : Option Int
  last_reply_hash : Option String
deriving DecidableEq

structure ParentRequest where
  inbox_id : Int
  session : SessionData
  trigger : TurnTrigger
  history : List Message
  obligations : List Obligation
deriving DecidableEq

/-! ## The decision -/

inductive ReplyStatus
  | complete
  | waiting
  | blocked
deriving DecidableEq

def ReplyStatus.as_str : ReplyStatus → String
  | .complete => "complete"
  | .waiting => "waiting"
  | .blocked => "blocked"

inductive Discussion
  | ongoing
  | finished
deriving DecidableEq

structure Reply where
  text : String
  details : String
  status : ReplyStatus
  answers : List String
  discussion : Discussion
  send : Bool
deriving DecidableEq

inductive NoteKind
  | progress
  | ack
  | correction
deriving DecidableEq

structure Note where
  repo : String
  assignee : String
  next_step : String
  blocker : String
  kind : NoteKind
deriving DecidableEq

structure Context where
  machine : String
  workspace : String
  repo : String
  branch : String
deriving DecidableEq

inductive Disposition
  | declined (id reason : String)
  | deferred (id reason : String) (limit : ℚ)
deriving DecidableEq

def Disposition.id : Disposition → String
  | .declined id _ => id
  | .deferred id _ _ => id

structure Ask where
  summary : String
  due : ℚ
deriving DecidableEq

structure Handoff where
  /-- The root timestamp of a linked thread. -/
  thread : String
  kind : HandoffKind
  note : String
  answers : List String
deriving DecidableEq

structure Delegation where
  brief : String
  worker_id : String
deriving DecidableEq

structure Decision where
  reply : Option Reply
  delegations : List Delegation
  dispositions : List Disposition
  asks : List Ask
  handoffs : List Handoff
  context : Context
  note : Note
  summary : String
  decisions : List String
  reopen_blocked : Bool
deriving DecidableEq

def Decision.empty : Decision :=
  ⟨none, [], [], [], [], ⟨"", "", "", ""⟩, ⟨"", "", "", "", .progress⟩, "", [], false⟩

/-! ## The class of a reply -/

/-- `trigger["origin"]["class"]` -/
def TurnTrigger.origin_class (trigger : TurnTrigger) : Option Trigger :=
  trigger.snapshot.bind fun s => s.origin.class_

/-- The class under which `handle` reserves the reply of a turn. -/
def reply_class (trigger : TurnTrigger) : Trigger :=
  if trigger.kind.worker_result? then trigger.origin_class.getD .human
  else if trigger.kind = .owner_instruction then .owner
  else if trigger.kind = .handoff ∨ trigger.kind = .post_refused then
    if trigger.payload.class_ = some "owner" then .owner
    else if trigger.payload.class_ = some "human" then .human
    else .peer
  else if trigger.kind = .obligation_due then
    if trigger.source_peer = some true then .peer else .human
  else if trigger.payload.owner_trigger then .owner
  else if (trigger.message.bind Message.meta_).isSome then .peer
  else .human

end Fridica.Threads
