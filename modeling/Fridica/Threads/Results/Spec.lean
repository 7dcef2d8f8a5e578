import Fridica.Lib.Run
import Fridica.Threads.Request
import Mathlib.Logic.Function.Basic

/-!
# Where a worker result came from

`load` of `threads/results.rs`, the trigger that `load` of `threads/actor.rs`
builds around it, and the histories of one thread that they are used in.
-/

namespace Fridica.Threads.Results

open Fridica.Attention (Trigger)

/-! ## Queries -/

structure InboxEntry where
  kind : Kind
  reference : String
  payload : Payload
deriving DecidableEq

structure TurnInput where
  entry : InboxEntry
  message : Option Message
  from_peer : Option Bool
  refused_event : Option String
deriving DecidableEq

/-- What a unit of work answers about one session. -/
structure Queries where
  rows : Nat
  turn_input : Int → Option TurnInput
  inbox_entry : Int → Option InboxEntry
  /-- The event of a message, and whether a peer's agent wrote it. -/
  message_origin : String → Option (Option String × Bool)
  job_group : String → Option String
  group_results : String → String → List ResultRow
  job_inbox : String → Option Int

/-- The inbox has no more entries than rows. -/
def Queries.Finite (u : Queries) : Prop :=
  ∃ ids : List Int, ids.length ≤ u.rows ∧ ∀ id, (u.inbox_entry id).isSome → id ∈ ids

/-! ## The code -/

/-- The `while let` of `load`. `none` is a walk that ran out of fuel. -/
def walk (u : Queries) : Nat → List Int → Option Int → Option Origin
  | _, _, none => some .null
  | 0, _, some _ => none
  | fuel + 1, visited, some id =>
    if id ∈ visited then some .null
    else
      match u.inbox_entry id with
      | none => some .null
      | some entry =>
        if entry.kind = .owner_instruction ∨ entry.payload.owner_trigger then
          some ⟨none, some .owner⟩
        else if entry.kind = .message then
          match u.message_origin entry.reference with
          | some (event, peer) => some ⟨event, some (if peer then .peer else .human)⟩
          | none => some .null
        else if ¬ entry.kind.worker_result? then some .null
        else walk u fuel (id :: visited) (u.job_inbox entry.reference)

/-- `matches!(r["job_status"], "queued" | "running")` -/
def ResultRow.working (row : ResultRow) : Bool :=
  row.job_status = some "queued" ∨ row.job_status = some "running"

def load (u : Queries) (reference : String) : Option Snapshot :=
  match u.job_group reference with
  | none => some ⟨[], false, none, .null⟩
  | some group =>
    let rows := u.group_results group reference
    let unreported := rows.filter fun r => !r.reported
    (walk u (u.rows + 1) [] (unreported.head?.bind ResultRow.inbox_id)).map fun origin =>
      ⟨unreported, rows.any ResultRow.working, some rows.length, origin⟩

/-- The trigger of an item's turn. -/
def load_trigger (u : Queries) (id : Int) : Option TurnTrigger :=
  match u.turn_input id with
  | none => none
  | some input =>
    let trigger (snapshot : Option Snapshot) : TurnTrigger :=
      ⟨input.entry.kind, input.entry.reference, input.entry.payload, input.message,
        input.from_peer, snapshot, input.refused_event⟩
    if input.entry.kind.worker_result? then
      (load u input.entry.reference).map fun snapshot => trigger (some snapshot)
    else some (trigger none)

/-- A turn that gets past the early returns of `handle`. -/
def ready (trigger : TurnTrigger) : Bool :=
  trigger.kind.supported &&
    (!trigger.kind.worker_result? ||
      trigger.snapshot.any fun s => !s.pending && !s.results.isEmpty)

/-! ## Histories of one thread -/

structure Item where
  entry : InboxEntry
  from_peer : Option Bool
  refused_event : Option String
deriving DecidableEq

structure Job where
  id : String
  group : String
  inbox_id : Int
  status : String
  reported : Bool
  worker_id : Option String
  result_status : Option String
deriving DecidableEq

def Job.row (j : Job) : ResultRow :=
  ⟨some j.id, some j.status, j.reported, some j.inbox_id, j.worker_id, j.result_status⟩

/-- A turn that delegated: the group of its jobs, and the class it reserved its reply under. Its
chain of worker results goes back to the turn of item `first`, which reserved under
`first_class`. -/
structure Delegation where
  group : String
  inbox : Int
  class_ : Trigger
  first : Int
  first_class : Trigger
deriving DecidableEq

structure State where
  /-- Every id in use is smaller. -/
  next : Int
  inbox : Int → Option Item
  messages : String → Option Message
  jobs : List Job
  delegations : List Delegation

def empty : State := ⟨1, fun _ => none, fun _ => none, [], []⟩

/-- The storage contract: the queries read the rows of the state. -/
structure Contract (view : State → Queries) : Prop where
  finite : ∀ s, (∀ id, (s.inbox id).isSome → 0 < id ∧ id < s.next) → (view s).Finite
  turn_input : ∀ s id, (view s).turn_input id = (s.inbox id).map fun item =>
    ⟨item.entry, if item.entry.kind = .message then s.messages item.entry.reference else none,
      item.from_peer, item.refused_event⟩
  inbox_entry : ∀ s id, (view s).inbox_entry id = (s.inbox id).map Item.entry
  /-- A peer's agent marks its messages with metadata. -/
  message_origin : ∀ s r, (view s).message_origin r = (s.messages r).map fun m =>
    (m.event_id, m.meta_.isSome)
  job_group : ∀ s r, (view s).job_group r = (s.jobs.find? fun j => j.id = r).map Job.group
  group_results : ∀ s g r row, row ∈ (view s).group_results g r ↔
    ∃ j ∈ s.jobs, j.group = g ∧ j.row = row
  job_inbox : ∀ s r, (view s).job_inbox r = (s.jobs.find? fun j => j.id = r).map Job.inbox_id

def State.arrive (s : State) (id : Int) (item : Item) : State :=
  { s with next := id + 1, inbox := Function.update s.inbox id (some item) }

/-- The payload that an owner's or an operator's resume leaves on the newest message. -/
def resumed (owner : Bool) : Payload := { Payload.empty with resumed := true, owner_trigger := owner }

def Item.resume (item : Item) (owner : Bool) : Item :=
  { item with entry := { item.entry with payload := resumed owner } }

/-- The first turn of a chain of worker results, with its class. -/
def first_of (s : State) (id : Int) (item : Item) (class_ : Trigger) : Int × Trigger :=
  if item.entry.kind.worker_result? then
    match s.jobs.find? fun j => j.id = item.entry.reference with
    | some j =>
      match s.delegations.find? fun d => d.group = j.group with
      | some d => (d.first, d.first_class)
      | none => (id, class_)
    | none => (id, class_)
  else (id, class_)

def State.delegate (s : State) (id : Int) (item : Item) (class_ : Trigger) (group : String)
    (jobs : List Job) : State :=
  let first := first_of s id item class_
  { s with
    jobs := s.jobs ++ jobs
    delegations := s.delegations ++ [⟨group, id, class_, first.1, first.2⟩] }

inductive Step (view : State → Queries) : State → State → Prop
  /-- A message comes in, or an item for one that is stored. -/
  | message {s : State} {id : Int} {item : Item} {m : Message} :
    s.next ≤ id → item.entry.kind = .message →
    (s.messages item.entry.reference = none ∨ s.messages item.entry.reference = some m) →
    Step view s { s.arrive id item with
      messages := Function.update s.messages item.entry.reference (some m) }
  /-- Any other item: an instruction, a hand-off, a refused post, a due obligation, a debrief.
  Only the resume of a message writes `owner_trigger`. -/
  | other {s : State} {id : Int} {item : Item} :
    s.next ≤ id → item.entry.kind ≠ .message → item.entry.kind.worker_result? = false →
    item.entry.payload.owner_trigger = false → Step view s (s.arrive id item)
  /-- A worker finished or was interrupted. -/
  | result {s : State} {id : Int} {item : Item} {j : Job} :
    s.next ≤ id → item.entry.kind.worker_result? → item.entry.payload.owner_trigger = false →
    j ∈ s.jobs → j.id = item.entry.reference → Step view s (s.arrive id item)
  /-- A resume takes up a message that was not delegated. -/
  | resume {s : State} {id : Int} {item : Item} {owner : Bool} :
    s.inbox id = some item → item.entry.kind = .message → (∀ d ∈ s.delegations, d.inbox ≠ id) →
    Step view s { s with inbox := Function.update s.inbox id (some (item.resume owner)) }
  /-- The turn of an item reserves its reply and delegates jobs. -/
  | delegate {s : State} {id : Int} {item : Item} {trigger : TurnTrigger} {group : String}
      {jobs : List Job} :
    s.inbox id = some item → load_trigger (view s) id = some trigger → ready trigger →
    (∀ d ∈ s.delegations, d.inbox ≠ id) → (∀ d ∈ s.delegations, d.group ≠ group) →
    (∀ j ∈ jobs, j.group = group ∧ j.inbox_id = id) →
    (∀ j ∈ jobs, ∀ k ∈ s.jobs, j.id ≠ k.id) →
    Step view s (s.delegate id item (reply_class trigger) group jobs)
  | progress {s : State} {f : Job → Job} :
    (∀ j, (f j).id = j.id ∧ (f j).group = j.group ∧ (f j).inbox_id = j.inbox_id) →
    Step view s { s with jobs := s.jobs.map f }

abbrev Reach (view : State → Queries) : State → Prop := Run.Reach (· = empty) (Step view)

/-! ## The claim on a result's class -/

/-- The turn of a worker result reserves under the class of the turn that delegated its jobs,
which is the class of the first turn of the chain. -/
def Carries (view : State → Queries) (s : State) (id : Int) (d : Delegation) : Prop :=
  ∀ trigger, load_trigger (view s) id = some trigger →
    reply_class trigger = d.class_ ∧ reply_class trigger = d.first_class

/-- The items whose class the walk can tell. -/
def Told (item : Item) : Prop :=
  match item.entry.kind with
  | .message | .owner_instruction => True
  | .handoff | .post_refused => item.entry.payload.class_ = some "human"
  | .obligation_due => item.from_peer ≠ some true
  | _ => False

end Fridica.Threads.Results
