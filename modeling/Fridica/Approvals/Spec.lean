import Fridica.Lib.Run
import Mathlib.Data.Rat.Defs
import Mathlib.Algebra.Order.Field.Rat
import Mathlib.Logic.Function.Basic

/-!
# The approval broker

`approvals/mod.rs`: requests of workers, decisions of the owner, cancellations and configuration
changes over one durable table. Every unit of work on the table is one step. The configuration lock
is explicit, so whatever does not hold it may run in between.
-/

namespace Fridica.Approvals

/-! ## Data -/

inductive ApprovalDecision
  | once
  | session
  | deny
deriving DecidableEq

inductive ApprovalSettlement
  | decide (decision : ApprovalDecision)
  | cancel
  | expire
deriving DecidableEq

inductive Authority
  | owner
  | system
  | desktop_read_only
deriving DecidableEq

structure Policy where
  approvals : String
  claude_prompts : String
  approval_timeout : ℚ
  auto_approve : List String
  auto_deny : List String
deriving DecidableEq

structure Workspace where
  name : String
  policy : Policy
deriving DecidableEq

structure Machine where
  name : String
  workspaces : List Workspace
deriving DecidableEq

structure Config where
  slack_user : String
  machines : List Machine
deriving DecidableEq

structure WorkerRecord where
  id : String
  machine : String
  workspace : String
  backend : String
deriving DecidableEq

structure Job where
  id : String
  attempt : Nat
deriving DecidableEq

structure ApprovalRequest where
  kind : String
  summary : String
  command : String
deriving DecidableEq

structure NewApproval where
  id : String
  worker : WorkerRecord
  job : Job
  request : ApprovalRequest
  automatic : Option ApprovalDecision
  now : ℚ
  expires_at : ℚ
deriving DecidableEq

/-- A row of the table, as `approval` reads it. -/
structure Approval where
  worker : String
  status : String
  scope : String
  expires_at : ℚ
deriving DecidableEq

inductive ApprovalStart
  | immediate (decision : ApprovalDecision)
  | pending
deriving DecidableEq

/-! ## The table -/

structure Store (σ : Type) where
  approval : σ → String → Option Approval
  begin_approval : σ → NewApproval → Except String (ApprovalStart × σ)
  settle_approval : σ → String → ApprovalSettlement → String → ℚ → Except String (Bool × σ)
  cancel_worker_approvals : σ → String → ℚ → Except String σ
  cancel_pending_approvals : σ → ℚ → Except String σ

def Approval.pending (r : Approval) : Bool := r.status = "pending"

/-- The decision that the broker reads off a settled row. -/
def Approval.verdict (r : Approval) : ApprovalDecision :=
  if r.status = "approved" then
    if r.scope = "session" then .session else .once
  else .deny

/-- A pending row that is settled without being approved. -/
def Closed (before after : Option Approval) : Prop :=
  ∃ r r', before = some r ∧ r.pending ∧ after = some r' ∧ r'.pending = false ∧ r'.verdict = .deny

/-- The storage contract: settled rows never change. -/
structure Store.Contract {σ : Type} (a : Store σ) : Prop where
  /-- An immediate answer is the automatic one, or a denial, and opens nothing. -/
  immediate : ∀ {s n d s'}, a.begin_approval s n = .ok (.immediate d, s') →
    (d = .deny ∨ n.automatic = some d) ∧
      (∀ id r, a.approval s id = some r → a.approval s' id = some r) ∧
      ∀ id r, a.approval s' id = some r → r.pending → a.approval s id = some r
  opened : ∀ {s n s'}, a.begin_approval s n = .ok (.pending, s') →
    a.approval s n.id = none ∧ (∃ r, a.approval s' n.id = some r ∧ r.pending) ∧
      ∀ id, id ≠ n.id → a.approval s' id = a.approval s id
  /-- Only an owner's grant approves, and what it grants is the verdict. -/
  settled : ∀ {s id x actor now b s'}, a.settle_approval s id x actor now = .ok (b, s') → ∀ k,
    a.approval s' k = a.approval s k ∨ ∃ r r', a.approval s k = some r ∧ r.pending ∧
      a.approval s' k = some r' ∧ r'.pending = false ∧
      (r'.verdict ≠ .deny → x = .decide r'.verdict)
  cancelled_worker : ∀ {s worker now s'}, a.cancel_worker_approvals s worker now = .ok s' → ∀ k,
    a.approval s' k = a.approval s k ∨ Closed (a.approval s k) (a.approval s' k)
  cancelled_pending : ∀ {s now s'}, a.cancel_pending_approvals s now = .ok s' → ∀ k,
    (a.approval s' k = a.approval s k ∨ Closed (a.approval s k) (a.approval s' k)) ∧
      ∀ r, a.approval s' k = some r → r.pending = false

/-! ## The policy -/

/-- What the broker uses from outside this repository. -/
structure Outside where
  /-- `rules::decide` -/
  rules : Policy → ApprovalRequest → Option ApprovalDecision
  /-- The timeout fits a duration and a deadline. -/
  timer : ℚ → Bool

/-- The policy of the worker's workspace. -/
def Config.policy (config : Config) (worker : WorkerRecord) : Option Policy :=
  (config.machines.find? fun m => m.name = worker.machine).bind fun m =>
    (m.workspaces.find? fun w => w.name = worker.workspace).map Workspace.policy

def automatic (o : Outside) (policy : Policy) (worker : WorkerRecord) (request : ApprovalRequest) :
    Option ApprovalDecision :=
  if policy.approvals = "never" ∨ (worker.backend = "claude" ∧ policy.claude_prompts = "none") then
    some .deny
  else o.rules policy request

def new_approval (o : Outside) (policy : Policy) (id : String) (worker : WorkerRecord) (job : Job)
    (request : ApprovalRequest) (now : ℚ) : NewApproval :=
  ⟨id, worker, job, request, automatic o policy worker request, now,
    now + policy.approval_timeout⟩

/-! ## The state -/

/-- Where the task of a request stands. -/
inductive Phase
  /-- It waits for the configuration lock. -/
  | spawned
  /-- It holds the lock and begins its approval. -/
  | beginning (approval : NewApproval)
  /-- The head of the poll loop. -/
  | polling (id : String)
  /-- The caller was there; the row is read next. -/
  | reading (id : String)
  | settling (id : String) (settlement : ApprovalSettlement)
  | done
deriving DecidableEq

structure Task where
  worker : WorkerRecord
  job : Job
  request : ApprovalRequest
  phase : Phase
  /-- The caller still waits. -/
  waiting : Bool
  /-- What the caller received. -/
  answer : Option ApprovalDecision
  /-- The configuration in force when the request began, and the row it opened. -/
  config : Option Config
  row : Option String

/-- Who holds the configuration lock. -/
inductive Holder
  | request (task : Nat)
  | decide (id : String) (decision : ApprovalDecision)
  /-- `cancelled` once the pending rows are. -/
  | reconfigure (config : Config) (cancelled : Bool)

structure State (σ : Type) where
  store : σ
  config : Config
  /-- The number of configurations before this one. -/
  generation : Nat
  lock : Option Holder
  /-- Permits of the capacity semaphore. -/
  free : Nat
  tasks : Nat → Option Task
  /-- The generation in which a row was opened. -/
  begun : String → Option Nat
  /-- The settlement that committed first. -/
  first : String → Option ApprovalSettlement

def CAPACITY : Nat := 128

/-- A daemon's start: no tasks, and recovery left no pending rows. -/
def Start {σ : Type} (a : Store σ) (s : State σ) : Prop :=
  s.generation = 0 ∧ s.lock = none ∧ s.free = CAPACITY ∧ (∀ i, s.tasks i = none) ∧
    (∀ id, s.begun id = none) ∧ (∀ id, s.first id = none) ∧
    ∀ id r, a.approval s.store id = some r → r.pending = false

/-! ## Steps -/

section Steps

variable {σ : Type} (a : Store σ)

/-- The task as it goes on in this phase. -/
def State.moved (s : State σ) (i : Nat) (t : Task) (phase : Phase) : State σ :=
  { s with tasks := Function.update s.tasks i (some { t with phase }) }

/-- The task ends and gives back its permit. A reply that was dropped reads as a denial. -/
def State.ended (s : State σ) (i : Nat) (t : Task) (reply : Option ApprovalDecision) : State σ :=
  { s with
    free := s.free + 1
    tasks := Function.update s.tasks i (some { t with
      phase := .done
      answer := if t.waiting then some (reply.getD .deny) else t.answer }) }

/-- The rows that this unit of work settled have their first settlement. -/
def settled_by (x : ApprovalSettlement) (before after : String → Option Approval)
    (first : String → Option ApprovalSettlement) (id : String) : Option ApprovalSettlement :=
  match first id, before id, after id with
  | none, some r, some r' => if r.pending ∧ !r'.pending then some x else none
  | x', _, _ => x'

/-- A unit of work that settles rows. -/
def State.wrote (s : State σ) (x : ApprovalSettlement) (store : σ) : State σ :=
  { s with
    store
    first := settled_by x (a.approval s.store) (a.approval store) s.first }

/-- One step of any of the actors. -/
inductive Step (o : Outside) : State σ → State σ → Prop
  /-- A worker asks, within the capacity. -/
  | ask {s : State σ} {i : Nat} {worker : WorkerRecord} {job : Job} {request : ApprovalRequest} :
    s.tasks i = none → 0 < s.free →
    Step o s { s with
      free := s.free - 1
      tasks := Function.update s.tasks i
        (some ⟨worker, job, request, .spawned, true, none, none, none⟩) }
  /-- A worker asks with every permit taken. -/
  | full {s : State σ} {i : Nat} {worker : WorkerRecord} {job : Job} {request : ApprovalRequest} :
    s.tasks i = none → s.free = 0 →
    Step o s { s with
      tasks := Function.update s.tasks i
        (some ⟨worker, job, request, .done, true, some .deny, none, none⟩) }
  /-- The caller of a request goes away. -/
  | drop {s : State σ} {i : Nat} {t : Task} : s.tasks i = some t → t.answer = none →
    Step o s { s with tasks := Function.update s.tasks i (some { t with waiting := false }) }
  /-- A task gets the lock and has no policy or no deadline. -/
  | refused {s : State σ} {i : Nat} {t : Task} : s.tasks i = some t → t.phase = .spawned →
    s.lock = none → (∀ p, s.config.policy t.worker = some p → o.timer p.approval_timeout = false) →
    Step o s (s.ended i t none)
  | acquired {s : State σ} {i : Nat} {t : Task} {policy : Policy} {id : String} {now : ℚ} :
    s.tasks i = some t → t.phase = .spawned → s.lock = none →
    s.config.policy t.worker = some policy → o.timer policy.approval_timeout →
    Step o s { s.moved i { t with config := some s.config }
        (.beginning (new_approval o policy id t.worker t.job t.request now)) with
      lock := some (.request i) }
  | immediate {s : State σ} {i : Nat} {t : Task} {n : NewApproval} {d : ApprovalDecision}
      {store : σ} : s.tasks i = some t → t.phase = .beginning n →
    a.begin_approval s.store n = .ok (.immediate d, store) →
    Step o s { s.ended i t (some d) with store, lock := none }
  | opened {s : State σ} {i : Nat} {t : Task} {n : NewApproval} {store : σ} :
    s.tasks i = some t → t.phase = .beginning n →
    a.begin_approval s.store n = .ok (.pending, store) →
    Step o s { s.moved i { t with row := some n.id } (.polling n.id) with
      store
      lock := none
      begun := Function.update s.begun n.id (some s.generation) }
  | unopened {s : State σ} {i : Nat} {t : Task} {n : NewApproval} {e : String} :
    s.tasks i = some t → t.phase = .beginning n → a.begin_approval s.store n = .error e →
    Step o s { s.ended i t none with lock := none }
  /-- `reply.is_closed()` -/
  | closed {s : State σ} {i : Nat} {t : Task} {id : String} : s.tasks i = some t →
    t.phase = .polling id → t.waiting = false → Step o s (s.moved i t (.settling id .cancel))
  | polled {s : State σ} {i : Nat} {t : Task} {id : String} : s.tasks i = some t →
    t.phase = .polling id → t.waiting → Step o s (s.moved i t (.reading id))
  /-- The row is gone, or the read failed. -/
  | unread {s : State σ} {i : Nat} {t : Task} {id : String} : s.tasks i = some t →
    t.phase = .reading id → Step o s (s.ended i t none)
  | answered {s : State σ} {i : Nat} {t : Task} {id : String} {r : Approval} :
    s.tasks i = some t → t.phase = .reading id → a.approval s.store id = some r →
    r.pending = false → Step o s (s.ended i t (some r.verdict))
  /-- The row is pending, and the clock or the deadline (`late`) is past. -/
  | expired {s : State σ} {i : Nat} {t : Task} {id : String} {r : Approval} {now : ℚ}
      {late : Bool} : s.tasks i = some t → t.phase = .reading id →
    a.approval s.store id = some r → r.pending → (r.expires_at ≤ now ∨ late) →
    Step o s (s.moved i t (.settling id .expire))
  /-- The row is pending: the task waits for a wakeup, and goes round. -/
  | waited {s : State σ} {i : Nat} {t : Task} {id : String} {r : Approval} :
    s.tasks i = some t → t.phase = .reading id → a.approval s.store id = some r → r.pending →
    Step o s (s.moved i t (.polling id))
  /-- The task settles its own row; after an expiry it reads what committed. -/
  | settled {s : State σ} {i : Nat} {t : Task} {id actor : String} {x : ApprovalSettlement}
      {now : ℚ} {b : Bool} {store : σ} : s.tasks i = some t → t.phase = .settling id x →
    a.settle_approval s.store id x actor now = .ok (b, store) →
    Step o s (if x = .expire then (s.wrote a x store).moved i t (.polling id)
      else (s.wrote a x store).ended i t none)
  | unsettled {s : State σ} {i : Nat} {t : Task} {id actor e : String} {x : ApprovalSettlement}
      {now : ℚ} : s.tasks i = some t → t.phase = .settling id x →
    a.settle_approval s.store id x actor now = .error e → Step o s (s.ended i t none)
  /-- The owner's `decide` gets the lock. Any other authority is refused before it. -/
  | decide {s : State σ} {id : String} {d : ApprovalDecision} {authority : Authority} :
    authority = .owner → s.lock = none → Step o s { s with lock := some (.decide id d) }
  | decided {s : State σ} {id : String} {d : ApprovalDecision} {now : ℚ} {b : Bool} {store : σ} :
    s.lock = some (.decide id d) →
    a.settle_approval s.store id (.decide d) s.config.slack_user now = .ok (b, store) →
    Step o s { s.wrote a (.decide d) store with lock := none }
  | undecided {s : State σ} {id e : String} {d : ApprovalDecision} {now : ℚ} :
    s.lock = some (.decide id d) →
    a.settle_approval s.store id (.decide d) s.config.slack_user now = .error e →
    Step o s { s with lock := none }
  | reconfigure {s : State σ} {config : Config} : s.lock = none →
    Step o s { s with lock := some (.reconfigure config false) }
  | emptied {s : State σ} {config : Config} {now : ℚ} {store : σ} :
    s.lock = some (.reconfigure config false) →
    a.cancel_pending_approvals s.store now = .ok store →
    Step o s { s.wrote a .cancel store with lock := some (.reconfigure config true) }
  | unemptied {s : State σ} {config : Config} {now : ℚ} {e : String} :
    s.lock = some (.reconfigure config false) →
    a.cancel_pending_approvals s.store now = .error e → Step o s { s with lock := none }
  /-- `reconfigure` returns. -/
  | reconfigured {s : State σ} {config : Config} : s.lock = some (.reconfigure config true) →
    Step o s { s with config, generation := s.generation + 1, lock := none }
  | cancel {s : State σ} {worker : String} {now : ℚ} {store : σ} :
    a.cancel_worker_approvals s.store worker now = .ok store →
    Step o s (s.wrote a .cancel store)
  /-- Stops and recoveries of other components close pending rows, too. -/
  | elsewhere {s : State σ} {store : σ} :
    (∀ k, a.approval store k = a.approval s.store k ∨
      Closed (a.approval s.store k) (a.approval store k)) →
    Step o s (s.wrote a .cancel store)

abbrev Reach (o : Outside) : State σ → Prop := Run.Reach (Start a) (Step a o)

/-- Any number of steps later. -/
abbrev Later (o : Outside) : State σ → State σ → Prop := Relation.ReflTransGen (Step a o)

end Steps

end Fridica.Approvals
