import Fridica.Lib.Dialogue
import Fridica.Lib.Json
import Fridica.Threads.Commit.Spec
import Fridica.Threads.Direct.Spec

/-!
# One turn of a thread

`step`, `handle`, `call` and `retry_later` of `threads/actor.rs`, with `debrief.rs` and
`progress.rs`. A reading of the clock, a unit of work and a call of the parent are questions, so
that owner controls, new messages and other turns may fall between any two of them. A unit of work
that answers with an error has changed nothing. One that reads before it writes is asked for what it
reads first.
-/

open Fridica.Ask
open Fridica.Json (Value)
open Fridica.Text
open Fridica.Attention (Capacity Trigger)
open Fridica.External (Post)

namespace Fridica.Threads.Turns

/-! ## What a turn loads -/

structure Owed extends Direct.Asked where
  due : Option ℚ

/-- The payload of a `debrief` item. -/
structure DebriefPayload where
  after : Option String
  version : Option Int
  turn : Option Int
  class_ : Option String
deriving DecidableEq

/-- The payload of a `worker_progress` item. -/
structure ProgressPayload where
  attempt : Int
  seq : Int
deriving DecidableEq

/-- The request of a turn, with what only `handle` reads of it. -/
structure Loaded extends Direct.ResultRequest where
  owed : List Owed
  owed_eq : asked = owed.map Owed.toAsked
  control : Option String
  turns : Option Nat
  reset_at : Option ℚ
  last_unsolicited : Option ℚ
  debriefed_turn : Option Int
  /-- `work.busy` decodes. -/
  busy : Bool
  /-- The time of the message, 0 without one. -/
  message_ts : Except String ℚ
  debrief : DebriefPayload
  progress : ProgressPayload

/-! ## Calls of the parent -/

inductive CallKind
  | triage
  | decide
  | repair
  | debrief
deriving DecidableEq

inductive ParentAnswer
  | value (raw : Value)
  | failed (code : String)
  | timeout

/-- A call as `parent_turns` and the audit keep it. -/
structure Call where
  kind : CallKind
  response : Option Value
  error : Option String
  failure : Option String
  created : ℚ
  validation_error : Option String
  settlement_error : Option String

structure ParentTurn where
  call : CallKind
  response : Option Value
  validation_error : Option String
  failure : Option String
  error : String
  created : ℚ
  blocked : Bool

/-! ## What a turn asks -/

structure Settlement where
  id : Int
  session : String
  version : Int
  event : Option String
  verdict : String
  limit : Option ℚ
deriving DecidableEq

structure TriageSettlement where
  id : Int
  version : Option Int
  calls : List ParentTurn
  event : Option String
  verdict : String
  now : ℚ

structure TurnRetry where
  id : Int
  version : Option Int
  calls : List ParentTurn
  retry_at : ℚ
  now : ℚ

structure TurnFailure where
  id : Int
  state : String
  not_before : ℚ
  attempt : Nat
  now : ℚ
deriving DecidableEq

/-- A note of a worker that still runs. -/
structure ProgressNote where
  text : String
  worker : String
deriving DecidableEq

structure ProgressReads where
  processing : Bool
  active : Bool
  note : Option ProgressNote

structure ProgressPost where
  idem_key : String
  channel : String
  thread_ts : String
  note : ProgressNote
  job : String
deriving DecidableEq

structure DebriefReads where
  due : Bool
  notes_revision : Int

inductive DebriefWrite
  | stale
  | posted (post : Post) (class_ : String) (turn : Int)
  | unavailable

/-- A unit of work on the store. -/
inductive StoreOp
  | worker_control_pending
  | claim_due (now : ℚ)
  | load (id : Int)
  | thread_driver
  | settle_turn (s : Settlement)
  | settle_external (s : Settlement) (jobs : List (Option String))
  | settle_triage (t : TriageSettlement)
  | turn_live (version : Option Int)
  | reserve (id : Int) (trigger : Trigger) (now : ℚ)
  | assess
  | record_call (kind : CallKind) (now : ℚ)
  | record_result (seq : Int) (answer : ParentAnswer) (now : ℚ)
  | retry_turn (r : TurnRetry)
  | commit_reads
  | commit (turn : Turn) (effects : List Effect) (calls : List ParentTurn)
  | progress_reads (job : String) (attempt seq : Int)
  | progress_write (post : Option ProgressPost) (now : ℚ)
  | debrief_reads (version : Option Int) (turn : Int)
  | debrief_write (write : DebriefWrite) (now : ℚ)
  | inbox_attempts (id : Int)
  | fail_turn (failure : TurnFailure)

abbrev Reply : StoreOp → Type
  | .claim_due _ => Option (Int × Kind)
  | .load _ => Loaded
  | .thread_driver => String
  | .worker_control_pending | .settle_turn _ | .settle_external _ _ | .settle_triage _
  | .turn_live _ | .retry_turn _ => Bool
  | .reserve _ _ _ => Capacity
  | .record_call _ _ => Int
  | .commit_reads => Reads
  | .progress_reads _ _ _ => ProgressReads
  | .debrief_reads _ _ => DebriefReads
  | .inbox_attempts _ => Nat × String
  | .assess | .record_result _ _ _ | .commit _ _ _ | .progress_write _ _ | .debrief_write _ _
  | .fail_turn _ => Unit

inductive Query
  | now
  | decide (kind : CallKind) (previous : Option Value) (errors : List String)
  | tx (op : StoreOp)

/-- What is answered. A unit of work may answer with the error that undid it. -/
abbrev Answer : Query → Type
  | .now => ℚ
  | .decide _ _ _ => ParentAnswer
  | .tx op => Except String (Reply op)

abbrev Act (α : Type) := Fallible Query Answer String α

/-- `clock.now()` -/
def clock : Act ℚ := ask Query.now

def tx (op : StoreOp) : Act (Reply op) := unit (ask (Query.tx op))

/-! ## What lies outside this repository -/

structure GateInput where
  text : String
  sender : String
  generated : Bool
  meta_kind : String
  meta_status : String
  peer_turn : Nat
  status : String
  turns : Nat
  reset_at : ℚ
  ts : ℚ
  general_messages : Bool
  cooling : Bool
  resumed : Bool

structure Gate where
  kind : String
  reason : String
  turn : Nat

structure Outside extends Core where
  whitespace : Char → Bool
  contains : String → String → Bool
  attention_gate : GateInput → Bool → Gate
  /-- The parent's answer by the schema of decisions. -/
  schema : Value → Option Decision
  /-- The text of a debrief by its schema. -/
  debrief : Value → Option String
  /-- `delegation::prepare`, without identifiers when it only checks. -/
  prepare : Decision → Loaded → Option Bool → Bool → Except String Work
  rate_limited : String
  rate_limit_retry : ℚ
  /-- The stand-in for a failed parent call, or for an answer still invalid after repair. -/
  blocked : Bool → Decision
  /-- The failures after which nothing may follow. -/
  prevents_effects : String → Bool

structure Config where
  general_messages : Bool
  cooldown : ℚ
  channels : List String
  may_delegate : String → Bool
  report_fast_path : Bool
  reply_chars : Nat
  /-- `placement.probe`, with a monitor to probe by. -/
  probe : Bool

structure Actor where
  config : Option Config
  owner : String
  streak_signal : Nat
  observe_only : Bool

def AUTH_CONTENDED : String := "parent_auth_contended"

def AUTH_RETRY : ℚ := 60

inductive Step
  | idle
  | observed
  | deferred
  | committed
  | stale
  | failed
  | unsupported
deriving DecidableEq

/-! ## Settling -/

def event (request : Loaded) : Option String := request.trigger.message.bind Message.event_id

def settlement (id : Int) (request : Loaded) (verdict : String) (limit : Option ℚ) :
    Act Settlement := do
  let some session := request.session.id | throw "missing session ID"
  let some version := request.session.version | throw "missing session version"
  return ⟨id, session, version, event request, verdict, limit⟩

def settle (id : Int) (request : Loaded) (verdict : String) (limit : Option ℚ) : Act Step := do
  let s ← settlement id request verdict limit
  let current ← tx (.settle_turn s)
  return if current then .observed else .stale

def results (request : Loaded) : List ResultRow :=
  (request.trigger.snapshot.map Snapshot.results).getD []

/-- The finished jobs count as reported. -/
def settle_external (id : Int) (request : Loaded) : Act Step := do
  let s ← settlement id request "observe: external driver" none
  let jobs := (results request).filter fun r =>
    r.job_status ≠ some "queued" ∧ r.job_status ≠ some "running"
  let current ← tx (.settle_external s (jobs.map ResultRow.id))
  return if current then .observed else .stale

def triage_turn (call : Call) : ParentTurn :=
  ⟨.triage, call.response, none, none, "", call.created, false⟩

def settle_triage (id : Int) (request : Loaded) (verdict : String) (calls : List Call) :
    Act Step := do
  let now ← clock
  let current ← tx (.settle_triage
    ⟨id, request.session.version, calls.map triage_turn, event request, verdict, now⟩)
  return if current then .observed else .stale

/-! ## Calling the parent -/

def ParentAnswer.response : ParentAnswer → Option Value
  | .value raw => some raw
  | .failed _ | .timeout => none

def ParentAnswer.error : ParentAnswer → Option String
  | .value _ => none
  | .failed _ => some "parent_unavailable"
  | .timeout => some "parent_timeout"

def ParentAnswer.failure : ParentAnswer → Option String
  | .failed code => some code
  | .value _ | .timeout => none

/-- Each call is recorded before the parent is asked and after it answered. -/
def call (o : Outside) (kind : CallKind) (previous : Option Value) (errors : List String) :
    Act Call := do
  let started ← clock
  let seq ← tx (.record_call kind started)
  let answer ← ask (Query.decide kind previous errors)
  let now ← clock
  tx (.record_result seq answer now)
  if answer.failure.any o.prevents_effects then
    throw "parent evidence recording or context boundary failed"
  return ⟨kind, answer.response, answer.error, answer.failure, now, none, none⟩

/-- A temporary failure of the last call, and how long the turn waits. -/
def temporary (o : Outside) (calls : List Call) : Option (String × ℚ) := do
  let code ← (← calls.getLast?).failure
  if code = o.rate_limited then some (o.rate_limited, o.rate_limit_retry)
  else if code = AUTH_CONTENDED then some (AUTH_CONTENDED, AUTH_RETRY)
  else none

/-- The refused call and any triage, of a turn that is redone. -/
def kept_calls (code : String) (calls : List Call) : List ParentTurn :=
  (calls.filter fun c => c.failure = some code ∨ c.kind = .triage).map fun c =>
    ⟨c.kind, c.response, none, c.failure, if c.failure = some code then code else "", c.created,
      false⟩

def retry_later (id : Int) (request : Loaded) (calls : List Call) (code : String) (delay : ℚ) :
    Act Step := do
  let now ← clock
  let current ← tx (.retry_turn
    ⟨id, request.session.version, kept_calls code calls, now + delay, now⟩)
  return if current then .deferred else .stale

/-! ## Whether a turn replies -/

/-- What a turn that goes on to a reply brings along. -/
structure Admitted where
  turn : Nat
  verdict : String
  calls : List Call
  unsolicited : Bool

def U64 : Nat := 2 ^ 64

def gate_input (a : Actor) (request : Loaded) (ts now : ℚ) : GateInput :=
  let m := request.trigger.message
  let meta_ := m.bind Message.meta_
  { text := (m.bind Message.text).getD ""
    sender := (m.bind Message.sender).getD ""
    generated := meta_.isSome
    meta_kind := (meta_.map Meta.kind).getD ""
    meta_status := (meta_.map Meta.status).getD ""
    peer_turn := (meta_.bind Meta.turn).getD 0
    status := request.session.status.getD "new"
    turns := request.turns.getD 0
    reset_at := request.reset_at.getD 0
    ts := ts
    general_messages := a.config.any Config.general_messages
    cooling := request.last_unsolicited.any fun last =>
      a.config.any fun c => now - last < c.cooldown
    resumed := request.trigger.payload.resumed }

/-- The one field of a triage answer. Anything else only observes. -/
def triage_choice (raw : Option Value) : String :=
  match raw with
  | some (.object [("decision", .string choice)]) =>
    if choice = "respond" ∨ choice = "observe" ∨ choice = "ignore" then choice else "observe"
  | _ => "observe"

def triage (o : Outside) (id : Int) (request : Loaded) (gate : Gate) (turns : Nat) :
    Act (Step ⊕ Admitted) := do
  let calls := [← call o .triage none []]
  if let some (code, delay) := temporary o calls then
    return .inl (← retry_later id request calls code delay)
  let choice := triage_choice (calls.head?.bind Call.response)
  if choice ≠ "respond" then
    return .inl (← settle_triage id request (choice ++ ": triage") calls)
  -- A pause and resume while the triage was in flight changed what it was about.
  let live ← tx (.turn_live request.session.version)
  if !live then return .inl (← settle_triage id request "observe: stale triage" calls)
  return .inr ⟨gate.turn, "respond: " ++ gate.reason, calls, turns = 0⟩

def enter_message (o : Outside) (a : Actor) (id : Int) (request : Loaded) :
    Act (Step ⊕ Admitted) := do
  let ts ← unit (pure request.message_ts)
  let now ← clock
  let input := gate_input a request ts now
  let gate := o.attention_gate input (o.contains input.text ("<@" ++ a.owner ++ ">"))
  let verdict := gate.kind ++ ": " ++ gate.reason
  if gate.kind = "ignore" ∨ gate.kind = "observe" then
    return .inl (← settle id request verdict none)
  if gate.kind = "triage" then return ← triage o id request gate input.turns
  return .inr ⟨gate.turn, verdict, [], false⟩

def enter (o : Outside) (a : Actor) (id : Int) (kind : Kind) (request : Loaded) :
    Act (Step ⊕ Admitted) :=
  let verdict := "respond: owner instruction or attention due"
  if kind.worker_result? then return .inr ⟨request.turns.getD 0, verdict, [], false⟩
  else if kind = .message then enter_message o a id request
  else return .inr ⟨min (request.turns.getD 0 + 1) (U64 - 1), verdict, [], false⟩

/-! ## The decision -/

/-- What this thread's turn may delegate to. -/
def delegation_scope (a : Actor) (external : Bool) (request : Loaded) : Option Bool :=
  a.config.map fun config =>
    let channel := request.session.channel.getD ""
    channel ∈ config.channels && config.may_delegate channel && !external

inductive Rounds
  | temporary (calls : List Call) (code : String) (delay : ℚ)
  | decided (d : Decision) (calls : List Call)

/-- An answer that passes the checks and can be delegated as it says. -/
def accept (o : Outside) (scope : Option Bool) (request : Loaded) (raw : Value) (now : ℚ) :
    Except String Decision := do
  let d ← validate o.whitespace (o.schema raw) request.toParentRequest now
  let _ ← o.prepare d request scope false
  return d

/-- The calls of `decide` and `repair`. A repair is told the answer before it and what was wrong. -/
def rounds (o : Outside) (scope : Option Bool) (request : Loaded) :
    List CallKind → Option Value → List String → List Call → Act Rounds
  | [], _, _, _ => throw "parent action remained invalid after repair"
  | kind :: later, previous, errors, calls => do
    let last ← call o kind previous errors
    let now ← clock
    match temporary o (calls ++ [last]) with
    | some (code, delay) => return .temporary (calls ++ [last]) code delay
    | none =>
      match last.response with
      | none =>
        let last := { last with settlement_error := some "parent_unavailable" }
        return .decided (o.blocked false) (calls ++ [last])
      | some raw =>
        match accept o scope request raw now with
        | .ok d => return .decided d (calls ++ [last])
        | .error e =>
          let last := { last with validation_error := some e }
          if later = [] then
            let last := { last with settlement_error := some "parent_invalid_after_repair" }
            return .decided (o.blocked true) (calls ++ [last])
          else rounds o scope request later (some raw) [e] (calls ++ [last])

def parent_turn (call : Call) : ParentTurn :=
  let error := call.settlement_error.getD ""
  ⟨call.kind, call.response, call.validation_error, call.failure, error, call.created, error ≠ ""⟩

def commit_turn (o : Outside) (turn : Turn) (calls : List Call) : Act Step := do
  let reads ← tx .commit_reads
  let (outcome, effects) ← unit (pure (commit o.toCore turn reads))
  tx (.commit turn effects (calls.map parent_turn))
  return match outcome with
    | .committed => .committed
    | .stale => .stale
    | .deferred => .deferred

def reply_limit (a : Actor) : Nat := (a.config.map Config.reply_chars).getD 7000

/-- A report that is posted as it is needs no call of the parent. -/
def decision (o : Outside) (a : Actor) (external : Bool) (request : Loaded) (calls : List Call)
    (direct : Option Decision) : Act Rounds := do
  if let some d := direct then return .decided d calls
  if a.config.any Config.probe then tx .assess
  rounds o (delegation_scope a external request) request [.decide, .repair] none [] calls

def conclude (o : Outside) (a : Actor) (id : Int) (session : String) (external : Bool)
    (request : Loaded) (admitted : Admitted) : Rounds → Act Step
  | .temporary calls code delay => retry_later id request calls code delay
  | .decided d calls => do
    let work ← unit (pure (o.prepare d request (delegation_scope a external request) true))
    let now ← clock
    let cooldown := if admitted.unsolicited then a.config.map Config.cooldown else none
    commit_turn o ⟨id, session, request.toParentRequest, d, work, admitted.verdict,
      admitted.turn, a.owner, now, a.streak_signal, reply_limit a, cooldown⟩ calls

/-- A turn that goes on to a reply. -/
def respond (o : Outside) (a : Actor) (id : Int) (kind : Kind) (session : String)
    (external : Bool) (request : Loaded) (admitted : Admitted) : Act Step := do
  let now ← clock
  match ← tx (.reserve id (reply_class request.trigger) now) with
  | .deferred _ => return .deferred
  | .reserved =>
    let direct ← unit (pure (if kind.worker_result? then
        Direct.direct request.toResultRequest (a.config.any Config.report_fast_path) (reply_limit a)
      else .ok none))
    let decided ← decision o a external request admitted.calls direct
    conclude o a id session external request admitted decided

/-! ## Debriefs and progress notes -/

def superseded (request : Loaded) : Bool :=
  let origin := request.debrief
  (origin.turn.getD 0 ≤ request.debriefed_turn.getD 0) ||
    (origin.version ≠ request.session.version) ||
    (origin.turn ≠ request.turns.map Int.ofNat) ||
    (request.session.status ≠ some "complete")

def debrief_class (request : Loaded) : Option Trigger :=
  match request.debrief.class_.getD "human" with
  | "owner" => some .owner
  | "peer" => some .peer
  | "human" => some .human
  | _ => none

def debrief_text (o : Outside) (raw : Option Value) : Option String :=
  ((raw.bind o.debrief).map trim).filter fun s => s ≠ "" ∧ s.length ≤ 2500

def debrief_post (id : Int) (session owner : String) (turn : Int) (channel after : String)
    (text : String) : Post where
  idem_key := toString id ++ ":debrief"
  session_id := session
  kind := "debrief_root"
  channel := channel
  thread_ts := none
  text := "Debrief: this discussion is finished.\n\n" ++ text
  meta_ := some ⟨owner, session, turn, "complete", "debrief_root", "", 2⟩
  filename := ""
  blob := none
  after := after

def debrief (o : Outside) (a : Actor) (id : Int) (request : Loaded) : Act Step := do
  let some session := request.session.id | throw "missing debrief session"
  if superseded request then return ← settle id request "observe: superseded debrief" none
  let turn := request.debrief.turn.getD 0
  let some trigger := debrief_class request | throw "invalid reply reservation"
  let now ← clock
  match ← tx (.reserve id trigger now) with
  | .deferred _ => return .deferred
  | .reserved =>
    let last ← call o .debrief none []
    if let some (_, delay) := temporary o [last] then
      let now ← clock
      return ← settle id request "" (some (now + delay))
    let now ← clock
    let reads ← tx (.debrief_reads request.session.version turn)
    if !reads.due ∨ reads.notes_revision ≠ request.session.notes_revision.getD 0 then
      tx (.debrief_write .stale now)
      return .stale
    match debrief_text o last.response with
    | some text =>
      let some channel := request.session.channel | throw "missing channel"
      let some after := request.debrief.after | throw "missing debrief prerequisite"
      let post := debrief_post id session a.owner turn channel after text
      tx (.debrief_write (.posted post (request.debrief.class_.getD "human") turn) now)
      return .committed
    | none =>
      tx (.debrief_write .unavailable now)
      return .committed

def progress (id : Int) (request : Loaded) : Act Step := do
  let some _ := request.session.id | throw "missing progress session"
  let some channel := request.session.channel | throw "missing channel"
  let some root := request.session.root_ts | throw "missing root timestamp"
  let job := request.trigger.ref
  let now ← clock
  let reads ← tx (.progress_reads job request.progress.attempt request.progress.seq)
  if !reads.processing then return .stale
  -- Once the job ended its result is reported instead.
  match if reads.active then reads.note else none with
  | some note =>
    tx (.progress_write (some ⟨toString id ++ ":progress", channel, root, note, job⟩) now)
    return .committed
  | none =>
    tx (.progress_write none now)
    return .observed

/-! ## The turn -/

/-- A worker's result or a study post, which an external driver reads itself. -/
def for_driver (kind : Kind) (request : Loaded) : Bool :=
  kind.worker_result? ||
    (kind = .message && (request.trigger.message.bind Message.meta_).any fun m =>
      "study_".toList.isPrefixOf m.kind.toList)

/-- An obligation that this item was queued for is due. -/
def still_due (request : Loaded) (now : ℚ) : Bool :=
  request.owed.any fun o => o.id = some request.trigger.ref ∧
    (o.state = some "open" ∨ o.state = some "deferred") ∧ o.due.any fun due => due ≤ now

/-- A turn that may reply. -/
def reply (o : Outside) (a : Actor) (id : Int) (kind : Kind) (session : String)
    (external : Bool) (request : Loaded) : Act Step := do
  match ← enter o a id kind request with
  | .inl step => return step
  | .inr admitted => respond o a id kind session external request admitted

def attend (o : Outside) (a : Actor) (id : Int) (kind : Kind) (session : String)
    (external : Bool) (request : Loaded) : Act Step := do
  if kind = .obligation_due then
    let now ← clock
    if !still_due request now then
      return ← settle id request "observe: obligation no longer due" none
    if request.session.parent_review_required then
      let now ← clock
      return ← settle id request "observe: parent failure needs owner review" (some (now + 60))
  reply o a id kind session external request

def handle (o : Outside) (a : Actor) (id : Int) (kind : Kind) (session : String) : Act Step := do
  let request ← tx (.load id)
  if a.config.isSome ∧ !request.busy then throw "invalid machine use"
  let external := (← tx .thread_driver) = "external"
  if a.observe_only ∨ request.control ≠ some "active" then
    let reason := if a.observe_only then "observe-only mode" else "thread is paused or closed"
    if kind.worker_result? then
      let now ← clock
      return ← settle id request ("observe: " ++ reason) (some (now + 60))
    return ← settle id request ("observe: " ++ reason) none
  if kind = .debrief then return ← debrief o a id request
  if kind = .worker_progress then return ← progress id request
  if external ∧ for_driver kind request then return ← settle_external id request
  if kind.worker_result? ∧
      (request.trigger.snapshot.any Snapshot.pending ∨ results request = []) then
    return ← settle id request "observe: group still working or already reported" none
  if !kind.supported then
    let now ← clock
    let step ← settle id request "" (some (now + 60))
    return if step = .observed then .unsupported else step
  attend o a id kind session external request

/-- An item that fails for the third time is dropped. -/
def failed (id : Int) : Act Step := do
  let now ← clock
  let (attempts, state) ← tx (.inbox_attempts id)
  -- A late error must not bring back an item that was discarded meanwhile.
  if state ≠ "processing" then return .stale
  tx (.fail_turn
    ⟨id, if attempts ≥ 2 then "dropped" else "pending", now + 30, attempts + 1, now⟩)
  return .failed

/-- The next due item and its turn. -/
def next_turn (o : Outside) (a : Actor) (session : String) : Act Step := do
  let now ← clock
  match ← tx (.claim_due now) with
  | none => return .idle
  | some (id, kind) =>
    match ← attempt (handle o a id kind session) with
    | .ok step => return step
    | .error _ => failed id

def step (o : Outside) (a : Actor) (session : String) : Act Step := do
  if !a.observe_only then
    if ← tx .worker_control_pending then return .deferred
  next_turn o a session

end Fridica.Threads.Turns
