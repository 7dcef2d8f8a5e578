import Fridica.External.Spec
import Fridica.Threads.Handoffs.Spec
import Fridica.Threads.Results.Spec
import Mathlib.Data.List.Destutter

/-!
# The commit of a turn

`commit` of `threads/actor.rs` with `replies.rs`, `attachments` of `results.rs`, the notes of
`effects.rs` and `queue_answer_tx` of `attention/mod.rs`. It is one unit of work: an error discards
it, otherwise the effects are applied in order.
-/

open Fridica.Checked Fridica.Text
open Fridica.Attention (Trigger)
open Fridica.External (Post)

namespace Fridica.Threads

/-! ## Data -/

structure NewWorker where
  id : String
  machine : String
deriving DecidableEq

structure NewJob where
  id : String
  worker_id : String
  brief : String
deriving DecidableEq

structure Work where
  workers : List NewWorker
  jobs : List NewJob
  context : Option Context
deriving DecidableEq

structure LastReply where
  id : Int
  state : String
  requester : String
deriving DecidableEq

structure Repeat where
  allowed : Bool
  reason : String
  previous : Option LastReply
deriving DecidableEq

structure StoredNotes where
  repo : Option String
  assignee : Option String
  next_step : Option String
  blocker : Option String
deriving DecidableEq

structure Reserved where
  post : Option Int
  trigger : Trigger
deriving DecidableEq

structure QueuedAnswer where
  post : Int
  session : String
  inbox : Int
  trigger : Trigger
  obligations : List String
deriving DecidableEq

structure DebriefOrigin where
  version : Int
  turn : Int
  class_ : String
deriving DecidableEq

structure ObligationChange where
  id : String
  state : String
  details : Disposition
  due : Option ℚ
deriving DecidableEq

structure NewAsk where
  id : String
  event_id : Option String
  summary : String
  due : ℚ
deriving DecidableEq

structure TurnClose where
  status : String
  reply_key : String
  turn : Nat
  waiting : Int
  quiet : Int
  hash : String
  summary : String
deriving DecidableEq

structure CommitRecord where
  inbox_id : Int
  request : ParentRequest
  decision : Decision
  workers : List NewWorker
  jobs : List NewJob
  reply_repeat : Repeat
deriving DecidableEq

inductive Effect
  | return_turn
  | defer_turn (limit : ℚ)
  | queue_post (post : Post)
  | answer_queued (answer : QueuedAnswer)
  | answer_for_handoff (from_ : String) (answers : List String) (post : Int)
  | label_post (post : Int) (meta_ : External.Meta) (event : String) (report : Bool)
  | link_answers (post : Int) (answers : List String)
  | mark_unsolicited
  | add_workers (workers : List NewWorker)
  | queue_jobs (jobs : List NewJob)
  | mark_reported (jobs : List (Option String))
  | patch_context (context : Context)
  | keep_decisions (decisions : List String)
  | write_parent_notes (revision : Int) (data : StoredNotes)
  | queue_handoffs (handoffs : List QueuedHandoff)
  | change_obligations (changes : List ObligationChange)
  | open_asks (asks : List NewAsk)
  | open_streak_signal (key : String)
  | close_turn (close : TurnClose)
  | queue_debrief (after : String) (origin : DebriefOrigin)
  | finish_turn (event : Option String) (verdict : String)
  | record (record : CommitRecord)
deriving DecidableEq

inductive Outcome
  | committed
  | stale
  | deferred
deriving DecidableEq

structure Reads where
  version : Int
  active : Bool
  queries : Results.Queries
  notes : Option (Int × StoredNotes)
  worker_controls_current : Bool
  /-- Whether a message came after the newest one seen, and whether the turn was rerun for one. -/
  arrival : Option ℚ → Bool × Bool
  last_unsolicited : Option ℚ
  last_reply : Option LastReply
  message_sender : String → Option String
  reserved_reply : Option Reserved
  thread_route : String × String
  queue_post : Post → Except String Int
  /-- The first obligation that is not open in this thread. -/
  answer_queued : QueuedAnswer → Option String
  deliverable_files : List (Option String) → List (String × String)
  /-- Once this turn's jobs are queued. -/
  jobs_running : Bool
  thread_decisions : List String
  handoff_class : Option String
  change_obligations : List ObligationChange → Bool
  debrief_origin : String → Option DebriefOrigin

structure Core where
  reply_hash : String → String
  repost_requested : String → String → Bool
  /-- `render::reply` for the participants of the thread. -/
  render_reply : String → String → Bool → String → Nat → String × String
  /-- The file name of a path. -/
  file_name : String → Option String
  /-- The notes of the stand-ins for a failed parent call. -/
  stand_ins : List Note
  /-- This thread's state, rendered for the target of a hand-off. -/
  fork : ParentRequest → Decision → String → String

structure Turn where
  id : Int
  session : String
  request : ParentRequest
  decision : Decision
  work : Work
  verdict : String
  turn : Nat
  owner : String
  now : ℚ
  signal : Nat
  reply_limit : Nat
  cooldown : Option ℚ

/-! ## The fence -/

def Turn.is_result (t : Turn) : Bool := t.request.trigger.kind.worker_result?

def Turn.results (t : Turn) : List ResultRow :=
  (t.request.trigger.snapshot.map Snapshot.results).getD []

/-- The newest message the parent saw. -/
def Turn.seen (t : Turn) : Option ℚ :=
  ((t.request.history ++ t.request.trigger.message.toList).filterMap Message.ts).max?

/-- The turn is taken back: something changed while the parent decided. -/
def Turn.stale (t : Turn) (u : Reads) : Bool :=
  let result_stale := t.is_result ∧
    (Results.load u.queries t.request.trigger.ref).map Snapshot.results ≠
      t.request.trigger.snapshot.map Snapshot.results
  let notes_changed := (u.notes.map Prod.fst).getD 0 ≠ t.request.session.notes_revision.getD 0
  let arrival := u.arrival t.seen
  some u.version ≠ t.request.session.version ∨ !u.active ∨ result_stale ∨ notes_changed ∨
    !u.worker_controls_current ∨ (arrival.1 ∧ !arrival.2)

/-- The channel's cooldown for unsolicited replies. -/
def Turn.cooling (t : Turn) (u : Reads) : Option ℚ :=
  match t.cooldown.filter fun _ => t.decision.reply.isSome, u.last_unsolicited with
  | some cooldown, some last => if t.now - last < cooldown then some (last + cooldown) else none
  | _, _ => none

/-! ## The reply -/

/-- `replies::repeat_evidence` -/
def repeat_evidence (c : Core) (u : Reads) (request : ParentRequest) (owner : String) : Repeat :=
  let last := u.last_reply
  let kind := request.trigger.kind
  let message := request.trigger.message
  let text := (message.bind Message.text).getD ""
  let sender := (message.bind Message.sender).getD ""
  let verdict : Bool × String :=
    if kind = .owner_instruction ∨ kind.worker_result? ∨ kind = .post_refused then
      (true, "owner instruction or worker result")
    else if kind ≠ .message then (false, "automatic turn")
    else if request.trigger.payload.resumed then (true, "resumed by control")
    else if c.repost_requested text owner then (true, "addressed or explicit repost")
    else if last = none then (true, "no previous reply")
    else if last.any fun r => r.state = "failed" then (true, "previous reply definitely failed")
    else if (message.bind Message.meta_).isSome then (false, "peer follow-up")
    else if sender ≠ "" ∧ last.any fun r => sender ≠ r.requester then (true, "different requester")
    else if '?' ∈ text.toList then (true, "new question")
    else (false, "same requester without a new ask")
  ⟨verdict.1, verdict.2, last⟩

/-- Details at most this long are folded into the reply instead of attached. -/
def INLINE_DETAILS : Nat := 1500

def requester (u : Reads) (request : ParentRequest) (owner : String) : String :=
  let origin := (request.trigger.snapshot.map Snapshot.origin).getD .null
  if request.trigger.kind = .owner_instruction ∨ origin.class_ = some .owner then owner
  else
    match request.trigger.message.bind Message.sender, origin.event_id with
    | some sender, _ => sender
    | none, some event => (u.message_sender event).getD ""
    | none, none => ""

/-- A few lines of details are not worth a file. -/
def fold_details (reply : Reply) (limit : Nat) : Reply :=
  let combined := trim_end reply.text ++ "\n\n" ++ trim reply.details
  if trim reply.details ≠ "" ∧ reply.details.length ≤ INLINE_DETAILS ∧ combined.length ≤ limit then
    { reply with text := combined, details := "" }
  else reply

def render (c : Core) (u : Reads) (request : ParentRequest) (owner : String) (limit : Nat)
    (reply : Reply) : Reply :=
  let folded := fold_details reply limit
  let shown := c.render_reply folded.text folded.details (folded.status = .waiting)
    (requester u request owner) limit
  { folded with text := shown.1, details := shown.2 }

/-- The thread's streaks, its status and the hash of its last reply. -/
structure Progress where
  waiting : Int
  quiet : Int
  status : String
  hash : String
deriving DecidableEq

/-- The status and the streaks before the reply. -/
def Turn.start (t : Turn) : Progress :=
  let status := t.request.session.status.getD "new"
  let status := if t.decision.reopen_blocked ∧ status = "blocked" then "complete" else status
  { waiting := t.request.session.wait_streak.getD 0
    quiet := t.request.session.no_progress.getD 0 + 1
    -- An unsent reply is the stand-in for a failed parent turn.
    status := match t.decision.reply with
      | some reply => if reply.send then status else reply.status.as_str
      | none => status
    hash := t.request.session.last_reply_hash.getD "" }

/-- The decision with its sent reply rendered. -/
def Turn.rendered (t : Turn) (c : Core) (u : Reads) : Decision :=
  { t.decision with
    reply := t.decision.reply.map fun reply =>
      if reply.send then render c u t.request t.owner t.reply_limit reply else reply }

/-- The rendered reply says again what the last one said. -/
def Turn.duplicate (t : Turn) (c : Core) (u : Reads) (reply : Reply) : Bool :=
  c.reply_hash reply.text = t.start.hash ∧ reply.status.as_str = t.start.status ∧
    !(repeat_evidence c u t.request t.owner).allowed ∧ reply.answers = [] ∧ reply.details = "" ∧
    t.work.jobs = [] ∧ !t.is_result ∧ t.decision.note.kind ≠ .correction

def Turn.reply_key (t : Turn) : String := toString t.id ++ ":reply"

def reply_post (t : Turn) (channel thread_ts : String) (reply : Reply) : Post where
  idem_key := t.reply_key
  session_id := t.session
  kind := "reply"
  channel := channel
  thread_ts := some thread_ts
  text := reply.text
  meta_ := none
  filename := ""
  blob := none
  after := ""

/-- `attention::queue_answer_tx`: the id of the post and what was queued. -/
def queue_answer (t : Turn) (u : Reads) (channel thread_ts : String) (reply : Reply) :
    Except String (Int × List Effect) := do
  refuse (trim reply.text = "") "an answer must contain text"
  let some reserved := u.reserved_reply | throw "missing reply reservation"
  match reserved.post with
  | some id => return (id, [])
  | none =>
    refuse (u.thread_route ≠ (channel, thread_ts)) "answer route differs from its thread"
    let post := reply_post t channel thread_ts reply
    let id ← u.queue_post post
    let queued : QueuedAnswer := ⟨id, t.session, t.id, reserved.trigger, reply.answers⟩
    match u.answer_queued queued with
    | some obligation => throw ("obligation is not open in this thread: " ++ obligation)
    | none => return (id, [.queue_post post, .answer_queued queued])

/-- A post that a hand-off asked for settles the source thread's asks. -/
def answer_handoff (t : Turn) (reply : Reply) (post : Int) : List Effect :=
  if t.request.trigger.kind = .handoff ∧ reply.status ≠ .blocked then
    [.answer_for_handoff (t.request.trigger.payload.from_session.getD "")
      t.request.trigger.payload.answers post]
  else []

def ResultRow.failed (row : ResultRow) : Bool :=
  row.job_status ≠ some "done" ∨ row.result_status = some "failed"

/-- The workers a report is about, failed ones first. -/
def report_workers (rows : List ResultRow) : String :=
  let ids := (rows.filter ResultRow.failed ++ rows.filter fun r => !r.failed).filterMap
    ResultRow.worker_id
  String.ofList ((",".intercalate (ids.destutter (· ≠ ·))).toList.take 64)

def label (t : Turn) (reply : Reply) (post : Int) : Effect :=
  .label_post post
    ⟨t.owner, t.session, t.turn, reply.status.as_str, if t.is_result then "report" else "reply",
      if t.is_result then report_workers t.results else "", 2⟩
    (((t.request.trigger.message.bind Message.event_id).or
      ((t.request.trigger.snapshot.bind fun s => s.origin.event_id).or
        t.request.trigger.refused_event)).getD "")
    t.is_result

def upload_post (t : Turn) (index : Nat) (filename blob : String) : Post where
  idem_key := toString t.id ++ ":upload:" ++ toString index
  session_id := t.session
  kind := "upload"
  channel := t.request.session.channel.getD ""
  thread_ts := t.request.session.root_ts
  text := ""
  meta_ := none
  filename := filename
  blob := some blob
  after := t.reply_key

def attachments (t : Turn) (c : Core) (u : Reads) (reply : Reply) :
    Except String (List Effect) := do
  let details := if reply.details = "" then []
    else [("details-" ++ toString t.id ++ ".md", reply.details)]
  let files := match t.request.trigger.snapshot with
    | none => []
    | some snapshot => (u.deliverable_files (snapshot.results.map ResultRow.id)).map fun file =>
      ((c.file_name file.1).getD "artifact", file.2)
  let uploads ← (details ++ files).zipIdx.mapM fun upload => do
    let post := upload_post t upload.2 upload.1.1 upload.1.2
    let id ← u.queue_post post
    return [Effect.queue_post post, .link_answers id reply.answers]
  return uploads.flatten

/-- The part of the commit that posts. -/
def answer (t : Turn) (c : Core) (u : Reads) (reply : Reply) :
    Except String (Progress × List Effect) := do
  let candidate := c.reply_hash reply.text
  let before := t.start
  if t.duplicate c u reply then return (before, [])
  let some channel := t.request.session.channel | throw "missing channel"
  let some thread_ts := t.request.session.root_ts | throw "missing root timestamp"
  let (post, queued) ← queue_answer t u channel thread_ts reply
  let uploads ← attachments t c u reply
  let after : Progress :=
    { waiting := if reply.status = .waiting then before.waiting + 1 else 0
      quiet := if candidate = before.hash ∨ t.decision.note.kind = .ack then before.quiet else 0
      status := reply.status.as_str
      hash := candidate }
  return (after, queued ++ answer_handoff t reply post ++ [label t reply post] ++ uploads ++
    if t.cooldown.isSome then [.mark_unsolicited] else [])

def post_reply (t : Turn) (c : Core) (u : Reads) : Except String (Progress × List Effect) :=
  match (t.rendered c u).reply with
  | some reply => if reply.send then answer t c u reply else return (t.start, [])
  | none => return (t.start, [])

/-! ## Everything else -/

/-- The last twenty decisions of the thread. -/
def kept_decisions (before new : List String) : List String :=
  let all := before ++ new
  all.drop (all.length - 20)

/-- The stored notes after the turn. -/
def merged_notes (c : Core) (d : Decision) (posted hold_cleared : Bool) (data : StoredNotes) :
    StoredNotes :=
  let blocked := d.reply.any fun r => r.status = .blocked
  let data := if blocked ∧ posted then
      { data with blocker := some "", assignee := some "", next_step := some "" }
    else data
  let data := if hold_cleared then
      c.stand_ins.foldl (fun data note =>
        { data with
          blocker := if data.blocker = some note.blocker then some "" else data.blocker
          next_step := if data.next_step = some note.next_step then some "" else data.next_step })
        data
    else data
  let put (new : String) (old : Option String) := if new = "" then old else some new
  ⟨put d.note.repo data.repo, put d.note.assignee data.assignee,
    put d.note.next_step data.next_step, put d.note.blocker data.blocker⟩

def commit_effects (t : Turn) (c : Core) (u : Reads) (posted : Bool) : List Effect :=
  let d := t.rendered c u
  let notes := u.notes.getD (0, ⟨none, none, none, none⟩)
  let data := merged_notes c d posted (hold_clears t.request d) notes.2
  .keep_decisions (kept_decisions u.thread_decisions d.decisions) ::
    if data = notes.2 then [] else [.write_parent_notes (notes.1 + 1) data]

def obligation_change (disposition : Disposition) : ObligationChange :=
  match disposition with
  | .declined id _ => ⟨id, "declined", disposition, none⟩
  | .deferred id _ limit => ⟨id, "deferred", disposition, some limit⟩

def new_ask (t : Turn) (ask : Ask × Nat) : NewAsk :=
  ⟨"ask:" ++ toString t.id ++ ":" ++ toString ask.2,
    t.request.trigger.message.bind Message.event_id, ask.1.summary, ask.1.due⟩

def enqueue_debrief (t : Turn) (c : Core) (u : Reads) : List Effect :=
  if (t.rendered c u).reply.any fun r => r.discussion = .finished ∧ r.status = .complete then
    match u.debrief_origin t.reply_key with
    | some origin => [.queue_debrief t.reply_key origin]
    | none => []
  else []

/-- The streaks and the status once the jobs are queued. -/
def settled (t : Turn) (u : Reads) (p : Progress) : Progress :=
  let p := if u.jobs_running ∧ p.status ≠ "blocked" then { p with status := "working" } else p
  if t.work.jobs ≠ [] then
    { p with quiet := if t.decision.note.kind ≠ .ack then 0 else p.quiet, waiting := 0 }
  else p

def commit_handoffs (t : Turn) (c : Core) (u : Reads) : List Effect :=
  if t.decision.handoffs = [] then []
  else
    [.queue_handoffs (t.decision.handoffs.zipIdx.map fun h =>
      queue_handoff t.request t.session t.id u.handoff_class
        (c.fork t.request (t.rendered c u) h.1.thread) h.2 h.1)]

def commit_record (t : Turn) (c : Core) (u : Reads) : CommitRecord :=
  ⟨t.id, t.request, t.rendered c u, t.work.workers, t.work.jobs,
    repeat_evidence c u t.request t.owner⟩

/-- Whether the thread's reply is queued, by this turn or before. -/
def post_queued (u : Reads) (posted : List Effect) : Bool :=
  posted.any (fun e => match e with | .answer_queued _ => true | _ => false) ||
    u.reserved_reply.any fun r => r.post.isSome

def commit (c : Core) (t : Turn) (u : Reads) : Except String (Outcome × List Effect) := do
  refuse (t.turn ≥ 2 ^ 63) "turn counter exceeds supported range"
  if t.stale u then return (.stale, [.return_turn])
  if let some limit := t.cooling u then return (.deferred, [.defer_turn limit])
  let (p, posted) ← post_reply t c u
  let changes := t.decision.dispositions.map obligation_change
  refuse (!u.change_obligations changes) "obligation changed before actor commit"
  let p := settled t u p
  return (.committed,
    posted ++ [.add_workers t.work.workers, .queue_jobs t.work.jobs] ++
    (if t.is_result then [.mark_reported (t.results.map ResultRow.id)] else []) ++
    (t.work.context.toList.map Effect.patch_context) ++
    commit_effects t c u (post_queued u posted) ++ commit_handoffs t c u ++
    [.change_obligations changes, .open_asks (t.decision.asks.zipIdx.map (new_ask t))] ++
    (if p.waiting = t.signal ∨ p.quiet = t.signal then
      [.open_streak_signal ("streak:" ++ t.session ++ ":" ++ toString t.id)] else []) ++
    [.close_turn ⟨p.status, t.reply_key, t.turn, p.waiting, p.quiet, p.hash,
      t.decision.summary⟩] ++
    enqueue_debrief t c u ++
    [.finish_turn (t.request.trigger.message.bind Message.event_id) t.verdict,
      .record (commit_record t c u)])

end Fridica.Threads
