import Fridica.Control.Events.Spec
import Fridica.Control.Feed.Spec
import Fridica.Lib.Json

/-!
# The pages of the event feed

`project_all` and `read` of `control/events.rs` over JSON, the request that reads one page, and the
loop of the `events` command.
-/

namespace Fridica.Control.Pages

open Fridica.Json

structure ThreadId where
  workspace : String
  channel : String
  root_ts : String

/-- A group, a worker and its role, by job. -/
structure FeedJob where
  join_group : String
  worker : String
  role : String

def FeedJob.default : FeedJob := ⟨"", "", ""⟩

/-- What other crates decide: reading JSON text and a thread's ID. -/
structure Core where
  from_str : String → Option Value
  thread_id : String → Option ThreadId

structure Lookup where
  names : Feed.Names
  /-- Outbox post kind and thread for a delivery, by outbox ID. -/
  post : Int64 → Option (String × String)
  job : String → Option String
  /-- Whether the record is a message's first arrival. -/
  first : String → Int64 → ℚ → Bool
  feed_job : String → Option FeedJob

/-! ## Events -/

abbrev Fields := List (String × Value)

def VERSION : Nat := 1

def text (v : Value) : String := v.as_str.getD ""

def number (n : Nat) : Value := .number (.unsigned n)

def strings (ss : List String) : Value := .array (ss.map .string)

def place (names : Feed.Names) (workspace channel : String) (thread : Option String) : Fields :=
  Value.extend [] [
    ("workspace", .string workspace),
    ("channel", .of_fields [("id", .string channel), ("name", .optional (names.channels channel))]),
    ("thread", .optional thread)]

def session (core : Core) (names : Feed.Names) (id : String) : Fields :=
  match core.thread_id id with
  | some t => place names t.workspace t.channel (some t.root_ts)
  | none => place names "" "" none

def clip (value : Value) (limit : Nat) : Value := .string (Control.clip (text value) limit)

def length_of (v : Value) : Value := number (v.as_array.elim 0 List.length)

/-- The event of an arrival. -/
def intake (names : Feed.Names) (p : Value) : Fields × Fields :=
  let m := p.field "message"
  let ts := text (m.field "ts")
  let root := (m.field "thread_ts").as_str.getD ts
  let sender := text (m.field "sender")
  let mention := "<@" ++ text (p.field "owner") ++ ">"
  let event := Value.extend [] [
    ("kind", .string "message"), ("ts", .string ts), ("sender", .string sender),
    ("sender_name", .optional (names.users sender)),
    ("mentions_owner", .bool ((m.field "text").as_str.any (Feed.contains · mention))),
    ("text", m.field "text"), ("files", length_of (m.field "attachments")),
    ("source", m.field "source")]
  -- The owner's own posts carry Fridica's turn status.
  let status :=
    if (m.field "meta").is_null then []
    else [("turn_status", (m.field "meta").field "status"),
      ("turn_kind", (m.field "meta").field "kind")]
  (place names (text (m.field "workspace")) (text (m.field "channel")) (some root),
    Value.extend event status)

/-- Independent atoms of what the turn did, sorted. -/
def outcome (d : Value) : List String :=
  let reply := d.field "reply"
  let sent := (reply.field "send").as_bool != some false &&
    Text.trim (text (reply.field "text")) != ""
  let delegated := (d.field "delegations").as_array.any (!·.isEmpty)
  let status := text (reply.field "status")
  let atoms :=
    (if sent then ["replied"] else []) ++ (if delegated then ["delegated"] else []) ++
    (if !reply.is_null && (status == "waiting" || status == "blocked") then [status] else []) ++
    (if (reply.field "discussion").as_str == some "finished" then ["finished"] else [])
  atoms.insertionSort (· ≤ ·)

def trigger_ts (p : Value) : Value :=
  (((p.field "request").field "trigger").field "message").field "ts"

def request_session (p : Value) : String :=
  text (((p.field "request").field "session").field "id")

def actor_commit (core : Core) (names : Feed.Names) (p : Value) : Fields × Fields :=
  let d := p.field "decision"
  (session core names (request_session p), Value.extend [] [
    ("kind", .string "turn"), ("outcome", strings (outcome d)), ("trigger_ts", trigger_ts p),
    ("delegations", length_of (d.field "delegations")), ("summary", clip (d.field "summary") 300),
    ("next_step", clip ((d.field "note").field "next_step") 300),
    ("blocker", clip ((d.field "note").field "blocker") 300)])

/-- The closing debrief is its own record. -/
def debrief_commit (core : Core) (names : Feed.Names) (p : Value) : Fields × Fields :=
  (session core names (request_session p), Value.extend [] [
    ("kind", .string "turn"), ("outcome", strings ["finished"]), ("trigger_ts", trigger_ts p),
    ("delegations", number 0), ("summary", clip (p.field "debrief") 300),
    ("next_step", .string ""), ("blocker", .string "")])

def action : String → Option String
  | "pause" => some "paused"
  | "resume" => some "resumed"
  | "retry" => some "retried"
  | "close" => some "closed"
  | "archive" => some "archived"
  | "restore" => some "restored"
  | "clean" => some "cleaned"
  | "instruct" => some "instructed"
  | _ => none

def as_object : Value → Option Fields
  | .object fields => some fields
  | _ => none

def thread_control (core : Core) (names : Feed.Names) (p : Value) : Option (Fields × Fields) := do
  let control ← as_object (p.field "control")
  let (name, detail) ← control.head?
  let action ← action name
  return (session core names (text (p.field "session")), Value.extend [] [
    ("kind", .string "thread_control"), ("action", .string action),
    ("reason", clip (detail.field "reason") 300),
    ("actor", (p.field "authority").field "kind")])

def delivery (core : Core) (p : Value) (lookup : Lookup) : Option (Fields × Fields) :=
  let outcome := text ((p.field "result").field "outcome")
  if outcome = "sent" then none
  else
    let id := (p.field "outbox_id").as_i64.getD (-1)
    let (post_kind, thread) := (lookup.post id).getD ("", "")
    some (session core lookup.names thread, Value.extend [] [
      ("kind", .string "outbox"), ("outcome", .string outcome),
      ("code", (p.field "result").field "code"), ("post_kind", .string post_kind),
      ("outbox_id", .int id.toInt), ("attempt", p.field "attempt")])

def worker_call (core : Core) (p : Value) (lookup : Lookup) : Fields × Fields :=
  let job := text ((p.field "request").field "job_id")
  let spec := p.field "spec"
  (session core lookup.names ((lookup.job job).getD ""), Value.extend [] [
    ("kind", .string "job"), ("action", .string "started"), ("job_id", .string job),
    ("attempt", (p.field "request").field "attempt"), ("worker_id", spec.field "worker_id"),
    ("machine", (spec.field "machine").field "name"),
    ("workspace", (spec.field "workspace").field "name"), ("backend", spec.field "backend"),
    ("fork_from_worker", .string (text (p.field "fork_from_worker"))),
    ("fork_fallback", p.field "fork_fallback")])

/-- The action, the status and the code of a completion. -/
def completed (c : Value) : String × Value × Value :=
  if (c.field "interrupted").as_bool = some true then ("interrupted", .null, .null)
  else
    match (c.field "outcome").get "Err" with
    | some error => ("failed", .null, error.field "code")
    | none =>
      let result := ((c.field "outcome").field "Ok").field "result"
      let status := text (result.field "status")
      (if status = "" ∨ status = "done" ∨ status = "complete" then "finished" else "failed",
        result.field "status", .null)

def worker_completion (core : Core) (p : Value) (lookup : Lookup) : Fields × Fields :=
  let job := text (p.field "job_id")
  let (action, status, code) := completed (p.field "completion")
  (session core lookup.names ((lookup.job job).getD ""), Value.extend [] [
    ("kind", .string "job"), ("action", .string action), ("job_id", .string job),
    ("attempt", p.field "attempt"), ("status", status), ("code", code)])

def daemon (names : Feed.Names) (more : Fields) : Fields × Fields :=
  (place names "" "" none, Value.extend [] (("kind", .string "daemon") :: more))

/-- Where the record happened, and what it says. -/
def body (core : Core) (seq : Int64) (time : ℚ) (kind : String) (p : Value) (lookup : Lookup) :
    Option (Fields × Fields) :=
  let names := lookup.names
  match kind with
  | "service_start" => some (daemon names [("action", .string "started"),
      ("observe_only", .bool ((p.field "observe_only").as_bool == some true))])
  | "service_stop" => some (daemon names [("action", .string "stopped"),
      ("failure", p.field "failure")])
  | "intake" =>
    if lookup.first (text ((p.field "message").field "event_id")) seq time then
      some (intake names p)
    else none
  | "actor_commit" => some (actor_commit core names p)
  | "debrief_commit" => some (debrief_commit core names p)
  | "thread_control" => thread_control core names p
  | "delivery" => delivery core p lookup
  | "worker_call" => some (worker_call core p lookup)
  | "worker_completion" => some (worker_completion core p lookup)
  | _ => none

/-- One event, or none when the record is not the feed's business. -/
def project (core : Core) (seq : Int64) (time : ℚ) (kind : String) (p : Value) (lookup : Lookup) :
    Option Fields := do
  let (body, event) ← body core seq time kind p lookup
  let out := Value.extend [] [("v", number VERSION), ("cursor", .int seq.toInt),
    ("time", .number (.float time)), ("kind", (event.lookup "kind").getD .null)]
  return Value.extend (Value.extend out body) (event.filter (·.1 ≠ "kind"))

/-- The job's own outcome, whatever status the result itself reports. -/
def job_status (c : Value) : String × Value :=
  if (c.field "interrupted").as_bool = some true ∨ (c.field "stopped").as_bool = some true then
    ("interrupted", .null)
  else
    match (c.field "outcome").get "Ok" with
    | some ok => ("finished", ok.field "result")
    | none => ("failed", .null)

/-- The additive event beside the event of a record. -/
def extra (kind : String) (p event : Value) (lookup : Lookup) : Option Fields :=
  match kind with
  | "worker_completion" =>
    let job := text (p.field "job_id")
    let facts := (lookup.feed_job job).getD FeedJob.default
    let (status, result) := job_status (p.field "completion")
    some (Value.extend [] [
      ("kind", .string "job_result"), ("join_group", .string facts.join_group),
      ("job_id", .string job), ("worker_id", .string facts.worker), ("role", .string facts.role),
      ("attempt", p.field "attempt"), ("job_status", .string status), ("result", result),
      ("code", event.field "code")])
  | "intake" =>
    let m := p.field "message"
    let owner := text ((m.field "meta").field "owner")
    if (m.field "meta").is_object ∧ owner ≠ "" ∧ owner ≠ text (p.field "owner") then
      some (Value.extend [] [
        ("kind", .string "peer_post"), ("ts", event.field "ts"), ("sender", event.field "sender"),
        ("owner", .string owner), ("meta", m.field "meta"), ("text", m.field "text")])
    else none
  | _ => none

/-- Every event one ledger record projects to, in order. -/
def project_all (core : Core) (seq : Int64) (time : ℚ) (kind : String) (p : Value)
    (lookup : Lookup) : List Value :=
  match project core seq time kind p lookup with
  | none => []
  | some fields =>
    let event := Value.object fields
    match extra kind p event lookup with
    | none => [event]
    | some extra =>
      let value := Value.extend [] (["v", "cursor", "time"].map fun key => (key, event.field key))
      let value := Value.insert "kind" ((extra.lookup "kind").getD .null) value
      let value := Value.extend value
        (["workspace", "channel", "thread"].map fun key => (key, event.field key))
      [event, .object (Value.extend value (extra.filter (·.1 ≠ "kind")))]

/-! ## One page -/

/-- A record of the ledger. -/
structure Event where
  seq : Int64
  kind : String
  time : ℚ
  payload : String

structure Post where
  kind : String
  session : String

/-- What is read of the store. A read that fails gives none. -/
structure Unit where
  events_after : Int64 → Nat → Option (List Event)
  outbox_post : Int64 → Option (Option Post)
  job_session : String → Option (Option String)
  feed_job : String → Option (Option FeedJob)
  message_received_at : String → Option (Option ℚ)
  has_recent_intake : String → Int64 → ℚ → Option Bool

/-- The message row keeps its first arrival time. -/
def first (u : Unit) (event : String) (seq : Int64) (time : ℚ) : Bool :=
  match (u.message_received_at event).join with
  | none => true
  | some stored =>
    if stored ≠ time then false else !(u.has_recent_intake event seq time).getD false

def lookup_of (u : Unit) (names : Feed.Names) : Lookup where
  names := names
  post id := (u.outbox_post id).join.map fun p => (p.kind, p.session)
  job id := (u.job_session id).join
  first := first u
  feed_job id := (u.feed_job id).join

/-- The events of one record. One whose payload cannot be read has none. -/
def events_of (core : Core) (lookup : Lookup) (e : Event) : List Value :=
  match core.from_str e.payload with
  | none => []
  | some payload => project_all core e.seq e.time e.kind payload lookup

/-- At most `limit` ledger records are scanned, and `next` is the last one scanned. -/
def read (core : Core) (u : Unit) (names : Feed.Names) (after : Int64) (limit : Nat) :
    Option Value := do
  let limit := max 1 (min limit Feed.MAX_LIMIT)
  let rows ← u.events_after after limit
  let next := rows.foldl (fun _ row => row.seq) after
  let events := rows.flatMap (events_of core (lookup_of u names))
  return .of_fields [("v", number VERSION), ("events", .array events), ("next", .int next.toInt),
    ("scanned", number rows.length)]

/-! ## Following -/

/-- A client that resumes from `next`, with one limit for each page. -/
def follow (core : Core) (u : Unit) (names : Feed.Names) :
    Int64 → List Nat → Option (List (List Value) × Int64)
  | after, [] => some ([], after)
  | after, limit :: limits => do
    let page ← read core u names after limit
    let events ← (page.field "events").as_array
    let next ← (page.field "next").as_i64
    let (pages, last) ← follow core u names next limits
    return (events :: pages, last)

/-- `GET /events?after=…&limit=…`: the limit and the cursor are checked before the page is read. -/
def request (core : Core) (u : Unit) (names : Feed.Names) (after : Int64) (limit : Nat) :
    Option Value :=
  if 1 ≤ limit ∧ limit ≤ 1000 ∧ 0 ≤ after then read core u names after limit else none

/-- What the command prints, line by line, over how many requests. -/
structure Printed where
  lines : List Value
  requests : Nat

/-- The loop of the `events` command, for at most `fuel` requests. A request that fails ends the
command with an error. -/
def events_loop (core : Core) (u : Unit) (names : Feed.Names) (follow : Bool) (limit : Nat) :
    Nat → Int64 → Option Printed
  | 0, _ => none
  | fuel + 1, cursor => do
    let page ← request core u names cursor limit
    match (page.field "next").as_i64 with
    | none => return ⟨[page], 1⟩
    | some next =>
      let events := (page.field "events").as_array.getD []
      -- Fewer records than asked means the ledger's end for now.
      let reached := (page.field "scanned").as_u64.all (· < limit)
      if reached ∧ ¬ follow then return ⟨events, 1⟩
      else
        let rest ← events_loop core u names follow limit fuel next
        return ⟨events ++ rest.lines, rest.requests + 1⟩

end Fridica.Control.Pages
