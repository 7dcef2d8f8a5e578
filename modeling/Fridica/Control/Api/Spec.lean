import Fridica.Lib.Dialogue
import Fridica.Lib.Json
import Fridica.Lib.Text
import Fridica.Approvals.Spec
import Fridica.Control.Target.Spec
import Fridica.External.Spec
import Fridica.Slack.Files.Spec
import Fridica.Threads.Controls.Spec
import Mathlib.Data.List.Infix

/-!
# The control API

`handle` and `route` of `control/api.rs`. What a request reads, records and changes are questions.
An answer that ends the request early is thrown.
-/

open Fridica.Ask
open Fridica.Json (Value)
open Fridica.Text
open Fridica.Approvals (ApprovalDecision)
open Fridica.External (Target PostRequest outbox_kind)
open Fridica.Slack.Files (Attachment Download is_text)
open Fridica.Threads.Controls (Authority Control)

namespace Fridica.Control.Api

/-! ## Requests and responses -/

structure Request where
  method : String
  target : Target.Text
  body : Value

structure Response where
  status : Nat
  body : Value

def Response.ok (body : Value) : Response := ⟨200, body⟩

def Response.error (status : Nat) (code : String) : Response :=
  ⟨status, .object [("error", .string code)]⟩

/-- An error of an operation, as far as a response tells it. -/
structure Failure where
  storage : Bool
  not_found : Bool
  text : String

inductive ContextMode
  | fresh
  | fork
deriving DecidableEq

structure DelegateRequest where
  role : String
  brief : String
  context : ContextMode
  worker_id : String
  ephemeral : Bool
  backend : String
  deliverable : String
  tags : List String
deriving DecidableEq

structure BackfillRequest where
  since : ℚ
  until_ : ℚ
  apply : Bool
  client_id : String
deriving DecidableEq

/-- What changes the state of the daemon. -/
inductive Operation
  | close_obligation (id reason : String)
  | revive_thread (thread : String)
  | backfill (request : BackfillRequest)
  | instruct (thread text client_id : String)
  | delegate (thread : String) (request : DelegateRequest)
  | post (target : Target) (request : PostRequest)
  | set_thread_driver (thread driver : String)
  | worker_control (worker : String) (stop : Bool)
  | write_owner_notes (thread : String) (data : List (String × Value)) (expected : Option Nat)
  | control (thread : String) (control : Control)
  | decide (approval : String) (decision : ApprovalDecision)
  | retry_post (id : Int)
  | update_configuration (part : String) (patch : Value)

/-- What a response shows of the configuration. -/
structure Shown where
  backend : String
  model : String
  triage_model : String
  reasoning_effort : String
  limits : Value

inductive Unedited
  | invalid
  | refused

abbrev Outcome : Operation → Type
  | .close_obligation _ _ | .control _ _ => Except Failure Unit
  | .revive_thread _ | .decide _ _ | .retry_post _ => Except Failure Bool
  | .backfill _ | .worker_control _ _ => Except Failure Value
  | .instruct _ _ _ => Except Failure Int
  | .delegate _ _ | .post _ _ => Except Failure (Except (Nat × String) Value)
  | .set_thread_driver _ _ => Except Failure (Option Bool)
  | .write_owner_notes _ _ _ => Except Failure Nat
  | .update_configuration _ _ => Except Unedited Shown

structure FileRow where
  ts : String
  sender : String
  attachments : List Attachment

inductive Lookup
  | resolve (reference : String)
  | processes
  | view (parts : List String) (query : List (String × String)) (processes : Option Value)
  | events (after : Option Nat) (limit : Nat)
  | thread_files (thread : String)
  | attachment (id : String)
  | download (attachment : Attachment) (html : Bool)
  | latest_thread (channel : String)
  | thread_name (id : String)
  | thread_exists (id : String)
  | thread_worker (id worker : String)
  | worker_record (id : String)
  | approval_exists (id : String)
  | configuration_editable

abbrev Found : Lookup → Type
  | .resolve _ => Except Failure (Option String)
  | .processes => Value
  | .view _ _ _ => Except Failure (Option Value)
  | .events _ _ => Except Failure Value
  | .thread_files _ => Except Failure (Option (List FileRow))
  | .attachment _ => Except Failure (Option Attachment)
  | .download _ _ => Except Slack.Files.Failure Download
  | .latest_thread _ => Except Failure (Except String (String × String))
  | .thread_name _ => Except Failure String
  | .thread_exists _ | .thread_worker _ _ | .approval_exists _ => Except Failure Bool
  | .worker_record _ => Except Failure Unit
  | .configuration_editable => Bool

inductive Query
  | now
  | control_request (now : ℚ) (request : Request) (authority : Authority)
  | control_response (call : Int) (now : Option ℚ) (response : Response)
  | look (lookup : Lookup)
  | operate (op : Operation) (authority : Authority)

/-- A time that is not finite is `none`. -/
abbrev Answer : Query → Type
  | .now => Option ℚ
  | .control_request _ _ _ => Except Failure Int
  | .control_response _ _ _ => Except Failure Unit
  | .look lookup => Found lookup
  | .operate op _ => Outcome op

abbrev Act (α : Type) := Fallible Query Answer Response α

/-- What the rest of the daemon and the libraries bring. -/
structure Outside where
  /-- `reqwest::Url::query_pairs` -/
  query_pairs : Target.Text → Option (List (Target.Text × Target.Text))
  valid_patch : String → Value → Bool
  files : Slack.Files.Outside
  /-- The runtime can read files of Slack. -/
  file_reader : Bool
  sha256 : Utf8.Bytes → String
  hex : Utf8.Bytes → String

def clock : Act (Option ℚ) := ask Query.now

def look (lookup : Lookup) : Act (Found lookup) := ask (Query.look lookup)

def operate (op : Operation) (authority : Authority) : Act (Outcome op) :=
  ask (Query.operate op authority)

def refuse {α : Type} (status : Nat) (code : String) : Act α := throw (.error status code)

def refuse_if (c : Bool) (status : Nat) (code : String) : Act Unit :=
  if c then refuse status code else pure ()

/-! ## Errors -/

def contains (text part : String) : Bool := part.toList <:+: text.toList

def operation_error (error : Failure) : Response :=
  if error.storage then .error 500 "storage_failed"
  else if contains error.text "owner" ∨ contains error.text "authentication" then
    .error 403 "owner_required"
  else if error.text = "nothing to retry" then .error 409 "nothing_to_retry"
  else if error.text = "thread worker cleanup is pending" then
    .error 409 "thread_cleanup_pending"
  else if error.text ∈ ["notes revision conflict", "instruction ID reused with different text",
      "closed threads require explicit restoration",
      "only an active thread can retry its last decision",
      "instruction outside configured scope",
      "instructions are unavailable in observe-only mode"] then .error 409 "operation_conflict"
  else .error 500 "operation_failed"

/-- A refusal is its status and code; anything else failed. -/
def answer : Except Failure (Except (Nat × String) Value) → Response
  | .ok (.ok value) => .ok value
  | .ok (.error (status, code)) => .error status code
  | .error error => operation_error error

/-! ## Bodies -/

abbrev Fields := List (String × Value)

def fields_of : Value → Fields
  | .object fields => fields
  | _ => []

/-- Every field is one of these. -/
def only (allowed : List String) (fields : Fields) : Bool := fields.all fun kv => kv.1 ∈ allowed

def only_actor (body : Value) : Bool := body.is_object && only ["actor"] (fields_of body)

/-- An absent or null field takes its default. -/
def given (fields : Fields) (name : String) : Option Value :=
  (fields.lookup name).filter fun v => !v.is_null

def string_field (fields : Fields) (name default code : String) : Except String String :=
  match given fields name with
  | none => .ok default
  | some v => v.as_str.elim (.error code) .ok

def ascii_alphanumeric (c : Char) : Bool := c.isAlphanum

/-- The idempotency key of a caller. -/
def client_id_ok (s : String) : Bool :=
  8 ≤ s.utf8ByteSize && s.utf8ByteSize ≤ 80 && s.toList.all fun c => ascii_alphanumeric c || c = '-'

def tag_of (tag : Value) : Except String String :=
  (tag.as_str.filter fun t => t ≠ "" ∧ t.length ≤ 200).elim (.error "invalid_tags") .ok

def context_of (s : String) : Except String ContextMode :=
  if s = "fresh" then .ok .fresh
  else if s = "fork" then .ok .fork
  else .error "invalid_context"

def ephemeral_of (fields : Fields) : Except String Bool :=
  match given fields "ephemeral" with
  | none => .ok false
  | some v => v.as_bool.elim (.error "invalid_ephemeral") .ok

def tags_of (fields : Fields) : Except String (List String) :=
  match given fields "tags" with
  | none => .ok []
  | some v => do
    let tags ← (v.as_array.filter fun tags => tags.length ≤ 16).elim (.error "invalid_tags") .ok
    tags.mapM tag_of

def delegate_fields : List String := ["actor", "role", "brief", "context", "worker_id", "ephemeral",
  "backend", "deliverable", "tags"]

def delegate_body (body : Value) : Except String DelegateRequest := do
  if !body.is_object then .error "invalid_body_or_query"
  let fields := fields_of body
  if !only delegate_fields fields then .error "unknown_body_field"
  let brief ← string_field fields "brief" "" "invalid_brief"
  if trim brief = "" ∨ brief.length > 40000 then .error "invalid_brief"
  let context ← string_field fields "context" "fresh" "invalid_context"
  let context ← context_of context
  let ephemeral ← ephemeral_of fields
  let tags ← tags_of fields
  let backend ← string_field fields "backend" "same" "invalid_backend"
  if backend = "" ∨ backend.utf8ByteSize > 64 then .error "invalid_backend"
  let role ← string_field fields "role" "general" "invalid_role"
  let worker_id ← string_field fields "worker_id" "" "unknown_worker"
  let deliverable ← string_field fields "deliverable" "report" "invalid_deliverable"
  return ⟨role, brief, context, worker_id, ephemeral, backend, deliverable, tags⟩

def post_fields : List String := ["actor", "text", "details", "meta", "client_id"]

def details_of (fields : Fields) : Except String String :=
  match given fields "details" with
  | none => .ok ""
  | some v => (v.as_str.filter fun d => d.length ≤ 40000).elim (.error "invalid_details") .ok

def status_of (meta_ : Fields) : Except String String :=
  match given meta_ "status" with
  | none => .ok "complete"
  | some v => (v.as_str.filter (· ∈ ["complete", "waiting", "blocked"])).elim
    (.error "invalid_status") .ok

def client_id_of (fields : Fields) : Except String (Option String) :=
  match given fields "client_id" with
  | none => .ok none
  | some v => (v.as_str.filter client_id_ok).elim (.error "invalid_client_id") (.ok ∘ some)

/-- A channel takes only a `study_root`, and a root carries no details. -/
def post_body (body : Value) (channel : Bool) : Except String PostRequest := do
  if !body.is_object then .error "invalid_body_or_query"
  let fields := fields_of body
  if !only post_fields fields then .error "unknown_body_field"
  let text ← (body.field "text").as_str.elim (.error "invalid_text") .ok
  if trim text = "" ∨ text.length > 40000 then .error "invalid_text"
  let details ← details_of fields
  if !(body.field "meta").is_object then .error "invalid_meta"
  let meta_ := fields_of (body.field "meta")
  if !only ["kind", "status"] meta_ then .error "unknown_meta_field"
  let kind ← (((meta_.lookup "kind").bind Value.as_str).filter fun k =>
    (outbox_kind k).isSome).elim (.error "invalid_post_kind") .ok
  if channel ∧ kind ≠ "study_root" then .error "invalid_post_kind"
  if kind = "study_root" ∧ details ≠ "" then .error "invalid_details"
  let status ← status_of meta_
  let client_id ← client_id_of fields
  return ⟨kind, status, text, details, client_id⟩

def number_of : Value → Option ℚ := Value.as_number

/-- `serde_json::from_value` of a backfill request. -/
def backfill_body (body : Value) : Option BackfillRequest := do
  let fields := fields_of body
  if !only ["since", "until", "apply", "client_id"] fields then none
  let since ← (fields.lookup "since").bind number_of
  let until_ ← (fields.lookup "until").bind number_of
  let apply ← (fields.lookup "apply").elim (some false) Value.as_bool
  let client_id ← (fields.lookup "client_id").elim (some "") Value.as_str
  return ⟨since, until_, apply, client_id⟩

def BackfillRequest.valid (r : BackfillRequest) (now : Option ℚ) : Bool :=
  now.any fun now =>
    0 ≤ r.since ∧ r.since < r.until_ ∧ r.until_ ≤ now ∧ (r.apply = false ∨ client_id_ok r.client_id)

/-- The text and the key of an instruction. -/
def instruction_of (body : Value) : Option (String × String) := do
  let text ← (body.field "text").as_str
  let client_id ← (body.field "client_id").as_str
  if trim text = "" ∨ (trim text).length > 4000 ∨ !client_id_ok client_id then none
  return (text, client_id)

/-! ## Reads -/

def owner (authority : Authority) : Act Unit := refuse_if (authority ≠ .owner) 403 "owner_required"

def decimal (digits : List Char) : Option Nat :=
  if digits ≠ [] ∧ digits.all Char.isDigit then
    some (digits.foldl (fun n c => 10 * n + (c.toNat - 48)) 0)
  else none

def integer : List Char → Option Int
  | '-' :: digits => (decimal digits).map fun n => -(n : Int)
  | '+' :: digits => (decimal digits).map Int.ofNat
  | digits => (decimal digits).map Int.ofNat

/-- `str::parse` to an `i64`. -/
def parse_i64 (v : String) : Option Int :=
  (integer v.toList).filter fun n => -(2 ^ 63) ≤ n ∧ n < 2 ^ 63

def cursor_of (v : String) : Option Nat := ((parse_i64 v).filter (0 ≤ ·)).map Int.toNat

def read_events (after : Option Nat) (limit : Nat) : Act Response := do
  match ← look (.events after limit) with
  | .ok value => return .ok value
  | .error _ => refuse 500 "view_unavailable"

def events (authority : Authority) (query : List (String × String)) : Act Response := do
  owner authority
  -- Every limit that the target lets through is a number.
  let limit := ((query.lookup "limit").bind fun v => Target.parse_usize (Target.bytes v)).getD 100
  match query.lookup "after" with
  | none => read_events none limit
  | some v =>
    match cursor_of v with
    | none => refuse 400 "invalid_cursor"
    | some after => read_events (some after) limit

def file_view (row : FileRow) (a : Attachment) : Value :=
  .of_fields [("id", .string a.id), ("name", .string a.name), ("mimetype", .string a.mimetype),
    ("size", .int a.size), ("ts", .string row.ts), ("sender", .string row.sender),
    ("text", .bool (is_text a))]

def file_id_ok (id : String) : Bool :=
  2 ≤ id.utf8ByteSize && id.utf8ByteSize ≤ 64 && id.toList.head? = some 'F' &&
    id.toList.all ascii_alphanumeric

def is_html (a : Attachment) : Bool :=
  let first := String.ofList (a.mimetype.toList.takeWhile (· ≠ ';'))
  (trim first).toList.map Char.toLower = "text/html".toList

/-- A text file of at most 64 KiB. -/
def download (o : Outside) (a : Attachment) : Act Response := do
  refuse_if (!is_text a) 415 "not_text"
  refuse_if (!o.file_reader) 503 "files_unavailable"
  match ← look (.download a (is_html a)) with
  | .ok d =>
    refuse_if (d.data.length > o.files.FILE_LIMIT) 413 "file_too_large"
    return .ok (.of_fields [("id", .string a.id), ("name", .string a.name),
      ("mimetype", .string a.mimetype), ("size", .int d.data.length),
      ("sha256", .string (o.sha256 d.data)), ("hex", .string (o.hex d.data))])
  | .error .recording => refuse 500 "recording_failed"
  | .error failure =>
    return ⟨502, .of_fields [("error", .string "file_unavailable"),
      ("reason", .string (o.files.note failure))]⟩

def file (o : Outside) (id : String) : Act Response := do
  refuse_if (!file_id_ok id) 400 "invalid_file"
  match ← look (.attachment id) with
  | .error _ => refuse 500 "view_unavailable"
  | .ok none => refuse 404 "unknown_file"
  | .ok (some a) => download o a

def files (o : Outside) (authority : Authority) (parts : List String)
    (query : List (String × String)) : Act Response := do
  owner authority
  match parts with
  | [_] =>
    let some thread := query.lookup "thread" | refuse 400 "thread_required"
    match ← look (.thread_files thread) with
    | .ok (some rows) =>
      return .ok (.array (rows.flatMap fun row => row.attachments.map (file_view row)))
    | .ok none => refuse 404 "unknown_thread"
    | .error _ => refuse 500 "view_unavailable"
  | [_, id] => file o id
  | _ => refuse 404 "not_found"

def view (parts : List String) (query : List (String × String)) (processes : Option Value) :
    Act Response := do
  match ← look (.view parts query processes) with
  | .ok (some value) => return .ok value
  | .ok none => refuse 404 "not_found"
  | .error _ => refuse 500 "view_unavailable"

def get (o : Outside) (authority : Authority) (request : Request) (parts : List String)
    (query : List (String × String)) : Act Response := do
  refuse_if (!request.body.is_object ∨ !(fields_of request.body).isEmpty) 400 "get_body_not_allowed"
  if parts.head? = some "files" then return ← files o authority parts query
  if parts = ["events"] then return ← events authority query
  if parts.head? = some "workers" ∨ parts.head? = some "machines" ∨
      (parts.head? = some "threads" ∧ parts.length = 2) then
    let processes ← look .processes
    return ← view parts query (some processes)
  view parts query none

/-! ## Changes -/

/-- The body has only these fields. -/
def allow (allowed : List String) (body : Value) : Act Unit :=
  refuse_if (!only allowed (fields_of body)) 400 "unknown_body_field"

/-- A text that passes a check of the body, and its error otherwise. -/
def check {α : Type} (r : Except String α) : Act α :=
  match r with
  | .ok a => pure a
  | .error code => refuse 400 code

def patch (authority : Authority) (parts : List String) (body : Value) (valid : Bool) :
    Act Response := do
  owner authority
  match parts with
  | [_, part] =>
    refuse_if (part ≠ "parent" ∧ part ≠ "limits") 404 "not_found"
    refuse_if (!valid) 400 "configuration_field_not_editable"
    let editable ← look .configuration_editable
    refuse_if (!editable) 503 "configuration_editor_unavailable"
    match ← operate (.update_configuration part body) authority with
    | .ok shown =>
      return .ok (if part = "parent" then .of_fields [("parent", .of_fields [
          ("backend", .string shown.backend), ("model", .string shown.model),
          ("triage_model", .string shown.triage_model),
          ("reasoning_effort", .string shown.reasoning_effort)])]
        else .of_fields [("limits", shown.limits)])
    | .error .invalid => refuse 400 "invalid_configuration_values"
    | .error .refused => refuse 409 "configuration_update_refused_or_pending"
  | _ => refuse 404 "not_found"

def close_obligation (authority : Authority) (id : String) (body : Value) : Act Response := do
  owner authority
  match ((body.get "reason").bind Value.as_str).filter fun s => trim s ≠ "" ∧ s.length ≤ 4000 with
  | none => refuse 400 "invalid_reason"
  | some reason =>
    refuse_if ((fields_of body).length ≠ 1) 400 "unknown_body_field"
    match ← operate (.close_obligation id reason) authority with
    | .ok () => return .ok (.of_fields [("id", .string id), ("state", .string "owner_closed")])
    | .error _ => refuse 409 "obligation_close_refused"

def restore_archived (authority : Authority) (body : Value) : Act Response := do
  owner authority
  match ((body.get "thread").bind Value.as_str).filter fun s =>
      s.toList.count ':' = 2 ∧ s.utf8ByteSize ≤ 200 with
  | none => refuse 400 "invalid_thread"
  | some thread =>
    refuse_if ((fields_of body).length ≠ 1) 400 "unknown_body_field"
    match ← operate (.revive_thread thread) authority with
    | .ok true => return .ok (.of_fields [("thread", .string thread), ("restored", .bool true)])
    | .ok false => refuse 404 "not_archived"
    | .error _ => refuse 409 "restore_failed"

def backfill (authority : Authority) (now : Option ℚ) (body : Value) : Act Response := do
  owner authority
  match (backfill_body body).filter fun r => r.valid now with
  | none => refuse 400 "invalid_backfill_request"
  | some request =>
    match ← operate (.backfill request) authority with
    | .ok result => return .ok result
    | .error _ => refuse 409 "backfill_refused"

def queued (id : Int) (name thread : String) : Value :=
  .of_fields [("instruction_id", .int id), ("queued", .bool true), ("thread", .string name),
    ("id", .string thread)]

def instruct_channel (authority : Authority) (channel : String) (body : Value) : Act Response := do
  owner authority
  allow ["actor", "text", "client_id"] body
  match ← look (.latest_thread channel) with
  | .error _ => refuse 500 "storage_failed"
  | .ok (.error code) => refuse 404 code
  | .ok (.ok (name, thread)) =>
    match instruction_of body with
    | none => refuse 400 "invalid_instruction"
    | some (text, client_id) =>
      match ← operate (.instruct thread text client_id) authority with
      | .ok id => return .ok (queued id name thread)
      | .error e => throw (operation_error e)

def delegate (authority : Authority) (thread : String) (body : Value) : Act Response := do
  owner authority
  let request ← check (delegate_body body)
  return answer (← operate (.delegate thread request) authority)

def post (authority : Authority) (target : Target) (channel : Bool) (body : Value) :
    Act Response := do
  owner authority
  let request ← check (post_body body channel)
  return answer (← operate (.post target request) authority)

def set_driver (authority : Authority) (thread : String) (body : Value) : Act Response := do
  owner authority
  allow ["actor", "driver"] body
  match (body.field "driver").as_str.filter (· ∈ ["parent", "external"]) with
  | none => refuse 400 "invalid_driver"
  | some driver =>
    match ← operate (.set_thread_driver thread driver) authority with
    | .ok (some changed) =>
      return .ok (.of_fields [("driver", .string driver), ("changed", .bool changed)])
    | .ok none => refuse 404 "no_such_thread"
    | .error e => throw (operation_error e)

/-- Stops or interrupts a worker. -/
def control_worker (authority : Authority) (worker : String) (stop : Bool) : Act Response := do
  match ← operate (.worker_control worker stop) authority with
  | .ok value => return .ok (.of_fields [(if stop then "stopped" else "interrupted", value)])
  | .error e => throw (operation_error e)

def mode_of (body : Value) : Option Bool :=
  match given (fields_of body) "mode" with
  | none => some true
  | some mode =>
    if mode.as_str = some "stop" then some true
    else if mode.as_str = some "interrupt" then some false
    else none

def stop_thread_worker (authority : Authority) (thread worker : String) (body : Value) :
    Act Response := do
  owner authority
  allow ["actor", "mode"] body
  match mode_of body with
  | none => refuse 400 "invalid_mode"
  | some stop =>
    match ← look (.thread_worker thread worker) with
    | .ok true => control_worker authority worker stop
    | .ok false => refuse 404 "no_such_worker"
    | .error e => throw (operation_error e)

def thread_actions : List String :=
  ["pause", "resume", "retry", "close", "archive", "instruct", "notes", "restore", "clean"]

def action_fields (action : String) : List String :=
  if action = "instruct" then ["actor", "text", "client_id"]
  else if action = "notes" then ["actor", "data", "expected"]
  else if action = "pause" then ["actor", "reason"]
  else ["actor"]

def instruct_thread (authority : Authority) (id : String) (body : Value) : Act Response := do
  match instruction_of body with
  | none => refuse 400 "invalid_instruction"
  | some (text, client_id) =>
    let name ← look (.thread_name id)
    match ← operate (.instruct id text client_id) authority with
    | .ok instruction => return .ok (queued instruction (name.toOption.getD id) id)
    | .error e => throw (operation_error e)

def expected_of (body : Value) : Option (Option Nat) :=
  match given (fields_of body) "expected" with
  | none => some none
  | some v => (v.as_u64.filter (· < 2 ^ 63)).map some

def write_notes (authority : Authority) (id : String) (body : Value) : Act Response := do
  refuse_if (!(body.field "data").is_object) 400 "notes_must_be_an_object"
  match expected_of body with
  | none => refuse 400 "invalid_revision"
  | some expected =>
    match ← operate (.write_owner_notes id (fields_of (body.field "data")) expected) authority with
    | .ok revision => return .ok (.of_fields [("revision", .int revision)])
    | .error e => throw (operation_error e)

def reason_of (body : Value) : Option String :=
  (match body.get "reason" with
    | none => some "Paused by the owner."
    | some v => v.as_str).filter fun r => trim r ≠ "" ∧ r.length ≤ 4000

def control_of (action : String) (body : Value) : Option Control :=
  if action = "pause" then (reason_of body).map .pause
  else if action = "resume" then some .resume
  else if action = "retry" then some .retry
  else if action = "close" then some .close
  else if action = "archive" then some .archive
  else if action = "restore" then some .restore
  else some .clean

def thread_action (authority : Authority) (id action : String) (body : Value) : Act Response := do
  owner authority
  allow (action_fields action) body
  refuse_if (action ∉ thread_actions) 404 "unknown_thread_action"
  match ← look (.thread_exists id) with
  | .error _ => refuse 500 "storage_failed"
  | .ok false => refuse 404 "no_such_thread"
  | .ok true =>
    if action = "instruct" then return ← instruct_thread authority id body
    if action = "notes" then return ← write_notes authority id body
    match control_of action body with
    | none => refuse 400 "invalid_pause_reason"
    | some control =>
      match ← operate (.control id control) authority with
      | .ok () => return .ok (.of_fields [("session", .string id), ("action", .string action),
          ("queued", .bool true), ("applied", .bool true)])
      | .error e => throw (operation_error e)

def worker_operation (authority : Authority) (id op : String) (body : Value) : Act Response := do
  owner authority
  refuse_if (op ≠ "stop" ∧ op ≠ "interrupt") 404 "unknown_worker_operation"
  refuse_if (!only_actor body) 400 "unknown_body_field"
  match ← look (.worker_record id) with
  | .ok () => control_worker authority id (op = "stop")
  | .error e => throw (if e.not_found then .error 404 "no_such_worker" else operation_error e)

def decision_of (body : Value) : Option ApprovalDecision :=
  (body.field "decision").as_str.bind fun s =>
    if s = "once" then some .once
    else if s = "session" then some .session
    else if s = "deny" then some .deny
    else none

def decide_approval (authority : Authority) (id : String) (body : Value) : Act Response := do
  owner authority
  allow ["actor", "decision"] body
  match decision_of body with
  | none => refuse 400 "invalid_approval_decision"
  | some decision =>
    match ← look (.approval_exists id) with
    | .error _ => refuse 500 "storage_failed"
    | .ok false => refuse 404 "no_such_approval"
    | .ok true =>
      match ← operate (.decide id decision) authority with
      | .ok true => return .ok (.of_fields [("decided", body.field "decision")])
      | .ok false => refuse 409 "approval_already_settled"
      | .error e => throw (operation_error e)

def retry_post (authority : Authority) (id : String) (body : Value) : Act Response := do
  owner authority
  refuse_if (!only_actor body) 400 "unknown_body_field"
  match parse_i64 id with
  | none => refuse 400 "invalid_outbox_id"
  | some id =>
    match ← operate (.retry_post id) authority with
    | .ok true => return .ok (.of_fields [("requeued", .bool true)])
    | .ok false => refuse 409 "post_not_retryable"
    | .error e => throw (operation_error e)

/-! ## Routes -/

def change (authority : Authority) (now : Option ℚ) (parts : List String) (body : Value) :
    Act Response :=
  match parts with
  | ["obligations", id, "close"] => close_obligation authority id body
  | ["archive", "restore"] => restore_archived authority body
  | ["obligations", "backfill"] => backfill authority now body
  | ["channels", channel, "instruct"] => instruct_channel authority channel body
  | ["threads", id, "delegate"] => delegate authority id body
  | ["threads", id, "post"] => post authority (.thread id) false body
  | ["channels", channel, "post"] => post authority (.channel channel) true body
  | ["threads", id, "driver"] => set_driver authority id body
  | ["threads", id, "workers", worker, "stop"] => stop_thread_worker authority id worker body
  | ["threads", id, action] => thread_action authority id action body
  | ["workers", id, op] => worker_operation authority id op body
  | ["approvals", id] => decide_approval authority id body
  | ["outbox", id, "retry"] => retry_post authority id body
  | _ => refuse 404 "not_found"

def route (o : Outside) (request : Request) (authority : Authority) (parts : List String)
    (query : List (String × String)) : Act Response := do
  let now ← clock
  if request.method = "GET" then return ← get o authority request parts query
  refuse_if (authority = .desktop_read_only) 403 "read_only_capability"
  refuse_if (!request.body.is_object ∨ !query.isEmpty) 400 "invalid_body_or_query"
  if request.method = "PATCH" ∧ parts.head? = some "config" then
    return ← patch authority parts request.body
      ((parts[1]?).any fun part => o.valid_patch part request.body)
  refuse_if (request.method ≠ "POST") 405 "method_not_allowed"
  change authority now parts request.body

def text (b : Target.Text) : String := String.ofList (b.map fun c => Char.ofNat c.toNat)

/-- The parts of the path and the fields of the query, which are ASCII. -/
def target (o : Outside) (t : Target.Text) :
    Option (List String × List (String × String)) :=
  (Target.target o.query_pairs t).map fun (parts, query) =>
    (parts.map text, query.map fun (k, v) => (text k, text v))

/-- Owners may name a thread `#channel:TS`. -/
def named_thread (parts : List String) : Option String :=
  match parts with
  | "threads" :: id :: _ => if id.toList.count ':' = 1 then some id else none
  | _ => none

def resolved (parts : List String) : Act (List String) :=
  match named_thread parts with
  | none => pure parts
  | some reference => do
    match ← look (.resolve reference) with
    | .ok (some id) => return parts.set 1 id
    | .ok none => refuse 404 "unknown_thread"
    | .error _ => refuse 500 "view_unavailable"

def conclude (call : Int) (response : Response) : Act Response := do
  let now ← clock
  match ← ask (Query.control_response call now response) with
  | .ok () => return response
  | .error _ => refuse 500 "control_outcome_unrecorded"

/-- A request is recorded before it is routed and with its response. -/
def record (o : Outside) (request : Request) (authority : Authority) (parts : List String)
    (query : List (String × String)) (now : ℚ) : Act Response := do
  match ← ask (Query.control_request now request authority) with
  | .error _ => refuse 500 "control_recording_failed"
  | .ok call =>
    match ← attempt (route o request authority parts query) with
    | .ok response | .error response => conclude call response

def handle (o : Outside) (request : Request) (authority : Authority) : Act Response := do
  refuse_if (authority ≠ .owner ∧ authority ≠ .desktop_read_only) 403 "forbidden"
  match target o request.target with
  | none => refuse 400 "invalid_target"
  | some (parts, query) =>
    let parts ← resolved parts
    match ← clock with
    | none => refuse 500 "invalid_control_clock"
    | some now => record o request authority parts query now

end Fridica.Control.Api
