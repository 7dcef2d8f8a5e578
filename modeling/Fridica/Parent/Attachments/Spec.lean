import Fridica.Lib.Act
import Fridica.Slack.Files.Spec

/-!
# What a parent call is given

`prepare` of `parent/attachments.rs`: attachments and linked messages are read once for a turn, and
a repair of its answer is given the snapshot that was recorded then. The downloads, the readers, the
clock and the store are outside; of the store, the results recorded under a key are modelled.
-/

namespace Fridica.Parent.Attachments

open Fridica.Effect Fridica.Json Fridica.Slack

structure Config where
  github_enabled : Bool
  cache_seconds : Number
  workspace : String
  channels : List String
  owner : String

structure ParentRequest where
  call : String
  session : Value
  inbox_id : Int
  trigger : Value
  history : List Value
  previous : Option Value
  errors : List String
  linked : List Value
  github_state : List Value

/-- What the reader of GitHub links brings. -/
inductive GithubData
  | complete (data : List Value)
  | recording
  | unavailable
  | timeout

/-- What is called, on a state `σ` of all that is outside, with the texts of values and the digests
of texts. `none` is a failed transaction. -/
structure Outside (σ Text Key : Type) where
  sha256 : Text → Key
  to_string : Value → Text
  from_str : Text → Option Value
  files : Files.Outside
  /-- The time, when it is finite. -/
  now : σ → Option ℚ × σ
  own_uploads : String → String → List (String × String) → σ → Option (List String) × σ
  record_call : ℚ → Key → Value → List String → σ → Option Int × σ
  download : σ → (Nat → Files.Answer) × σ
  links : List String → String → String → List Value → σ → Option (List Value) × σ
  github : List String → σ → GithubData × σ
  record_result : Option ℚ → Int → Key → Value → σ → Option Unit × σ

inductive Read
  | files (calls : List (Files.Chosen × List Files.Call))
  | links
  | github (texts : List String)

structure World (σ Text Key : Type) where
  outside : σ
  /-- The recorded contexts with their keys, the latest first. -/
  results : List (Key × Text)
  /-- What was read outside. -/
  reads : List Read

inductive Failure
  | failed (code : String)
  | panicked
deriving DecidableEq

structure WithAttachments where
  config : Config
  links : Bool
  github : Bool

/-! ## Messages -/

def strip : Value → Value
  | .object fields => .object (fields.filter fun kv => kv.1 ≠ "attachments")
  | value => value

/-- `get_mut("message")` -/
def at_message (f : Value → Value) : Value → Value
  | .object fields =>
    .object (fields.map fun kv => if kv.1 = "message" then (kv.1, f kv.2) else kv)
  | value => value

/-- `target[key] = value`, which panics when the target is neither an object nor null. -/
def put (key : String) (value : Value) : Value → Option Value
  | .null => some (.object [(key, value)])
  | .object fields => some (.object (Value.insert key value fields))
  | _ => none

def shown (attached : List Files.View) : Value := .array (attached.map .object)

/-- `trigger["message"]["attachments"] = json!(attached)`, when there are views for it. -/
def attach_trigger (attached : Option (List Files.View)) (trigger : Value) : Option Value :=
  match attached with
  | some attached =>
    (put "attachments" (shown attached) (trigger.field "message")).bind (put "message" · trigger)
  | none => some trigger

def attach_history (views : Files.Views) (message : Value) : Option Value :=
  let message := strip message
  match (message.field "event_id").as_str.bind (List.lookup · views) with
  | some attached => put "attachments" (shown attached) message
  | none => some message

/-- The trigger and the history, each message with its views. -/
def attach (views : Files.Views) (trigger : Value) (history : List Value) :
    Option (Value × List Value) := do
  let trigger_id := ((trigger.field "message").field "event_id").as_str.getD ""
  let trigger ← attach_trigger (views.lookup trigger_id) (at_message strip trigger)
  let history ← history.mapM (attach_history (views.filter fun e => e.1 ≠ trigger_id))
  return (trigger, history)

/-! ## The key -/

variable {σ Text Key : Type} (out : Outside σ Text Key) (p : WithAttachments)

def ParentRequest.message_call (request : ParentRequest) : Bool :=
  (request.trigger.field "kind").as_str = some "message"

def WithAttachments.github_enabled : Bool := p.config.github_enabled && p.github

/-- The trigger first, then the history, the newest first. -/
def ParentRequest.messages (request : ParentRequest) : List Value :=
  (if request.message_call then request.trigger.field "message"
    else Value.of_fields [("text", request.trigger.field "text")]) :: request.history.reverse

def input (request : ParentRequest) : Value :=
  Value.of_fields [
    ("session", request.session.field "id"),
    ("version", request.session.field "version"),
    ("inbox", .int request.inbox_id),
    ("messages", .array request.messages),
    ("links", .bool p.links),
    ("context_version", .int 3),
    ("github", .bool p.github_enabled),
    ("github_cache_seconds", .number p.config.cache_seconds),
    ("scope", Value.of_fields [
      ("workspace", .string p.config.workspace),
      ("channels", .array (p.config.channels.map .string)),
      ("owner", .string p.config.owner)])]

def key (request : ParentRequest) : Key := out.sha256 (out.to_string (input p request))

def in_scope (session : Value) : Bool :=
  (session.field "workspace").as_str = some p.config.workspace &&
    (session.field "channel").as_str.any fun c => p.config.channels.contains c

/-! ## A new context -/

abbrev Prepare (σ Text Key α : Type) := Act (World σ Text Key) Failure α

def call {α : Type} (f : σ → α × σ) (read : α → List Read) : Prepare σ Text Key α := do
  let w ← get
  let r := f w.outside
  set { w with outside := r.2, reads := w.reads ++ read r.1 }
  return r.1

def recorded {α : Type} : Option α → Prepare σ Text Key α
  | some a => return a
  | none => throw (.failed "parent_context_recording_failed")

/-- The files of the owner in the messages. -/
def candidates (messages : List Value) : List (String × String) :=
  let own := messages.filter fun m => (m.field "sender").as_str = some p.config.owner
  let attached := own.flatMap fun m => (m.field "attachments").as_array.getD []
  attached.filterMap fun a => do
    return (← (a.field "id").as_str, ← (a.field "name").as_str)

def read_files (request : ParentRequest) (own : List String) :
    Prepare σ Text Key (Except Files.Failure Files.Views) :=
  if request.message_call then do
    let answers ← call out.download fun answers =>
      [.files (Files.read out.files own answers request.messages).reads]
    return (Files.read out.files own answers request.messages).result
  else return .ok []

def read_links (request : ParentRequest) : Prepare σ Text Key (Option (List Value)) :=
  if p.links ∧ request.message_call then
    call (out.links p.config.channels ((request.session.field "channel").as_str.getD "")
      ((request.session.field "root_ts").as_str.getD "") request.messages) fun _ => [.links]
  else return some []

def read_github (request : ParentRequest) : Prepare σ Text Key (Option (List Value × String)) :=
  if p.github_enabled then do
    let texts := request.messages.filterMap fun m => (m.field "text").as_str
    match ← call (out.github texts) fun _ => [.github texts] with
    | .complete data => return some (data, "complete")
    | .recording => return none
    | .unavailable => return some ([], "unavailable")
    | .timeout => return some ([], "timeout")
  else return some ([], "disabled")

def render (trigger : Value) (history linked github_state : List Value) (status : String) : Value :=
  Value.of_fields [
    ("trigger", trigger),
    ("history", .array history),
    ("linked", .array linked),
    ("github_state", .array github_state),
    ("github_status", .string status)]

/-- The context goes into the store as the latest one under its key. -/
def record (request : ParentRequest) (id : Int) (context : Value) : Prepare σ Text Key Unit := do
  let t ← call out.now fun _ => []
  let done ← call (out.record_result t id (key out p request) context) fun _ => []
  recorded done
  modify fun w =>
    { w with results := (key out p request, out.to_string context) :: w.results }

def read_context (request : ParentRequest) : Prepare σ Text Key Value := do
  let some t ← call out.now fun _ => [] | throw (.failed "parent_context_time")
  let own ← call (out.own_uploads ((request.session.field "channel").as_str.getD "")
    ((request.session.field "root_ts").as_str.getD "") (candidates p request.messages)) fun _ => []
  let own ← recorded own
  let id ← call (out.record_call t (key out p request) (input p request) own) fun _ => []
  let id ← recorded id
  -- All three are read before any of their failures is looked at.
  let views ← read_files out request own
  let linked ← read_links out p request
  let github ← read_github out p request
  let views ← recorded views.toOption
  let linked ← recorded linked
  let github ← recorded github
  let some attached := attach views request.trigger request.history | throw .panicked
  let context := render attached.1 attached.2 linked github.1 github.2
  record out p request id context
  return context

/-! ## The request -/

variable [DecidableEq Key]

/-- The context that was recorded for the turn. -/
def snapshot (request : ParentRequest) : Prepare σ Text Key Value := do
  let w ← get
  match w.results.lookup (key out p request) with
  | none => throw (.failed "parent_context_snapshot_missing")
  | some raw =>
    match out.from_str raw with
    | none => throw (.failed "parent_context_snapshot_invalid")
    | some context => return context

/-- The request with what the context says. -/
def with_context (request : ParentRequest) (context : Value) : Option ParentRequest := do
  let history ← (context.field "history").as_array
  let linked ← (context.field "linked").as_array
  let github_state ← (context.field "github_state").as_array
  return { request with trigger := context.field "trigger", history, linked, github_state }

/-- Triage reads nothing outside, nor does a turn without a message when GitHub is off. -/
def passes (request : ParentRequest) : Bool :=
  !(request.call = "decide" || request.call = "repair") ||
    (!request.message_call && !p.github_enabled)

def ParentRequest.cleared (request : ParentRequest) : ParentRequest :=
  { request with linked := [], github_state := [] }

def context (request : ParentRequest) : Prepare σ Text Key Value :=
  if request.call = "repair" then snapshot out p request else read_context out p request

def prepare (request : ParentRequest) : Prepare σ Text Key ParentRequest := do
  let request := request.cleared
  if passes p request then
    return { request with
      trigger := at_message strip request.trigger, history := request.history.map strip }
  else if !in_scope p request.session then throw (.failed "parent_context_scope")
  else
    match with_context request (← context out p request) with
    | some request => return request
    | none => throw (.failed "parent_context_snapshot_invalid")

end Fridica.Parent.Attachments
