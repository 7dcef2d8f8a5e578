import Fridica.Control.Server.Spec

/-!
# The owner's commands

The request that each command of `control/cli.rs` sends, as `Client::request` of
`control/client.rs` puts it on the socket, and what it is to change.
-/

open Fridica.Json (Value)
open Fridica.Approvals (ApprovalDecision)
open Fridica.Threads.Controls (Control)

namespace Fridica.Control.Commands

open Fridica.Control.Api (Operation BackfillRequest)

/-! ## Commands -/

inductive ThreadAction
  | pause
  | resume
  | retry
  | close
  | archive
  | restore
  | clean
  | driver
deriving DecidableEq

def ThreadAction.as_str : ThreadAction → String
  | .pause => "pause"
  | .resume => "resume"
  | .retry => "retry"
  | .close => "close"
  | .archive => "archive"
  | .restore => "restore"
  | .clean => "clean"
  | .driver => "driver"

inductive Driver
  | external
  | parent
deriving DecidableEq

def Driver.as_str : Driver → String
  | .external => "external"
  | .parent => "parent"

inductive WorkerAction
  | interrupt
  | stop
deriving DecidableEq

def WorkerAction.as_str : WorkerAction → String
  | .interrupt => "interrupt"
  | .stop => "stop"

def decision_str : ApprovalDecision → String
  | .once => "once"
  | .session => "session"
  | .deny => "deny"

/-- What is typed, as the argument parser lets it through. -/
inductive Command
  | status
  | machines
  | threads (id : Option Target.Text) (action : Option ThreadAction) (driver : Option Driver)
  | workers (id : Option Target.Text) (action : Option WorkerAction)
  | approvals (id : Option Target.Text) (decision : Option ApprovalDecision)
  | outbox (id : Option Int)
  | close (id : Target.Text) (reason : Option String)
  | backfill (since until_ : Option ℚ) (apply : Bool) (client_id : Option String)
  | obligations
  | files_list (thread : Target.Text)
  | files_get (id : Target.Text)
  | archive_restore (thread : String)
  | events (since : Option Int) (limit : Nat)
  /-- With the key that was typed or made up. -/
  | instruct (target : Target.Text) (text client_id : String)

structure Sent where
  method : String
  target : Target.Text
  body : Option Value

/-! ## Requests -/

def bytes : String → Target.Text := Target.bytes

def path (parts : List Target.Text) : Target.Text := Target.render parts

def checked (id : Option Target.Text) : Except String Target.Text :=
  id.elim (.error "invalid control identifier") .ok

def thread (value : Target.Text) : Except String Target.Text := checked (Target.thread value)

def segment (value : Target.Text) : Except String Target.Text := checked (Target.segment value)

def get (target : Target.Text) : Sent := ⟨"GET", target, none⟩

def post (parts : List Target.Text) (fields : List (String × Value)) : Sent :=
  ⟨"POST", path parts, some (.of_fields fields)⟩

def threads (id : Option Target.Text) (action : Option ThreadAction) (driver : Option Driver) :
    Except String Sent :=
  match id, action with
  | some id, some .driver => do
    let id ← thread id
    let driver ← driver.elim (.error "driver needs external or parent") .ok
    return post [bytes "threads", id, bytes "driver"] [("driver", .string driver.as_str)]
  | some id, some action => do
    if driver.isSome then .error "only the driver action takes a value"
    return post [bytes "threads", ← thread id, bytes action.as_str] []
  | some id, none => return get (path [bytes "threads", ← thread id])
  | none, none => return get (bytes "/threads")
  | none, some _ => .error "thread action requires an identifier"

def request : Command → Except String Sent
  | .status => return get (bytes "/status")
  | .machines => return get (bytes "/machines")
  | .threads id action driver => threads id action driver
  | .workers (some id) (some action) =>
    return post [bytes "workers", ← segment id, bytes action.as_str] []
  | .workers _ none => return get (bytes "/workers")
  | .workers none (some _) => .error "worker action requires an identifier"
  | .approvals (some id) (some decision) =>
    return post [bytes "approvals", ← segment id] [("decision", .string (decision_str decision))]
  | .approvals _ none => return get (bytes "/approvals")
  | .approvals none (some _) => .error "approval decision requires an identifier"
  | .outbox (some id) =>
    if 0 < id then return post [bytes "outbox", bytes (toString id), bytes "retry"] []
    else .error "invalid outbox identifier"
  | .outbox none => return get (bytes "/outbox")
  | .close id reason =>
    return post [bytes "obligations", ← segment id, bytes "close"]
      [("reason", .string (reason.getD ""))]
  | .backfill (some since) (some until_) apply client_id => do
    if since < 0 ∨ until_ ≤ since then .error "invalid backfill time range"
    let fields := [("since", .number (.float since)), ("until", .number (.float until_)),
      ("apply", .bool apply), ("client_id", .string (client_id.getD ""))]
    return post [bytes "obligations", bytes "backfill"] fields
  | .backfill _ _ _ _ => .error "backfill requires --since and --until"
  | .obligations => return get (bytes "/obligations")
  | .files_list id => return get (bytes "/files?thread=" ++ (← thread id))
  | .files_get id => return get (path [bytes "files", ← segment id])
  | .archive_restore thread =>
    return post [bytes "archive", bytes "restore"] [("thread", .string thread)]
  | .events (some after) limit =>
    return get (bytes ("/events?after=" ++ toString after ++ "&limit=" ++ toString limit))
  | .events none _ => return get (bytes "/events")
  | .instruct target text client_id => do
    -- Threads contain a colon, channel names never do.
    let target ← thread target
    let kind := if target.contains (Target.byte ':') then "threads" else "channels"
    return post [bytes kind, target, bytes "instruct"]
      [("text", .string text), ("client_id", .string client_id)]

/-! ## The client -/

/-- The request on the socket, which may come when the daemon is `busy`. -/
def client (f : Server.Formats) (o : Api.Outside) (token : Option String) (busy : Bool)
    (sent : Sent) : Option Server.HttpRequest := do
  guard ((Api.target o sent.target).isSome ∧ sent.method ∈ ["GET", "POST", "PATCH"])
  guard (sent.body.all fun body =>
    body.is_object ∧ (f.encode body).length ≤ Server.BODY_LIMIT)
  return {
    absolute := false
    origin := false
    authorization := token.toList.map fun token => some ("Bearer " ++ token)
    method := sent.method
    target := sent.target
    body := .complete (sent.body.elim [] f.encode)
    busy }

/-! ## What a command is to change -/

def ThreadAction.control : ThreadAction → Option Control
  | .pause => some (.pause "Paused by the owner.")
  | .resume => some .resume
  | .retry => some .retry
  | .close => some .close
  | .archive => some .archive
  | .restore => some .restore
  | .clean => some .clean
  | .driver => none

/-- What is typed without the `#` before it. -/
def typed (value : Target.Text) : String := Api.text (value.dropWhile (· = Target.byte '#'))

end Fridica.Control.Commands
