import Fridica.Control.Api.Spec

/-!
# The control socket

`serve` and the capabilities of `control/server.rs`, with `http`, before and after the control API.
-/

open Fridica.Ask
open Fridica.Json (Value)
open Fridica.Threads.Controls (Authority)

namespace Fridica.Control.Server

open Fridica.Control.Api

def BODY_LIMIT : Nat := 64 * 1024

def RESPONSE_LIMIT : Nat := 4 * 1024 * 1024

inductive Body
  | complete (bytes : Utf8.Bytes)
  | incomplete
  | timeout

structure HttpRequest where
  /-- The request line names a scheme or a host. -/
  absolute : Bool
  /-- There is an `Origin`. -/
  origin : Bool
  /-- The `Authorization` headers, as far as they are text. -/
  authorization : List (Option String)
  method : String
  target : Target.Text
  body : Body
  /-- All permits for operations are taken. -/
  busy : Bool

structure Capability where
  secret : String
  authority : Authority

inductive Access
  | owner_peer
  | capabilities (values : List (String × Authority))

/-- The formats of the libraries. -/
structure Formats where
  parse : Utf8.Bytes → Option Value
  encode : Value → Utf8.Bytes
  digest : String → String

variable (f : Formats)

/-- Of capabilities with one digest the last counts. -/
def capabilities (values : List Capability) : Option Access :=
  if values.isEmpty then none
  else some (.capabilities (values.map fun c => (f.digest c.secret, c.authority)))

def strip_prefix (start s : String) : Option String :=
  if start.toList.isPrefixOf s.toList then some (String.ofList (s.toList.drop start.length))
  else none

def is_ascii_hexdigit (c : Char) : Bool :=
  c.isDigit || ('a' ≤ c && c ≤ 'f') || ('A' ≤ c && c ≤ 'F')

def token_ok (token : String) : Bool :=
  token.utf8ByteSize = 64 && token.toList.all is_ascii_hexdigit

/-- The secret of a bearer. -/
def bearer (header : Option String) : Option String :=
  (header.bind fun value => strip_prefix "Bearer " value).filter token_ok

def Access.authority (access : Access) (headers : List (Option String)) : Option Authority :=
  if headers.length > 1 then none
  else match access with
    | .owner_peer => if headers.isEmpty then some .owner else none
    | .capabilities values => do
      let token ← bearer (← headers.head?)
      values.reverse.lookup (f.digest token)

def body_of (body : Body) : Except Response Value :=
  match body with
  | .incomplete => .error (.error 413 "body_too_large_or_incomplete")
  | .timeout => .error (.error 408 "body_timeout")
  | .complete bytes =>
    if bytes.length > BODY_LIMIT then .error (.error 413 "body_too_large_or_incomplete")
    else if bytes.isEmpty then .ok (.object [])
    else match (f.parse bytes).filter Value.is_object with
      | some body => .ok body
      | none => .error (.error 400 "body_must_be_a_json_object")

def serve (o : Outside) (access : Access) (r : HttpRequest) : Act Response := do
  refuse_if (r.absolute ∨ r.origin) 400 "invalid_origin"
  match access.authority f r.authorization with
  | none => refuse 401 "authentication_required"
  | some authority =>
    refuse_if (authority = .desktop_read_only ∧ r.method ≠ "GET") 403 "read_only_capability"
    refuse_if (target o r.target).isNone 400 "invalid_target"
    match body_of f r.body with
    | .error response => throw response
    | .ok body =>
      refuse_if r.busy 503 "control_busy"
      handle o ⟨r.method, r.target, body⟩ authority

/-- The status and the bytes that are sent. -/
def http (response : Response) : Nat × Utf8.Bytes :=
  let bytes := f.encode response.body
  if bytes.length > RESPONSE_LIMIT then
    (413, f.encode (.object [("error", .string "response_too_large")]))
  else (response.status, bytes)

end Fridica.Control.Server
