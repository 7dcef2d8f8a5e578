import Fridica.External.Spec
import Fridica.Lib.Json

/-!
# The metadata of Fridica's messages

`metadata` of `slack/web.rs` writes it into a post, and `parse_metadata` of `slack/ingress.rs` reads
it from one.
-/

namespace Fridica.Slack

open Fridica.Json

/-- A string, or its default. -/
def string_or (default : String) (v : Value) : Value := .string (v.as_str.getD default)

def number_or (default : Nat) (v : Value) : Value := .number (.unsigned (v.as_u64.getD default))

/-- Fridica's message metadata, so its own posts are recognized on intake. -/
def metadata (meta_ : Value) : Value :=
  .of_fields [("event_type", .string "fridica_message"), ("event_payload", .of_fields [
    ("v", number_or 2 (meta_.field "v")), ("owner", string_or "" (meta_.field "owner")),
    ("session", string_or "" (meta_.field "session")),
    ("task_id", string_or "" (meta_.field "session")),
    ("turn", number_or 0 (meta_.field "turn")), ("status", string_or "" (meta_.field "status")),
    ("kind", string_or "reply" (meta_.field "kind")),
    ("worker", string_or "" (meta_.field "worker"))])]

def text (value : Value) (key : String) (limit : Nat) : String :=
  String.ofList (((value.field key).as_str.getD "").toList.take limit)

def known_status (s : String) : Bool := s = "complete" ∨ s = "waiting" ∨ s = "blocked"

/-- The fields of the metadata, as they are read from a payload. -/
def read_meta (data : Value) : External.Meta where
  owner := text data "owner" 32
  session :=
    let session := text data "session" 128
    if session = "" then text data "task_id" 128 else session
  turn := min ((data.field "turn").as_u64.getD 0) 10000
  status := ((data.field "status").as_str.filter known_status).getD ""
  kind :=
    let kind := text data "kind" 32
    if kind = "" then "reply" else kind
  worker := text data "worker" 64
  v := if (data.field "v").as_u64 = some 2 then 2 else 1

/-- The metadata as JSON. -/
def meta_value (m : External.Meta) : Value :=
  .of_fields [("owner", .string m.owner), ("session", .string m.session), ("turn", .int m.turn),
    ("status", .string m.status), ("kind", .string m.kind), ("worker", .string m.worker),
    ("v", .number (.unsigned m.v))]

def parse_metadata (value : Value) : Option Value :=
  if (value.field "event_type").as_str ≠ some "fridica_message" then none
  else some (meta_value (read_meta (value.field "event_payload")))

/-- The bounds of the wire. -/
structure Within (m : External.Meta) : Prop where
  owner : m.owner.toList.length ≤ 32
  session : m.session ≠ "" ∧ m.session.toList.length ≤ 128
  turn : 0 ≤ m.turn ∧ m.turn ≤ 10000
  status : known_status m.status = true ∨ m.status = ""
  kind : m.kind ≠ "" ∧ m.kind.toList.length ≤ 32
  worker : m.worker.toList.length ≤ 64
  version : m.v = 1 ∨ m.v = 2

end Fridica.Slack
