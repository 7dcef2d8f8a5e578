import Fridica.Lib.Lines
import Fridica.Threads.Validate.Spec

/-!
# The fast path of a report

`direct` of `threads/results.rs`: the report of a single finished job is posted as it is, without
the parent. The decision is decoded from `{"reply":{..}}` with the defaults of the schema, and never
goes through `validate`.
-/

open Fridica.Text

namespace Fridica.Threads.Direct

/-- An obligation, with what only the fast path reads of it. -/
structure Asked extends Obligation where
  kind : Option String
  /-- `source.event_id` -/
  event_id : Option String
deriving DecidableEq

/-- The request of a worker-result turn. -/
structure ResultRequest extends ParentRequest where
  asked : List Asked
  obligations_eq : obligations = asked.map Asked.toObligation
  /-- `results[0].result.report` -/
  report : Option String

namespace ResultRequest

variable (request : ResultRequest)

def group_size : Option Nat := request.trigger.snapshot.bind Snapshot.group_size

/-- `results[0]` -/
def result : Option ResultRow := request.trigger.snapshot.bind fun s => s.results.head?

/-- `origin.event_id` -/
def event : Option String := request.trigger.snapshot.bind fun s => s.origin.event_id

/-- The ids of the mentions by which the original message asked. -/
def answers : List (Option String) :=
  (request.asked.filter fun o =>
    o.kind = some "mention" ∧ (o.state = some "open" ∨ o.state = some "deferred") ∧
      request.event.isSome ∧ o.event_id = request.event).map fun o => o.id

end ResultRequest

/-- A line that starts with a sign-off is the parent's own verdict. -/
def signs_off (report : String) : Bool :=
  (Lines.lines report.toList).any fun line =>
    "SIGN-OFF".toList.isPrefixOf ((line.dropWhile whitespace).map Char.toUpper)

def ATTACHED : String := "\n\nFull report attached."

/-- The text and the details that a report becomes. -/
def split (report : String) (limit : Nat) : String × String :=
  if report.length > limit then
    (String.ofList (report.toList.take (limit - 40)) ++ ATTACHED, report)
  else (report, "")

/-- A decision with a reply and nothing else. -/
def alone (reply : Reply) : Decision := { Decision.empty with reply := some reply }

def direct (request : ResultRequest) (enabled : Bool) (limit : Nat) :
    Except String (Option Decision) :=
  if !enabled ∨ request.session.status = some "blocked" ∨ request.group_size ≠ some 1 then .ok none
  else if request.result.bind ResultRow.job_status ≠ some "done" ∨
      request.result.bind ResultRow.result_status ≠ some "done" then .ok none
  else
    match request.report.filter fun r => trim r ≠ "" with
    | none => .ok none
    | some report =>
      if signs_off report then .ok none
      else
        match request.answers.mapM id with
        | none => .error "invalid type: null, expected a string"
        | some answers =>
          let (text, details) := split report limit
          .ok (some (alone ⟨text, details, .complete, answers, .ongoing, true⟩))

/-! ## The claim on the fast path -/

/-- A line of it starts with a sign-off in any letter case, after blanks. -/
def SignedOff (report : String) : Prop :=
  ∃ line ∈ Lines.lines report.toList, ∃ blanks word rest, line = blanks ++ word ++ rest ∧
    (∀ c ∈ blanks, whitespace c) ∧ word.map Char.toUpper = "SIGN-OFF".toList

/-- A decision of the fast path stays inside what `validate` enforces. -/
structure Stays (whitespace : Char → Bool) (request : ResultRequest) (limit : Nat) (d : Decision) :
    Prop where
  /-- `validate` takes it at any time, with the same status and answers and nothing besides. -/
  accepted : ∀ now, ∃ r r', d = alone r ∧
    validate whitespace (some d) request.toParentRequest now = .ok (alone r') ∧
      r'.status = r.status ∧ r'.answers = r.answers
  short : ∀ r, d.reply = some r → r.text.length ≤ limit
  /-- The reply is the report, or its beginning with the report attached. -/
  whole : ∀ r, d.reply = some r → request.report = some r.text ∧ r.details = "" ∨
    request.report = some r.details ∧
      ∃ front, front.toList <+: r.details.toList ∧ r.text = front ++ ATTACHED
  unsigned : ∀ report, request.report = some report → ¬ SignedOff report

/-- The bounds of `validate`, on a report. -/
def Fits (whitespace : Char → Bool) (limit : Nat) (report : String) : Prop :=
  if report.length > limit then (trim_matches whitespace report).length ≤ 40000
  else ∃ c ∈ report.toList, whitespace c = false

end Fridica.Threads.Direct
