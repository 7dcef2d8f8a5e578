import Fridica.Lib.Checked
import Fridica.Lib.Text
import Fridica.Threads.Request

/-!
# The checks on a parent's decision

`validate` of `threads/actor.rs` with the bounds of `threads/effects.rs`. A decision that fails is
repaired or replaced, so what these checks refuse never reaches a commit. Times come from JSON,
which has no infinite numbers.
-/

open Fridica.Checked Fridica.Text

namespace Fridica.Threads

/-! ## Bounds -/

def bounded (limit : Nat) (value : String) : Except String String := do
  let value := trim value
  refuse (value.length > limit) s!"parent memory field exceeds {limit} characters"
  return value

def validate_effects (d : Decision) : Except String Decision := do
  let summary ← bounded 2000 d.summary
  let machine ← bounded 64 d.context.machine
  let workspace ← bounded 64 d.context.workspace
  let repo ← bounded 200 d.context.repo
  let branch ← bounded 200 d.context.branch
  let note_repo ← bounded 1000 d.note.repo
  let assignee ← bounded 1000 d.note.assignee
  let next_step ← bounded 1000 d.note.next_step
  let blocker ← bounded 1000 d.note.blocker
  refuse (d.decisions.length > 20) "at most 20 new decisions per turn"
  let decisions ← d.decisions.mapM (bounded 500)
  return { d with
    summary
    context := ⟨machine, workspace, repo, branch⟩
    note := ⟨note_repo, assignee, next_step, blocker, d.note.kind⟩
    decisions := decisions.filter (· ≠ "") }

/-! ## The reply -/

/-- `render` trims with a class of its own. -/
def normalize (whitespace : Char → Bool) (reply : Reply) : Reply :=
  let text := trim_matches whitespace reply.text
  let details := trim_matches whitespace reply.details
  { reply with
    text
    details
    discussion := if reply.status ≠ .complete then .ongoing else reply.discussion
    send := if text = "" ∧ details = "" then false else reply.send }

/-- An unsent reply is dropped, and may answer nothing. -/
def drop_unsent (reply : Option Reply) : Except String (Option Reply) :=
  match reply with
  | some r =>
    if r.send then return some r
    else do
      refuse (r.answers ≠ []) "an unsent reply cannot answer obligations"
      return none
  | none => return none

/-- Whether a valid decision ends the owner-review hold. -/
def hold_clears (request : ParentRequest) (d : Decision) : Bool :=
  request.session.parent_review_required && !d.reply.any fun r => r.status = .blocked

def reopen (request : ParentRequest) (d : Decision) : Decision :=
  if hold_clears request d ∧ request.session.status = some "blocked" then
    { d with reopen_blocked := true }
  else d

/-! ## Obligations -/

/-- The obligations that a decision may address. -/
def known_obligations (request : ParentRequest) : List String :=
  (request.obligations.filter fun o =>
    o.state = some "open" ∨ o.state = some "deferred" ∨
      (o.state = some "awaiting_delivery" ∧
        o.deliveries.any fun d => !d.isEmpty && d.all fun p => p = some "failed")).filterMap
    Obligation.id

/-- One more obligation is addressed, at most once each. -/
def address (known : List String) (error : String) (addressed : List String) (id : String) :
    Except String (List String) := do
  refuse (id ∉ known ∨ id ∈ addressed) error
  return id :: addressed

def validate_reply (request : ParentRequest) (d : Decision) (known : List String) :
    Except String (List String) :=
  match d.reply with
  | none => return []
  | some reply => do
    let blocked := request.session.status = some "blocked"
    refuse (blocked ∧ !d.reopen_blocked ∧ reply.status ≠ .blocked)
      "reopening a blocked discussion requires an explicit decision"
    refuse (reply.text.length > 40000 ∨ reply.details.length > 40000)
      "reply or details exceed configured bounds"
    refuse ((reply.status = .blocked ∨ (blocked ∧ !d.reopen_blocked)) ∧ reply.answers ≠ [])
      "blocked notices do not satisfy obligations"
    reply.answers.foldlM (address known "unknown or duplicate answer obligation") []

def validate_disposition (known : List String) (now : ℚ) (addressed : List String)
    (disposition : Disposition) : Except String (List String) := do
  let addressed ←
    address known "unknown or duplicate obligation disposition" addressed disposition.id
  match disposition with
  | .declined _ reason => refuse (trim reason = "") "disposition needs a visible reason"
  | .deferred _ reason limit =>
    if trim reason = "" then throw "disposition needs a visible reason"
    refuse (limit ≤ now) "deferral must be in the future"
  return addressed

def validate_ask (now : ℚ) (ask : Ask) : Except String Unit :=
  refuse (trim ask.summary = "" ∨ ask.due < now) "invalid extracted ask"

/-! ## Hand-offs -/

/-- A turn started by a hand-off of this many hops hands off no further. -/
def MAX_HANDOFF_HOPS : Nat := 2

def handoff_hop (request : ParentRequest) : Nat :=
  if request.trigger.kind = .handoff then request.trigger.payload.hop.getD 1 else 0

/-- The root timestamps of the active linked threads. -/
def linked (request : ParentRequest) : List String :=
  (request.session.linked_threads.filter fun t => t.control = some "active").filterMap
    LinkedThread.thread

/-- The thread that handed over to this turn. -/
def came_from (request : ParentRequest) : Option String :=
  if request.trigger.kind = .handoff then request.trigger.payload.from_ else none

/-- The targets so far and the obligations addressed so far. -/
structure Handed where
  targets : List String
  addressed : List String

def validate_handoff (request : ParentRequest) (known : List String) (handed : Handed)
    (handoff : Handoff) : Except String Handed := do
  refuse (handoff.thread ∉ linked request ∨ handoff.thread ∈ handed.targets)
    "a hand-off must target a distinct, active linked thread"
  refuse (came_from request = some handoff.thread)
    "a hand-off cannot go back to the thread it came from"
  let note := trim handoff.note
  refuse (note = "" ∨ note.length > 2000) "a hand-off needs a note of at most 2000 characters"
  refuse (handoff.answers ≠ [] ∧ handoff.kind ≠ .post)
    "only a post hand-off can answer obligations"
  let addressed ← handoff.answers.foldlM (address known "unknown or duplicate hand-off obligation")
    handed.addressed
  return ⟨handoff.thread :: handed.targets, addressed⟩

def validate_handoffs (request : ParentRequest) (handoffs : List Handoff) (known : List String)
    (addressed : List String) : Except String Handed := do
  refuse (handoffs.length > 3) "at most 3 hand-offs per turn"
  refuse (handoffs ≠ [] ∧ handoff_hop request ≥ MAX_HANDOFF_HOPS)
    s!"a chain of hand-offs stops after {MAX_HANDOFF_HOPS} hops"
  handoffs.foldlM (validate_handoff request known) ⟨[], addressed⟩

/-! ## The whole decision -/

/-- `raw` is `none` when the response does not fit the schema. -/
def validate (whitespace : Char → Bool) (raw : Option Decision) (request : ParentRequest)
    (now : ℚ) : Except String Decision := do
  let some raw := raw | throw "invalid parent response schema"
  let d ← validate_effects raw
  let reply ← drop_unsent (d.reply.map (normalize whitespace))
  let d := reopen request { d with reply }
  let known := known_obligations request
  let addressed ← validate_reply request d known
  let addressed ← d.dispositions.foldlM (validate_disposition known now) addressed
  d.asks.forM (validate_ask now)
  let _ ← validate_handoffs request d.handoffs known addressed
  return d

end Fridica.Threads
