import Fridica.Threads.Commit.Spec
import Mathlib.Data.List.Sort

/-!
# The event of a turn

The `actor_commit` branch of `project` of `control/events.rs`: what a client of the event feed
learns of a turn, from its record alone.
-/

open Fridica.Text Fridica.Threads

namespace Fridica.Control

structure TurnEvent where
  session : String
  outcome : List String
  trigger_ts : Option ℚ
  delegations : Nat
  summary : String
  next_step : String
  blocker : String
deriving DecidableEq

def clip (value : String) (limit : Nat) : String := String.ofList (value.toList.take limit)

/-- The reply counts as posted when it has text and was not withheld. -/
def sent (d : Decision) : Bool := d.reply.any fun r => r.send && trim r.text ≠ ""

/-- Independent atoms of what the turn did, sorted. -/
def outcome (d : Decision) : List String :=
  let delegated := if d.delegations ≠ [] then ["delegated"] else []
  let replied := if sent d then ["replied"] else []
  let status := match d.reply with
    | some r => if r.status = .waiting ∨ r.status = .blocked then [r.status.as_str] else []
    | none => []
  let finished := if d.reply.any fun r => r.discussion = .finished then ["finished"] else []
  (replied ++ delegated ++ status ++ finished).insertionSort (· ≤ ·)

def project (p : CommitRecord) : TurnEvent where
  session := p.request.session.id.getD ""
  outcome := outcome p.decision
  trigger_ts := p.request.trigger.message.bind Message.ts
  delegations := p.decision.delegations.length
  summary := clip p.decision.summary 300
  next_step := clip p.decision.note.next_step 300
  blocker := clip p.decision.note.blocker 300

end Fridica.Control
