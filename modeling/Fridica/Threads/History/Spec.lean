import Fridica.Threads.Service.Spec
import Mathlib.Algebra.Order.Ring.Unbundled.Rat

/-!
# When the history is read

`history_loop` of `threads/service.rs`, turn by turn. Times are seconds, without the rounding of a
`Duration`, and an `Instant` is the time since its origin.
-/

open Fridica.Ask
open Fridica.Threads.Service (Failure)

namespace Fridica.Threads.History

def WINDOW : ℚ := 3600
def RECENT : ℚ := 900

structure Progress where
  added : ℕ
  incomplete_channels : List String

/-- How a pass fails: with a time to wait where Slack limited the rate. -/
abbrev Outcome := Except (Option ℚ) Progress

inductive Detail
  | progress (window : ℚ) (added : ℕ) (incomplete_channels : List String)
  | catchup_failed (window retry_after : ℚ)
deriving DecidableEq

structure Options where
  catchup_interval : ℚ
  /-- The first time that an `Instant` cannot hold. -/
  end_of_time : ℚ

/-- What ends a wait for a time or for a change of the socket's status. -/
inductive Waited
  | slept
  | changed (connected : Bool)
  | socket_gone

inductive Query
  | connected
  | catchup (window : ℚ)
  | history_result (detail : Detail) (failed : Bool)
  | now
  | wait (until_ : ℚ)
  | sleep_until (earliest : ℚ)
deriving DecidableEq

abbrev Answer : Query → Type
  | .connected => Bool
  | .catchup _ => Outcome
  | .history_result _ _ => Bool
  | .now => ℚ
  | .wait _ => Waited
  | .sleep_until _ => Unit

variable {σ : Type}

abbrev Act (σ α : Type) := Fallible Query Answer (Failure σ) α

/-- `Duration::try_from_secs_f64` of a positive time. -/
def try_from_secs (secs : ℚ) : Except (Failure σ) ℚ :=
  if secs < 2 ^ 64 then .ok secs else .error .configuration

def Options.checked_add (o : Options) (now wait : ℚ) : Except (Failure σ) ℚ :=
  if now + wait < o.end_of_time then .ok (now + wait) else .error .configuration

def retry_floor : Outcome → Except (Failure σ) ℚ
  | .error (some retry_after) =>
    if retry_after > 0 then try_from_secs (max retry_after 1) else .ok 0
  | _ => .ok 0

def detail (window floor : ℚ) : Outcome → Detail
  | .ok progress => .progress window progress.added progress.incomplete_channels
  | .error _ => .catchup_failed window floor

def failed : Outcome → Bool
  | .ok progress => !progress.incomplete_channels.isEmpty
  | .error _ => true

def history_result (detail : Detail) (failed : Bool) : Act σ Unit := do
  let done ← ask (Query.history_result detail failed)
  unit (pure (Service.committed done))

/-- Where the loop stands. -/
inductive Turn
  | read (window : ℚ)
  | wait (window next earliest : ℚ)

def read (o : Options) (window : ℚ) : Act σ Turn := do
  let outcome : Outcome ← ask (Query.catchup window)
  let floor ← unit (pure (retry_floor outcome))
  history_result (detail window floor outcome) (failed outcome)
  let window := if failed outcome then WINDOW else RECENT
  let now : ℚ ← ask Query.now
  let next ← unit (pure (o.checked_add now (max o.catchup_interval floor)))
  let earliest ← unit (pure (o.checked_add now floor))
  return .wait window next earliest

def wait (window next earliest : ℚ) : Act σ Turn := do
  let waited : Waited ← ask (Query.wait next)
  match waited with
  | .slept => return .read window
  | .socket_gone => throw .socket_stopped
  | .changed connected =>
    if connected then
      -- Reconnect must not bypass an HTTP Retry-After.
      ask (Query.sleep_until earliest)
      return .read window
    else return .wait window next earliest

def turn (o : Options) : Turn → Act σ Turn
  | .read window => read o window
  | .wait window next earliest => wait window next earliest

def connected : Act σ Unit := do
  let connected : Bool ← ask Query.connected
  if connected then return () else throw .socket_stopped

/-- The loop, for a number of turns. -/
def history_loop (o : Options) (n : ℕ) : Act σ Turn := do
  connected
  turns (turn o) n (.read WINDOW)

end Fridica.Threads.History
