import Mathlib.Data.Rat.Defs
import Mathlib.Algebra.Order.Field.Rat
import Mathlib.Data.List.Sort

/-!
# Reply reservations

`reserve` of `attention/mod.rs`: one reply per inbox item, under two hourly caps.
Times are seconds. The code's `f64` arithmetic is exact here.
-/

namespace Fridica.Attention

/-- Who a reply answers. `reserve` refuses any other text. -/
inductive Trigger
  | owner
  | peer
  | human
deriving DecidableEq

/-- The part of the `Attention` settings that `reserve` reads. -/
structure Limits where
  max_replies_per_hour : Nat
  max_echo_replies_per_hour : Nat
deriving DecidableEq

inductive ReservationState
  | reserved
  | sent
deriving DecidableEq

/-- A row of the thread's replies. `time` moves to the delivery when the post is sent. -/
structure Reply where
  id : String
  inbox : Int
  trigger : Trigger
  time : ℚ
  state : ReservationState
deriving DecidableEq

/-- One thread as a unit of work sees it. -/
structure Thread where
  active : Bool
  /-- The inbox items that are open in this session. -/
  items : List Int
  replies : List Reply
  /-- `defer_reply`: the item and the time it waits for. -/
  deferrals : List (Int × ℚ)
deriving DecidableEq

inductive Capacity
  | reserved
  | deferred (limit : ℚ)
deriving DecidableEq

def hour : ℚ := 3600

/-- What `reserve` calls outside this repository. -/
structure Outside where
  /-- `limits.validate()` -/
  validate : Limits → Except String Unit
  /-- `recent_replies(session, now)` -/
  recent_replies : List Reply → ℚ → List Reply

/-- `recent_replies` gives exactly the rows of the last hour, in ascending time. -/
structure Outside.Faithful (o : Outside) : Prop where
  rows : ∀ rs now, (o.recent_replies rs now).Perm (rs.filter fun r => now - hour < r.time)
  ascending : ∀ rs now, (o.recent_replies rs now).Pairwise fun a b => a.time ≤ b.time

/-! ## The code -/

/-- `until.max(events[events.len() - cap].at + 3600.)`, once the cap is reached. -/
def bump (cap : Nat) (events : List Reply) (limit : ℚ) : ℚ :=
  if events.length ≥ cap then
    match events[events.length - cap]? with
    | some e => max limit (e.time + hour)
    | none => limit
  else limit

/-- The `until` that `reserve` computes from the recent replies. -/
def not_before (limits : Limits) (events : List Reply) (trigger : Trigger) (now : ℚ) : ℚ :=
  if trigger ≠ .owner then
    let limit := bump limits.max_replies_per_hour events now
    let peers := events.filter fun reply => reply.trigger = .peer
    if trigger = .peer then bump limits.max_echo_replies_per_hour peers limit else limit
  else now

/-- `reservation_state(inbox)` -/
def reservation_state (s : Thread) (inbox : Int) : Option ReservationState :=
  (s.replies.find? fun r => r.inbox = inbox).map Reply.state

def defer_reply (s : Thread) (inbox : Int) (limit : ℚ) : Thread :=
  { s with deferrals := (inbox, limit) :: s.deferrals }

def reserve_reply (s : Thread) (id : String) (inbox : Int) (trigger : Trigger) (now : ℚ) : Thread :=
  { s with replies := s.replies ++ [⟨id, inbox, trigger, now, .reserved⟩] }

/-- One call. An error is a unit of work that leaves the store as it was. -/
def reserve (o : Outside) (limits : Limits) (s : Thread) (inbox : Int) (trigger : Trigger)
    (now : ℚ) (id : String) : Except String (Thread × Capacity) := do
  o.validate limits
  if !s.active then throw "thread is paused or closed; reply reservation refused"
  if inbox ∉ s.items then throw "inbox item is not available in this session"
  match reservation_state s inbox with
  | some .reserved => return (s, .reserved)
  | some .sent => throw "inbox item already replied"
  | none =>
    let limit := not_before limits (o.recent_replies s.replies now) trigger now
    if limit > now then return (defer_reply s inbox limit, .deferred limit)
    return (reserve_reply s id inbox trigger now, .reserved)

/-! ## Runs of one thread -/

inductive Op
  | reserve (inbox : Int) (trigger : Trigger) (id : String)
  /-- The outbox confirms the reply of this inbox item. -/
  | deliver (inbox : Int)
  /-- Owner controls and inbox claims change what the checks read. -/
  | prepare (active : Bool) (items : List Int)

def deliver (s : Thread) (inbox : Int) (now : ℚ) : Thread :=
  { s with replies := s.replies.map fun r =>
      if r.inbox = inbox then { r with time := now, state := .sent } else r }

def apply (o : Outside) (limits : Limits) (s : Thread) (now : ℚ) : Op → Thread
  | .reserve inbox trigger id =>
    match reserve o limits s inbox trigger now id with
    | .ok (s', _) => s'
    | .error _ => s
  | .deliver inbox => deliver s inbox now
  | .prepare active items => { s with active, items }

def run (o : Outside) (limits : Limits) (s : Thread) (ops : List (ℚ × Op)) : Thread :=
  ops.foldl (fun s op => apply o limits s op.1 op.2) s

/-- A thread before its first reply. -/
def fresh : Thread := ⟨true, [], [], []⟩

end Fridica.Attention
