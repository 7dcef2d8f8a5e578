import Fridica.Lib.Streak
import Fridica.Threads.Commit.Spec

/-!
# The streaks of a thread

A thread's row counts its consecutive waiting replies and its consecutive turns without progress.
`Thread.commit` is a commit of `threads/actor.rs` on that row, with what it says of streaks. Below
stands what the streak signal is for: two streaks that are watched, and told of once.
-/

open Fridica.Streak

namespace Fridica.Threads

/-- The counts in a thread's row. -/
structure Thread where
  wait_streak : Int
  no_progress : Int
deriving DecidableEq

/-- The counts in the session that the parent was asked about. -/
def Turn.thread (t : Turn) : Thread :=
  ⟨t.request.session.wait_streak.getD 0, t.request.session.no_progress.getD 0⟩

def Effect.signal? : Effect → Bool
  | .open_streak_signal _ => true
  | _ => false

/-- The counts that an effect writes to the row. -/
def Effect.thread? : Effect → Option Thread
  | .close_turn close => some ⟨close.waiting, close.quiet⟩
  | _ => none

/-- A turn committed on the row: whether it opens a signal, and the row after it. -/
def Thread.commit (c : Core) (row : Thread) (turn : Turn × Reads) : Option (Bool × Thread) :=
  if turn.1.thread = row then
    match Threads.commit c turn.1 turn.2 with
    | .ok (.committed, effects) =>
      (effects.findSome? Effect.thread?).map fun after => (effects.any Effect.signal?, after)
    | _ => none
  else none

/-- The commits that open a signal, in a run of committed turns. -/
def Thread.run (c : Core) (row : Thread) : List (Turn × Reads) → Option (List Bool)
  | [] => some []
  | turn :: turns =>
    (row.commit c turn).bind fun done => (done.2.run c turns).map (done.1 :: ·)

/-! ## What is watched -/

/-- The reply that the turn posts. -/
def Turn.posted (t : Turn) (c : Core) (u : Reads) : Option Reply :=
  (t.rendered c u).reply.filter fun reply => reply.send && !t.duplicate c u reply

/-- A waiting reply extends the streak, another reply and queued jobs end it. -/
def Turn.waiting_move (t : Turn) (c : Core) (u : Reads) : Move :=
  if t.work.jobs ≠ [] then .reset
  else
    match t.posted c u with
    | none => .hold
    | some reply => if reply.status = .waiting then .extend else .reset

/-- Progress is a new reply or queued jobs, in a turn that does not only acknowledge. -/
def Turn.quiet_move (t : Turn) (c : Core) (u : Reads) : Move :=
  let fresh := (t.posted c u).any fun reply => c.reply_hash reply.text ≠ t.start.hash
  if t.decision.note.kind ≠ .ack ∧ (t.work.jobs ≠ [] ∨ fresh) then .reset else .extend

/-- Both streaks of a thread. -/
structure Watches where
  waiting : Watch
  quiet : Watch
deriving DecidableEq

def Watches.start : Watches := ⟨Streak.fresh, Streak.fresh⟩

/-- The watches under the threshold of a turn. -/
def Watches.set (w : Watches) (t : Turn) : Watches := ⟨w.waiting.set t.signal, w.quiet.set t.signal⟩

/-- A signal is due at a commit that tells of a streak. -/
def Watches.due (w : Watches) (c : Core) (turn : Turn × Reads) : Bool :=
  (w.set turn.1).waiting.due (turn.1.waiting_move c turn.2) ||
    (w.set turn.1).quiet.due (turn.1.quiet_move c turn.2)

def Watches.next (w : Watches) (c : Core) (turn : Turn × Reads) : Watches :=
  ⟨(w.set turn.1).waiting.next (turn.1.waiting_move c turn.2),
    (w.set turn.1).quiet.next (turn.1.quiet_move c turn.2)⟩

/-- The commits at which a signal is due. -/
def Watches.run (w : Watches) (c : Core) : List (Turn × Reads) → List Bool
  | [] => []
  | turn :: turns => w.due c turn :: (w.next c turn).run c turns

/-! ## When the code does so -/

/-- The commit brings one of the streaks to the threshold. -/
def Watches.comes (w : Watches) (c : Core) (turn : Turn × Reads) : Prop :=
  (w.set turn.1).waiting.comes (turn.1.waiting_move c turn.2) ∨
    (w.set turn.1).quiet.comes (turn.1.quiet_move c turn.2)

/-- The commit extends a streak that is past a changed threshold and was not told of under it. -/
def Watches.late (w : Watches) (c : Core) (turn : Turn × Reads) : Prop :=
  (w.set turn.1).waiting.late (turn.1.waiting_move c turn.2) ∨
    (w.set turn.1).quiet.late (turn.1.quiet_move c turn.2)

/-- The commit leaves the waiting streak standing at the threshold. -/
def Watches.stands (w : Watches) (c : Core) (turn : Turn × Reads) : Prop :=
  turn.1.waiting_move c turn.2 = .hold ∧ w.waiting.count = turn.1.signal

/-- A streak comes to the threshold, or none stands at it and none is past it untold. Standing and
late streaks at one commit cancel out. -/
def Watches.Meets (w : Watches) (c : Core) (turn : Turn × Reads) : Prop :=
  w.comes c turn ∨ (w.stands c turn ↔ w.late c turn)

/-- Every commit of a run meets the condition. -/
def Watches.AllMeet (w : Watches) (c : Core) : List (Turn × Reads) → Prop
  | [] => True
  | turn :: turns => w.Meets c turn ∧ (w.next c turn).AllMeet c turns

end Fridica.Threads
