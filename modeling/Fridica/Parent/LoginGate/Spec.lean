import Mathlib.Logic.Function.Basic

/-!
# The login gate

`LoginGate` of `parent/mod.rs` and the part of `CliParent::run` that goes through it: a flag and a
lock, which any number of parent calls read and write in any order.
-/

namespace Fridica.Parent.LoginGate

/-- How the backend's process ended. -/
inductive Completion
  /-- It finished, and its answer is a lost refresh or not. -/
  | finished (lost : Bool)
  /-- It timed out, could not be started, or wrote too much. -/
  | failed
deriving DecidableEq

/-- `completed.is_ok_and(auth_contended)` -/
def Completion.contended : Completion → Bool
  | .finished lost => lost
  | .failed => false

/-- How a call entered. -/
inductive Entry
  /-- The gate was open. -/
  | free
  /-- It goes alone, and holds the lock. -/
  | alone
  /-- It exhausted its wait. -/
  | exhausted
deriving DecidableEq

inductive Phase
  | outside
  /-- The gate was closed, and the call waits for the lock. -/
  | waiting
  /-- It has the lock, and looks at the gate again. -/
  | locked
  | running (entry : Entry)
  /-- The process ended, and the gate is not settled yet. -/
  | settling (entry : Entry) (completed : Completion)
  /-- The gate is settled, and the lock is not dropped yet. -/
  | leaving (entry : Entry)
  | gone
deriving DecidableEq

inductive Event
  | entered (call : Nat) (entry : Entry)
  | settled (call : Nat) (completed : Completion)
deriving DecidableEq

structure State where
  open_gate : Bool
  /-- The call that holds the lock. -/
  probe : Option Nat
  phase : Nat → Phase
  /-- What happened, in order. -/
  log : List Event

def initial : State := ⟨false, none, fun _ => .outside, []⟩

def State.to (s : State) (i : Nat) (p : Phase) : State :=
  { s with phase := Function.update s.phase i p }

/-- A call whose `enter` returns. -/
def State.enter (s : State) (i : Nat) (entry : Entry) : State :=
  { s.to i (.running entry) with log := s.log ++ [.entered i entry] }

/-- The guard is dropped by the call that holds it. -/
def State.drop (s : State) (i : Nat) : State :=
  { s.to i .gone with probe := if s.probe = some i then none else s.probe }

/-- What a call does next. -/
inductive Action
  | enter
  | acquire
  | look
  | give_up
  | finish (completed : Completion)
  | settle
  | release
  /-- Nobody waits for the call any more. -/
  | cancel

def step (s : State) (i : Nat) : Action → Option State
  | .enter =>
    if s.phase i = .outside then
      if s.open_gate then some (s.enter i .free) else some (s.to i .waiting)
    else none
  | .acquire =>
    if s.phase i = .waiting ∧ s.probe = none then some { s.to i .locked with probe := some i }
    else none
  | .look =>
    if s.phase i = .locked then
      if s.open_gate then some { s.enter i .free with probe := none }
      else some (s.enter i .alone)
    else none
  | .give_up => if s.phase i = .waiting then some (s.enter i .exhausted) else none
  | .finish completed =>
    match s.phase i with
    | .running entry => some (s.to i (.settling entry completed))
    | _ => none
  | .settle =>
    match s.phase i with
    | .settling entry completed =>
      some { s.to i (.leaving entry) with
        open_gate := !completed.contended
        log := s.log ++ [.settled i completed] }
    | _ => none
  | .release =>
    match s.phase i with
    | .leaving _ => some (s.drop i)
    | _ => none
  | .cancel => some (s.drop i)

def run (s : State) : List (Nat × Action) → Option State
  | [] => some s
  | (i, a) :: actions => (step s i a).bind (run · actions)

/-! ## Running alone -/

/-- The backend runs for this call, or just ended. -/
def State.runs (s : State) (i : Nat) : Prop :=
  (∃ entry, s.phase i = .running entry) ∨ ∃ entry completed, s.phase i = .settling entry completed

/-- A lost refresh was the last thing that happened. -/
def JustLost (log : List Event) : Prop :=
  ∃ earlier i completed, log = earlier ++ [.settled i completed] ∧ completed.contended = true

/-- The calls that entered in this part of the log, and did not exhaust their wait. -/
def EnteredIn (log : List Event) (i : Nat) : Prop :=
  ∃ entry, entry ≠ .exhausted ∧ .entered i entry ∈ log

/-- Of the calls that entered in this part of the log, at most one runs. -/
def OneRuns (s : State) (log : List Event) : Prop :=
  ∀ i j, EnteredIn log i → EnteredIn log j → s.runs i → s.runs j → i = j

end Fridica.Parent.LoginGate
