import Fridica.Lib.Json

/-!
# The checks of a pull request

`Links::pages` of `github/links.rs` reads the check runs of a commit page by page. `checks` and the
`ci` of `pull` (`github/view.rs`) say what they amount to.
-/

namespace Fridica.Github

open Fridica.Json

/-! ## The pages -/

inductive Failure
  | invalid
  | not_found
  | authentication
  | http (status : Nat)
  | rate_limited (after : ℚ)
  | unavailable
  | recording

inductive Operation
  | checks (head : String) (page : Nat)
  | reviews (number : Nat) (page : Nat)

abbrev Pages := List Value × Bool

def items_len_complete (total last page : Nat) : Bool := (page - 1) * 100 + last ≥ total

/-- What is read: the check runs of a commit, or the reviews of a pull request. -/
inductive Subject
  | checks (head : String)
  | reviews (number : Nat)

def Subject.operation : Subject → Nat → Operation
  | .checks head, page => .checks head page
  | .reviews number, page => .reviews number page

def Subject.batch : Subject → Value → Option (List Value)
  | .checks _, value => (value.field "check_runs").as_array
  | .reviews _, value => value.as_array

variable (get : Operation → Except Failure Value)

def read_pages (subject : Subject) : List Nat → List Value → Except Failure Pages
  | [], items => .ok (items, false)
  | page :: rest, items =>
    match get (subject.operation page) with
    | .error failure => .error failure
    | .ok value =>
      match subject.batch value with
      | none => .error .invalid
      | some batch =>
        -- Never certify omitted entries as success, even for a broken server.
        if batch.length > 100 then .ok (items ++ batch.take 100, false)
        else
          let items := items ++ batch
          match subject with
          | .checks _ =>
            let total := (value.field "total_count").as_u64.getD items.length
            if items.length ≥ total ∨ batch.length < 100 then
              .ok (items, items_len_complete total batch.length page)
            else read_pages subject rest items
          | .reviews _ =>
            if batch.length < 100 then .ok (items, true) else read_pages subject rest items

def pages (subject : Subject) : Except Failure Pages := read_pages get subject [1, 2, 3] []

def optional {α : Type} : Except Failure α → Except Failure (Option α)
  | .error .recording => .error .recording
  | .error _ => .ok none
  | .ok a => .ok (some a)

/-! ## What the runs amount to -/

inductive Kind
  | success
  | failure
  | cancelled
  | pending
  | other
deriving DecidableEq

def kind (run : Value) : Kind :=
  if (run.field "status").as_str ≠ some "completed" then .pending
  else
    match (run.field "conclusion").as_str.getD "" with
    | "success" => .success
    | "failure" | "timed_out" | "action_required" | "startup_failure" => .failure
    | "cancelled" => .cancelled
    | _ => .other

def count (runs : List Value) (k : Kind) : Nat :=
  (runs.filter (·.is_object)).countP (kind · = k)

inductive Ci
  | success
  | neutral
  | none
  | failure
  | cancelled
  | pending
  | unavailable
  | incomplete
deriving DecidableEq

def checks (runs : List Value) : Ci × (Kind → Nat) :=
  let counts := count runs
  let overall :=
    if counts .success > 0 then .success else if counts .other > 0 then .neutral else .none
  let overall :=
    if counts .failure > 0 then .failure
    else if counts .cancelled > 0 then .cancelled
    else if counts .pending > 0 then .pending
    else overall
  (overall, counts)

/-- The verdicts that certify a commit. -/
def Ci.certifies : Ci → Bool
  | .success | .neutral | .none => true
  | _ => false

def ci (runs : Option Pages) : Ci :=
  match runs with
  | none => .unavailable
  | some (runs, complete) =>
    let ci := (checks runs).1
    if !complete && ci.certifies then .incomplete else ci

/-- The `ci` shown of a commit. -/
def shown (head : String) : Except Failure Ci :=
  match optional (pages get (.checks head)) with
  | .error failure => .error failure
  | .ok runs => .ok (ci runs)

end Fridica.Github
