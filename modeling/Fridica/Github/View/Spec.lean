import Fridica.Github.Links.Spec
import Fridica.Lib.Regex
import Fridica.Lib.Lines

/-!
# The projections of GitHub responses

`github/view.rs`: what the parent is shown of an issue or a pull request. The body of a pull
request never establishes facts: what it claims is held against what was read.
-/

namespace Fridica.Github.View

open Fridica.Json Fridica.Regex
open Fridica.Github.Links (Aux to_ascii_lowercase)

/-- What `serde_json` and the `regex` crate bring. -/
structure Outside where
  /-- The JSON text of a value. -/
  to_string : Value → String
  /-- The class `\w`. -/
  word : Char → Bool

variable (out : Outside)

/-! ## Patterns -/

def space (c : Char) : Bool := Text.whitespace c

def hex (c : Char) : Bool := c.isDigit || ('a' ≤ c && c ≤ 'f') || ('A' ≤ c && c ≤ 'F')

/-- A letter of a pattern under `(?i)`. -/
def folds (letter c : Char) : Bool :=
  c.toLower == letter || (letter == 'k' && c == '\u212A') || (letter == 's' && c == '\u017F')

def word (t : String) : Pattern Text := literal folds t.toList

def HEX : Pattern Text := greedy 7 (some 40) hex

/-- `\b` -/
def word_boundary (p : Place) : Bool :=
  p.before.head?.any out.word != p.after.head?.any out.word

/-- `(?i)\btree\b[^0-9a-fA-F]{0,8}([0-9a-fA-F]{7,40})`, with the end of the group. -/
def TREE : Pattern (Text × Place) := do
  assert (word_boundary out)
  let _ ← word "tree"
  assert (word_boundary out)
  let _ ← greedy 0 (some 8) fun c => !hex c
  let sha ← HEX
  fun p => [((sha, p), p)]

/-- `(?s)<!--.*?(?:-->|$)` -/
def COMMENT : Pattern Unit := do
  let _ ← literal (· == ·) "<!--".toList
  let _ ← lazy 0 none fun _ => true
  either (do let _ ← literal (· == ·) "-->".toList) (assert fun p => p.after.isEmpty)

def mark (c : Char) : Bool := c == '*' || c == '_' || c == '`'

def KEY : Pattern Text :=
  either (word "owner") <| either (word "next action") <| either (word "next") <|
    either (word "blocker") <|
    either (do
      let waiting ← word "waiting"
      let dash ← greedy 1 (some 1) fun c => c == '-' || c == ' '
      let on ← word "on"
      return waiting ++ dash ++ on) <|
    either (word "head") (word "tree")

/-- The key and the value of a status line:
``(?i)^\s*(?:[-*•]\s*)?[*_`]*\s*(KEY)\s*[*_`]*\s*:\s*[*_`]*\s*(.+?)\s*[*_`]*\s*$``. -/
def STATUS : Pattern (Text × Text) := do
  assert fun p => p.before.isEmpty
  let _ ← greedy 0 none space
  maybe (do
    let _ ← greedy 1 (some 1) fun c => c == '-' || c == '*' || c == '•'
    greedy 0 none space)
  let _ ← greedy 0 none mark
  let _ ← greedy 0 none space
  let key ← KEY
  let _ ← greedy 0 none space
  let _ ← greedy 0 none mark
  let _ ← greedy 0 none space
  let _ ← literal (· == ·) [':']
  let _ ← greedy 0 none space
  let _ ← greedy 0 none mark
  let _ ← greedy 0 none space
  let value ← lazy 1 none fun c => c != '\n'
  let _ ← greedy 0 none space
  let _ ← greedy 0 none mark
  let _ ← greedy 0 none space
  assert fun p => p.after.isEmpty
  return (key, value)

/-! ## Text -/

def ORDER : List String := ["owner", "next", "blocker", "waiting on"]

def clip (limit : Nat) (s : String) : String := String.ofList (s.toList.take limit)

def text (v : Value) (limit : Nat) : String := clip limit (v.as_str.getD "")

def short (s : String) : String := clip 7 s

def is_alphanumeric (c : Char) : Bool := c.isAlpha || c.isDigit

/-- No letter or digit goes on. -/
def boundary (p : Place) : Bool := !p.after.head?.any is_alphanumeric

/-- The commit that a text names. -/
def claim_sha (value : Text) : Option Text :=
  ((find_iter HEX value).find? fun m =>
    !m.start.before.head?.any is_alphanumeric && boundary m.stop).map
      fun m => m.value.map Char.toLower

/-- The tree that a head line names. -/
def named_tree (value : Text) : Option Text :=
  ((find_iter (TREE out) value).find? fun m => boundary m.value.2).map fun m => m.value.1

/-- What the status lines say, by key. -/
abbrev Found := List (String × String)

/-- `entry(key).or_insert(value)` -/
def or_insert (key value : String) (found : Found) : Found :=
  if (found.lookup key).isSome then found else found ++ [(key, value)]

def status_line (found : Found) (line : Text) : Found :=
  match (find_iter STATUS line).head? with
  | none => found
  | some m =>
    let key := String.ofList (m.value.1.map fun c => if c = '-' then ' ' else c.toLower)
    let key := if key = "next action" then "next" else key
    let value := m.value.2.take 200
    let found := or_insert key (String.ofList value) found
    match if key = "head" then named_tree out value else none with
    | some tree => or_insert "tree" (String.ofList tree) found
    | none => found

def pick (keys : List String) (found : Found) : Found :=
  keys.filterMap fun k => (found.lookup k).map (k, ·)

/-- The status block of a body, and the claims that it makes. -/
def status_lines (body : Value) : Found × Found :=
  let clean := erase COMMENT (body.as_str.getD "").toList
  let lines := ((Lines.lines clean).filter fun l => Lines.trim l ≠ []).take 20
  let found := lines.foldl (status_line out) []
  (pick ORDER found, pick ["head", "tree"] found)

/-! ## Reviews -/

inductive Verdict
  | approved
  | changes_requested
  | dismissed
deriving DecidableEq

/-- The state of a review that decides something. -/
def verdict (r : Value) : Option Verdict :=
  match (r.field "state").as_str with
  | some "APPROVED" => some .approved
  | some "CHANGES_REQUESTED" => some .changes_requested
  | some "DISMISSED" => some .dismissed
  | _ => none

structure Review where
  name : String
  verdict : Verdict
  commit : String
deriving DecidableEq

def login (r : Value) : Option String :=
  ((r.field "user").field "login").as_str.filter (· ≠ "")

/-- The name of a reviewer, who gets one without a login. -/
def name (position : Nat) (r : Value) : String :=
  (login r).getD ("unknown-" ++ ((r.get "id").map out.to_string).getD (toString position))

/-- The reviewer's last review takes the place of the one before. -/
def replace (review : Review) : List Review → List Review
  | [] => [review]
  | old :: rest => if old.name = review.name then review :: rest else old :: replace review rest

def keep (latest : List Review) (r : Value) : List Review :=
  match verdict r with
  | none => latest
  | some v => replace ⟨name out latest.length r, v, (r.field "commit_id").as_str.getD ""⟩ latest

def Review.line (head : String) (r : Review) : String :=
  match r.verdict with
  | .approved =>
    "approved @" ++ short r.commit ++ " by " ++ r.name ++
      if r.commit = head then "" else " (stale: not the head)"
  | .changes_requested => "changes requested @" ++ short r.commit ++ " by " ++ r.name
  | .dismissed => "dismissed @" ++ short r.commit ++ " by " ++ r.name

/-- The lines, and the numbers of current, stale and decisive reviews. -/
structure Reviews where
  lines : List String
  current : Nat
  stale : Nat
  decisive : Nat
deriving DecidableEq

def tally (head : String) (s : Reviews) (r : Review) : Reviews :=
  let s := { s with lines := s.lines ++ [r.line head] }
  match r.verdict with
  | .approved =>
    let s := { s with decisive := s.decisive + 1 }
    if r.commit = head then { s with current := s.current + 1 }
    else { s with stale := s.stale + 1 }
  | .changes_requested => { s with decisive := s.decisive + 1 }
  | .dismissed => s

def reviews (reviews : List Value) (head : String) : Reviews :=
  (reviews.foldl (keep out) []).foldl (tally head) ⟨[], 0, 0, 0⟩

/-! ## Items -/

def strings (ss : List String) : Value := .array (ss.map .string)

def names (value : Value) (field : String) : List String :=
  ((value.as_array.getD []).filter (·.is_object)).map fun v =>
    clip 200 ((v.field field).as_str.getD "?")

def status_part (status : Found) (k : String) : Option String :=
  (status.lookup k).map fun v => k ++ (if k = "owner" then " " else ": ") ++ v

def status_parts (status : Found) : List String := ORDER.filterMap (status_part status)

def people_part (item : Value) (k : String) : Option String :=
  let names := ((item.field k).as_array.getD []).map fun v => v.as_str.getD ""
  if names = [] then none else some (k ++ " " ++ ", ".intercalate names)

def people (item : Value) : List String :=
  ["assignees", "labels"].filterMap (people_part item)

def status_block (status : Found) : Value :=
  .of_fields (status.map fun kv => (kv.1, .string kv.2))

def summary (parts : List String) : Value := .string (" · ".intercalate parts)

def or_unknown (unknown s : String) : String := if s = "" then unknown else s

def issue (repo : String) (value : Value) : List (String × Value) :=
  let number := value.field "number"
  let status := (status_lines out (value.field "body")).1
  let title := text (value.field "title") 200
  let state := or_unknown "?" (text (value.field "state") 20)
  let item := Value.extend [] [
    ("link", .string ("https://github.com/" ++ repo ++ "/issues/" ++ out.to_string number)),
    ("kind", .string "issue"), ("repo", .string repo), ("number", number),
    ("title", .string title), ("state", .string state),
    ("assignees", strings (names (value.field "assignees") "login")),
    ("labels", strings (names (value.field "labels") "name")),
    ("status_block", status_block status)]
  let parts :=
    ["issue " ++ repo ++ "#" ++ out.to_string number ++ " \"" ++ title ++ "\"", state] ++
      status_parts status ++ people (.object item)
  Value.insert "summary" (summary parts) item

def Ci.text : Ci → String
  | .success => "success"
  | .neutral => "neutral"
  | .none => "none"
  | .failure => "failure"
  | .cancelled => "cancelled"
  | .pending => "pending"
  | .unavailable => "unavailable"
  | .incomplete => "incomplete"

def count_fields (counts : Kind → Nat) : Value :=
  .of_fields ([("success", Kind.success), ("failure", .failure), ("cancelled", .cancelled),
    ("pending", .pending), ("other", .other)].map fun kv => (kv.1, .int (counts kv.2)))

def state (value : Value) : String :=
  let state := or_unknown "?" <|
    if (value.field "merged").as_bool = some true then "merged" else text (value.field "state") 20
  if state = "open" ∧ (value.field "draft").as_bool = some true then "draft" else state

def head (value : Value) : String := ((value.field "head").field "sha").as_str.getD ""

/-- What becomes of a claim of the body. -/
inductive Held
  | unverified
  | no_commit
  | matching
  | not_matching
deriving DecidableEq

def Held.text : Held → String
  | .unverified => "unverified (the real value could not be fetched)"
  | .no_commit => "is not a commit id"
  | .matching => "matches"
  | .not_matching => "does NOT match"

def held (actual : Option String) (claim : String) : Held :=
  match actual, claim_sha claim.toList with
  | none, _ => .unverified
  | _, none => .no_commit
  | some actual, some sha =>
    if sha <+: (to_ascii_lowercase actual).toList then .matching else .not_matching

/-- The claims with what becomes of them. -/
def verdicts (claims : Found) (actual : List (String × Option String)) : List (String × Held) :=
  actual.filterMap fun kv => (claims.lookup kv.1).map fun claim => (kv.1, held kv.2 claim)

/-- The tree of the head, when it is known. -/
def tree (aux : Aux) : Option String := aux.tree.filter (· ≠ "")

/-- What the claims of a body are held against. -/
def actual (value : Value) (aux : Aux) : List (String × Option String) :=
  [("head", some (head value)), ("tree", tree aux)]

def behind_base (behind : Option Int64) : Value :=
  match behind with
  | none => .null
  | some n => .bool (0 < n)

def base_part (base : String) (behind : Option Int64) : String :=
  "base " ++ base ++ match behind with
    | none => ""
    | some n => if 0 < n then " (behind base)" else " (up to date)"

def pull (repo : String) (value : Value) (aux : Aux) : List (String × Value) :=
  let number := value.field "number"
  let head := head value
  let base := ((value.field "base").field "ref").as_str.getD ""
  let title := text (value.field "title") 200
  let state := state value
  let ci := ci aux.runs
  let counts := aux.runs.map fun runs => (checks runs.1).2
  let read := reviews out ((aux.reviews.map (·.1)).getD []) head
  let (status, claims) := status_lines out (value.field "body")
  let mergeable := or_unknown "unknown" (text (value.field "mergeable_state") 20)
  let item := Value.extend [] [
    ("link", .string ("https://github.com/" ++ repo ++ "/pull/" ++ out.to_string number)),
    ("kind", .string "pull"), ("repo", .string repo), ("number", number),
    ("title", .string title), ("state", .string state), ("head", .string head),
    ("tree", .string ((tree aux).getD "unavailable")), ("base", .string base),
    ("behind_base", behind_base aux.behind), ("mergeable", .string mergeable),
    ("ci", .string (Ci.text ci)), ("checks", (counts.map count_fields).getD (.object [])),
    ("reviews", if aux.reviews.isSome then strings read.lines else .string "unavailable"),
    ("assignees", strings (names (value.field "assignees") "login")),
    ("labels", strings (names (value.field "labels") "name")),
    ("status_block", status_block status)]
  let cancelled := (counts.map (· .cancelled)).getD 0
  let verdicts := verdicts claims (actual value aux)
  let item :=
    if verdicts = [] then item
    else Value.insert "claims" (.of_fields (verdicts.map fun kv => (kv.1, .string kv.2.text))) item
  let parts :=
    ["PR " ++ repo ++ "#" ++ out.to_string number ++ " \"" ++ title ++ "\"", state,
      "head " ++ short head, "CI " ++ Ci.text ci,
      if aux.reviews.isSome then
        "approvals " ++ toString read.current ++ "/" ++ toString read.decisive
      else "reviews unavailable"] ++
    status_parts status ++
    ["tree " ++ ((tree aux).map short).getD "unavailable", base_part base aux.behind,
      "mergeable " ++ mergeable] ++
    (if 0 < cancelled then ["cancelled checks " ++ toString cancelled] else []) ++
    (if 0 < read.stale then ["stale approvals " ++ toString read.stale] else []) ++
    (if aux.reviews.any fun r => !r.2 then ["reviews truncated"] else []) ++
    verdicts.map (fun kv => "body's " ++ kv.1 ++ " claim " ++ kv.2.text) ++
    people (.object item)
  Value.insert "summary" (summary parts) item

/-- The projections that links are read with. -/
def projections : Links.View := ⟨issue out, pull out⟩

end Fridica.Github.View
