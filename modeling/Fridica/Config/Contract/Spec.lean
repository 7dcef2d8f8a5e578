import Fridica.Lib.Regex
import Fridica.Lib.Text
import Fridica.Lib.Utf8
import Mathlib.Data.List.DropRight

/-!
# The sections of a contract

`parse` of `config/contract.rs`, over the characters of the text: offsets count characters. Below
stands the grammar that its scanner follows, a regular expression.
-/

namespace Fridica.Config.ContractText

open Fridica.Regex

def LIMIT : Nat := 64 * 1024

def whitespace (c : Char) : Bool := Text.whitespace c || ('\x1c' ≤ c && c ≤ '\x1f')

def trim (t : Text) : Text := (t.dropWhile whitespace).rdropWhile whitespace

structure Contract where
  participation : Text
  replies : Text
  delegation : Text
  workers : Text
  debriefs : Text
  extra : Text
deriving DecidableEq

/-! ## The scanner -/

/-- `split_inclusive('\n')` -/
def split_inclusive : Text → List Text
  | [] => []
  | c :: t =>
    if c = '\n' then [c] :: split_inclusive t
    else
      match split_inclusive t with
      | [] => [[c]]
      | line :: lines => (c :: line) :: lines

structure Heading where
  offset : Nat
  stop : Nat
  title : Text
deriving DecidableEq

/-- The heading whose `##` is at the offset. -/
def heading (text : Text) (offset : Nat) : Option Heading :=
  let after := text.drop (offset + 2)
  let rest := after.dropWhile whitespace
  let start := text.length - rest.length
  let stop := start + rest.findIdx (· = '\n')
  let title := trim ((text.take stop).drop start)
  if title ≠ [] then some ⟨offset, stop, trim (title.dropWhile (· = '#'))⟩
  -- The blanks after `##` can give way to one that is not a newline.
  else if rest = [] ∧ (after.drop 1).any (· ≠ '\n') then some ⟨offset, text.length, []⟩
  else none

structure Scan where
  headings : List Heading
  offset : Nat
  consumed : Nat

def scan_line (text : Text) (s : Scan) (line : Text) : Scan :=
  let found := if s.consumed ≤ s.offset ∧ ['#', '#'] <+: line ∧
      (text.drop (s.offset + 2)).head?.any whitespace then heading text s.offset else none
  { headings := s.headings ++ found.toList
    offset := s.offset + line.length
    consumed := found.elim s.consumed (·.stop) }

def headings (text : Text) : List Heading :=
  ((split_inclusive text).foldl (scan_line text) ⟨[], 0, 0⟩).headings

/-! ## The contract -/

/-- The field that a title or an alias names, in lower case. -/
def known (title : Text) : String :=
  match String.ofList title with
  | "participation" | "triage" => "participation"
  | "replies" | "reply" => "replies"
  | "delegation" => "delegation"
  | "worker reports" | "workers" | "worker" => "workers"
  | "debriefs" | "debrief" => "debriefs"
  | _ => ""

structure Sections where
  found : List (String × Text)
  extra : List Text

def titled (title body : Text) : Text := "## ".toList ++ title ++ "\n\n".toList ++ body

/-- `entry(key).or_insert(body)` -/
def or_insert (key : String) (body : Text) (found : List (String × Text)) : List (String × Text) :=
  if (found.lookup key).isSome then found else found ++ [(key, body)]

variable (to_lowercase : Text → Text)

def add_section (text : Text) (hs : List Heading) (s : Sections) (h : Heading × Nat) : Sections :=
  let stop := hs[h.2 + 1]?.elim text.length (·.offset)
  let body := trim ((text.take stop).drop h.1.stop)
  let key := known (to_lowercase h.1.title)
  if key = "" then if body ≠ [] then { s with extra := s.extra ++ [titled h.1.title body] } else s
  else { s with found := or_insert key body s.found }

def required : List (String × String) :=
  [("participation", "Participation"), ("replies", "Replies")]

def missing (found : String → Option Text) : List String :=
  (required.filter fun r => (found r.1).all (· = [])).map fun r => "## " ++ r.2

def assemble (found : String → Option Text) (extra : List Text) : Except String Contract :=
  if missing found ≠ [] then
    .error ("contract is missing or has an empty section: " ++ ", ".intercalate (missing found))
  else
    .ok ⟨(found "participation").getD [], (found "replies").getD [], (found "delegation").getD [],
      (found "workers").getD [], (found "debriefs").getD [], List.intercalate "\n\n".toList extra⟩

def parse (text : Text) : Except String Contract :=
  if Utf8.len text > LIMIT then .error "contract exceeds 64 KiB"
  else
    let hs := headings text
    let s := hs.zipIdx.foldl (add_section to_lowercase text hs) ⟨[], []⟩
    assemble (s.found.lookup ·) s.extra

/-! ## The grammar -/

def line_start (p : Place) : Bool := p.before.head?.all (· = '\n')

def line_end (p : Place) : Bool := p.after.head?.all (· = '\n')

/-- `\s*$` -/
def closing : Pattern Unit := do
  let _ ← greedy 0 none whitespace
  assert line_end

/-- `(.+?)\s*$` -/
def title_line : Pattern Text := do
  let title ← lazy 1 none (· ≠ '\n')
  closing
  return title

/-- `^##\s+(.+?)\s*$` -/
def grammar : Pattern Text := do
  assert line_start
  let _ ← literal (· = ·) ['#', '#']
  let _ ← greedy 1 none whitespace
  title_line

/-- The text from a match to the next one. -/
def between (m : Match Text) (next : Option (Match Text)) : Text :=
  m.stop.after.take (m.stop.after.length - next.elim 0 (·.start.after.length))

/-- The sections with their titles and bodies. -/
def sections (title : Text → Text) : List (Match Text) → List (Text × Text)
  | [] => []
  | m :: ms => (title m.value, trim (between m ms.head?)) :: sections title ms

/-- The title without the number signs before it. -/
def plain (title : Text) : Text := trim ((trim title).dropWhile (· = '#'))

/-- The contract that sections make: the first one of each known title, and the others in order. -/
def contract_of (sections : List (Text × Text)) : Except String Contract :=
  let key (s : Text × Text) := known (to_lowercase s.1)
  assemble (fun k => (sections.find? fun s => key s = k).map (·.2))
    ((sections.filter fun s => key s = "" && s.2 ≠ []).map fun s => titled s.1 s.2)

end Fridica.Config.ContractText
