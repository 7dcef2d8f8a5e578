import Fridica.Exec.Process.Spec
import Fridica.Lib.Json
import Fridica.Lib.Lines

/-!
# The error of a parent backend

`backend_error` of `daemon/log.rs`: what the log shows of a call that ended with an error. Reading
JSON is a parameter.
-/

namespace Fridica.Daemon.Log

open Fridica.Json Fridica.Utf8
open Fridica.Lines (Text lines trim)

/-- Characters of a backend's error message the log shows. -/
def BACKEND_ERROR_CHARS : Nat := 300

def text (v : Value) : String := v.as_str.getD ""

/-- `u8::try_from` of a number that has 64 bits. -/
def byte (v : Value) : Option UInt8 :=
  v.as_u64.bind fun n => if n < 256 then some (UInt8.ofNat n) else none

/-- The ledger keeps a call's output as bytes (an array of numbers); a string is accepted too. -/
def decode : Value → Text
  | .array bytes => lossy (bytes.filterMap byte)
  | other => (text other).toList

def message (v : Value) : Option String :=
  ((v.field "error").field "message").as_str.or (v.field "message").as_str

/-- The message that an event of the backend carries. -/
def carried (event : Value) : Option String :=
  if (event.field "type").as_str = some "result" ∧ (event.field "is_error").as_bool = some true then
    (event.field "result").as_str
  else if (event.field "type").as_str = some "error" ∨
      (event.field "type").as_str = some "turn.failed" then message event
  else none

def one_line (message : Text) : Option Text :=
  let line := Exec.Process.line (message.map fun c => if Text.is_control c then ' ' else c)
  if line = [] then none
  else some (if line.length > BACKEND_ERROR_CHARS then line.take BACKEND_ERROR_CHARS ++ ['…'] else line)

variable (from_str : String → Option Value)

/-- The innermost message, for as many calls as there is fuel. -/
def innermost (fuel : Nat) (message : String) : Option String :=
  match fuel with
  | 0 => none
  | fuel + 1 =>
    match from_str message with
    | some inner =>
      match Log.message inner with
      | some nested => innermost fuel nested
      | none => some message
    | none => some message

/-- The message of a line of stdout, not unwrapped yet. -/
def event_message (line : Text) : Option String :=
  (from_str (String.ofList (trim line))).bind carried

def nonblank (line : Text) : Bool := trim line ≠ []

def backend_error (fuel : Nat) (output : Value) : Option (Option Text) :=
  let stdout := decode (output.field "stdout")
  let stderr := decode (output.field "stderr")
  match (lines stdout).reverse.findSome? (event_message from_str) with
  | some message => (innermost from_str fuel message).map fun m => one_line m.toList
  | none => some (((lines stderr).reverse.find? nonblank).bind one_line)

/-! ## What is shown -/

/-- A string in a JSON text has its two quotes around it there. -/
def Quoted : Prop := ∀ t v s, from_str t = some v → Value.Within s v → s.length < t.length

/-- The last element that gives something, and what it gives. -/
def Last {α β : Type} (f : α → Option β) (l : List α) (b : β) : Prop :=
  ∃ before a after, l = before ++ a :: after ∧ f a = some b ∧ ∀ x ∈ after, f x = none

/-- The message at the end of a chain of messages, each inside the one before. -/
inductive Innermost : String → String → Prop
  | here {m : String} (h : ∀ v, from_str m = some v → message v = none) : Innermost m m
  | inside {m nested last : String} {v : Value} (hv : from_str m = some v)
      (hm : message v = some nested) (h : Innermost nested last) : Innermost m last

/-- One line as the log shows it. -/
structure OneLine (t : Text) : Prop where
  nonempty : t ≠ []
  short : t.length ≤ 301
  no_control : ∀ c ∈ t, Text.is_control c = false
  tidy : Lines.Tidy t

/-- What is shown of an output: the last error event of stdout with a message, or else the last line
of stderr. -/
inductive Shows (output : Value) : Option Text → Prop
  | event {m last : String}
      (hm : Last (event_message from_str) (lines (decode (output.field "stdout"))) m)
      (h : Innermost from_str m last) : Shows output (one_line last.toList)
  | stderr {line : Text}
      (hnone : ∀ l ∈ lines (decode (output.field "stdout")), event_message from_str l = none)
      (h : Last (Option.guard nonblank) (lines (decode (output.field "stderr"))) line) :
      Shows output (one_line line)
  | nothing
      (hnone : ∀ l ∈ lines (decode (output.field "stdout")), event_message from_str l = none)
      (h : ∀ l ∈ lines (decode (output.field "stderr")), nonblank l = false) : Shows output none

end Fridica.Daemon.Log
