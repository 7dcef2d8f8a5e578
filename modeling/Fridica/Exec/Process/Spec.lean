import Fridica.Lib.Infix
import Fridica.Lib.Text
import Fridica.Lib.Utf8
import Mathlib.Data.List.Sort

/-!
# Diagnostics

`diagnostic` of `exec/process.rs`: what is logged of the output of a process, without the secrets and
tokens in it.
-/

namespace Fridica.Exec.Process

open Fridica.Infix Fridica.Utf8

abbrev Text := List Char

def TOKEN_PREFIXES : List Text :=
  ["xoxp-".toList, "xoxb-".toList, "xapp-".toList, "xoxe-".toList]

def REDACTED : Text := mark '[' ']' "redacted".toList

/-- The longest secrets come first. -/
def sorted (secrets : List String) : List String :=
  (secrets.filter (· ≠ "")).mergeSort fun a b => len b.toList ≤ len a.toList

def redact (secrets : List String) (text : Text) : Text :=
  (sorted secrets).foldl (fun text secret => Infix.replace secret.toList REDACTED 0 text) text

/-- What a token ends at. -/
def stops (c : Char) : Bool :=
  Text.whitespace c || c == '\'' || c == '"' || c == '<' || c == '>'

/-- `while let Some(start) = text.find(prefix)`, for as many rounds as there is fuel. -/
def erase (fuel : Nat) (text token : Text) : Option Text :=
  match fuel with
  | 0 => none
  | fuel + 1 =>
    match find token text with
    | none => some text
    | some (before, rest) => erase fuel (before ++ REDACTED ++ rest.dropWhile (!stops ·)) token

/-- `split_whitespace` and `join(" ")` -/
def line (text : Text) : Text :=
  [' '].intercalate ((text.splitOnP Text.whitespace).filter (· ≠ []))

def tail (limit : Nat) (t : Text) : Text := t.drop (t.length - limit)

def diagnostic (fuel : Nat) (bytes : Bytes) (limit : Nat) (secrets : List String) : Option Text := do
  let text ← TOKEN_PREFIXES.foldlM (erase fuel) (redact secrets (lossy bytes))
  return tail limit (line text)

end Fridica.Exec.Process
