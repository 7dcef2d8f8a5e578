import Fridica.Lib.Lines
import Fridica.Lib.Utf8

/-!
# Progress notes

What is new in a job attempt's progress file since the last read, as one note.
-/

namespace Fridica.Progress

open Lines Utf8

/-- `Iterator::rposition` -/
def rposition {α : Type} (p : α → Bool) : List α → Option Nat
  | [] => none
  | x :: xs =>
    match rposition p xs with
    | some i => some (i + 1)
    | none => if p x then some 0 else none

/-- The paragraphs so far, and the lines of the one that is being read. -/
structure Paragraphs where
  paragraphs : List Text
  current : List Text

def Paragraphs.close (s : Paragraphs) : Paragraphs :=
  if s.current = [] then s
  else { paragraphs := s.paragraphs ++ [[Lines.NEWLINE].intercalate s.current], current := [] }

def Paragraphs.read (s : Paragraphs) (line : Text) : Paragraphs :=
  if trim line = [] then s.close
  else { s with current := s.current ++ [trim_end line] }

/-- The paragraphs of the lines, joined by a blank line. -/
def note_of (text : Text) : Text :=
  let paragraphs := ((lines text).foldl Paragraphs.read ⟨[], []⟩).close.paragraphs
  [Lines.NEWLINE, Lines.NEWLINE].intercalate ((paragraphs.map trim).filter (· ≠ []))

def marker : Text := "\n[… progress note cut]".toList

def cut (note : Text) (cap : Nat) : Option Text :=
  if note = [] then none
  else if note.length ≤ cap then some note
  else some (trim_end (note.take (cap - marker.length)) ++ marker)

structure Tracker where
  offset : Nat
deriving DecidableEq, Repr

namespace Tracker

def starting_at (contents : Option Bytes) : Tracker := ⟨contents.elim 0 List.length⟩

/-- The bytes after the offset up to their last newline, if there is one. -/
def complete (t : Tracker) (contents : Bytes) : Option Nat :=
  (rposition (· == Utf8.NEWLINE) (contents.drop t.offset)).map (· + 1)

/-- The note that `take` cuts. -/
def note (t : Tracker) (contents : Bytes) : Text :=
  match t.complete contents with
  | none => []
  | some complete => note_of (lossy ((contents.drop t.offset).take complete))

def take (t : Tracker) (contents : Bytes) (cap : Nat) : Option Text × Tracker :=
  if contents.length < t.offset then (none, ⟨contents.length⟩)
  else
    match t.complete contents with
    | none => (none, t)
    | some complete => (cut (t.note contents) cap, ⟨t.offset + complete⟩)

end Tracker

/-! ## Polling -/

/-- What was read at a poll, and the cap of its note. -/
abbrev Poll := Bytes × Nat

def notes : Tracker → List Poll → List Text
  | _, [] => []
  | t, (contents, cap) :: polls =>
    (t.take contents cap).1.toList ++ notes (t.take contents cap).2 polls

/-- Every note is within the cap of its poll. -/
def Fits : Tracker → List Poll → Prop
  | _, [] => True
  | t, (contents, cap) :: polls =>
    (t.note contents).length ≤ cap ∧ Fits (t.take contents cap).2 polls

instance Fits.decide : (t : Tracker) → (polls : List Poll) → Decidable (Fits t polls)
  | _, [] => inferInstanceAs (Decidable True)
  | t, (contents, cap) :: polls =>
    have := Fits.decide (t.take contents cap).2 polls
    inferInstanceAs (Decidable (_ ∧ _))

/-- A file that is only appended to: each content extends the one before it. -/
def Appends : Bytes → List Poll → Prop
  | _, [] => True
  | before, (contents, _) :: polls => before <+: contents ∧ Appends contents polls

/-- The content that was read last. -/
def last_of (before : Bytes) : List Poll → Bytes
  | [] => before
  | (contents, _) :: polls => last_of contents polls

/-- The lines that a newline ends, each read alone. -/
def complete_lines (bs : Bytes) : List Text := (bs.splitOn Utf8.NEWLINE).dropLast.map lossy

end Fridica.Progress
