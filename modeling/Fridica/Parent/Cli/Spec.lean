import Fridica.Lib.Checked
import Fridica.Lib.Json
import Fridica.Lib.Lines
import Fridica.Lib.Utf8

/-!
# What a parent call decided

`parse` of `parent/cli.rs` reads the output of one call: the result envelope of Claude, or the
events of Codex, line by line.
-/

namespace Fridica.Parent.Cli

open Fridica.Checked Fridica.Json Fridica.Utf8

abbrev Text := List Char

/-- The code of a `ParentFailure`. -/
abbrev ParentFailure := String

/-- `serde_json::from_str` -/
abbrev FromStr := Text → Option Value

variable (from_str : FromStr)

def read_json (code : String) (t : Text) : Except ParentFailure Value :=
  match from_str t with
  | some value => .ok value
  | none => .error code

/-! ## Claude -/

def denied (envelope : Value) : Bool :=
  (envelope.get "permission_denials").any fun v => v.as_array.all fun a => !a.isEmpty

def parse_claude (output : Text) : Except ParentFailure Value := do
  let envelope ← read_json from_str "parent_invalid_json" output
  refuse (envelope.is_object = false ∨ (envelope.field "is_error").as_bool.getD true = true)
    "parent_backend_error"
  refuse (denied envelope) "parent_tools_attempted"
  match (envelope.get "structured_output").filter (·.is_object) with
  | some value => return value
  | none => .error "parent_missing_structured_output"

/-! ## Codex -/

def EVENTS : List String :=
  ["thread.started", "turn.started", "turn.completed", "turn.failed", "error", "item.started",
    "item.updated", "item.completed"]

def FAILURES : List String := ["error", "turn.failed"]

def ITEMS : List String := ["reasoning", "agent_message", "error"]

/-- `v["type"].as_str()` -/
def type_of (v : Value) : Option String := (v.field "type").as_str

/-- `matches!(v["type"].as_str(), Some(..))` -/
def one_of (names : List String) (v : Value) : Bool := (type_of v).any names.contains

structure Scan where
  text : Option String
  started : Bool
  completed : Bool
  diagnostics : Bool

def Scan.start : Scan := ⟨none, false, false, false⟩

/-- What an item changes. An error item inside the turn is fatal. -/
def read_item (event item : Value) (s : Scan) : Except ParentFailure Scan := do
  refuse (item.is_object = false ∨ one_of ITEMS item = false) "parent_tools_attempted"
  let error := decide (type_of item = some "error")
  refuse (error && s.started) "parent_backend_error"
  let s := { s with diagnostics := s.diagnostics || error }
  if type_of event = some "item.completed" ∧ type_of item = some "agent_message" then
    return { s with text := (item.field "text").as_str }
  else return s

def read_event (event : Value) (s : Scan) : Except ParentFailure Scan := do
  refuse (event.is_object = false) "parent_invalid_envelope"
  refuse (one_of EVENTS event = false) "parent_invalid_envelope"
  refuse (one_of FAILURES event) "parent_backend_error"
  let s := { s with
    started := s.started || decide (type_of event = some "turn.started")
    completed := s.completed || decide (type_of event = some "turn.completed") }
  match event.get "item" with
  | some item => read_item event item s
  | none => return s

/-- Malformed lines cannot hide tool events. -/
def read_line (s : Scan) (line : Text) : Except ParentFailure Scan := do
  let event ← read_json from_str "parent_invalid_json" line
  read_event event s

def nonblank (output : Text) : List Text := (Lines.lines output).filter (Lines.trim · ≠ [])

def parse_codex (output : Text) : Except ParentFailure Value := do
  let s ← (nonblank output).foldlM (read_line from_str) Scan.start
  refuse (s.diagnostics && !s.completed) "parent_backend_error"
  match s.text with
  | none => .error "parent_missing_structured_output"
  | some text =>
    let result ← read_json from_str "parent_invalid_structured_output" text.toList
    refuse (result.is_object = false) "parent_invalid_structured_output"
    return result

def parse (backend : String) (output : Bytes) : Except ParentFailure Value :=
  match from_utf8 output with
  | none => .error "parent_invalid_utf8"
  | some output =>
    if backend = "claude" then parse_claude from_str output
    else if backend = "codex" then parse_codex from_str output
    else .error "parent_unknown_backend"

/-! ## What a decision rests on -/

def Item (name : String) (event : Value) : Prop :=
  ∃ item, event.get "item" = some item ∧ type_of item = some name

abbrev Event (name : String) (event : Value) : Prop := type_of event = some name

/-- A completed message of the agent. -/
def Message (event : Value) : Prop := Event "item.completed" event ∧ Item "agent_message" event

/-- The text of the message that the event carries. -/
def message_text (event : Value) : Option String :=
  (event.get "item").bind fun item => (item.field "text").as_str

/-- An event that reports no tool and no failure. -/
structure Harmless (event : Value) : Prop where
  object : event.is_object = true
  known : ∃ name ∈ EVENTS, Event name event
  no_failure : ∀ name ∈ FAILURES, ¬ Event name event
  no_tool : ∀ item, event.get "item" = some item →
    item.is_object = true ∧ ∃ name ∈ ITEMS, type_of item = some name

/-- The events of the output, and the object that the last message of the agent says. -/
structure Decides (output : Bytes) (events : List Value) (decision : Value) : Prop where
  lines : ∃ text, from_utf8 output = some text ∧
    List.Forall₂ (fun line event => from_str line = some event) (nonblank text) events
  harmless : ∀ event ∈ events, Harmless event
  early : ∀ before event after, events = before ++ event :: after → Item "error" event →
    ∀ e ∈ before ++ [event], ¬ Event "turn.started" e
  completes : (∃ event ∈ events, Item "error" event) → ∃ event ∈ events, Event "turn.completed" event
  message : ∃ before event after text, events = before ++ event :: after ∧ Message event ∧
    (∀ e ∈ after, ¬ Message e) ∧ message_text event = some text ∧
    from_str text.toList = some decision
  decision : decision.is_object = true

end Fridica.Parent.Cli
