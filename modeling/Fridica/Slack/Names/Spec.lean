import Fridica.Control.Target.Spec
import Fridica.Lib.Infix

/-!
# Readable thread names

`Names` of `slack/names.rs`: owners see a thread as `#channel:TS` and type it back to the client,
which sends it to the daemon. A `str` is the bytes of its UTF-8 form.
-/

namespace Fridica.Slack

open Fridica.Control.Target (Text byte bytes)

structure ThreadId where
  workspace : Text
  channel : Text
  root_ts : Text
deriving DecidableEq

/-- Reading and writing a thread's ID, which another crate does. -/
structure Ids where
  from_str : Text → Option ThreadId
  to_string : ThreadId → Text

structure Names where
  workspace : Text
  /-- Configured channel IDs; only these resolve. -/
  configured : List Text
  /-- Recorded names of configured channels. -/
  channels : List (Text × Text)

def HASH : UInt8 := byte '#'

def COLON : UInt8 := byte ':'

variable (ids : Ids) (names : Names)

/-- `#name`, or the ID when no name was recorded. -/
def Names.channel (id : Text) : Text :=
  match names.channels.lookup id with
  | some n => HASH :: n
  | none => id

/-- A configured channel's ID from its ID, `name` or `#name`. -/
def Names.channel_id (reference : Text) : Option Text :=
  let wanted := reference.dropWhile (· = HASH)
  names.configured.find? fun id =>
    decide (id = wanted) || decide (names.channels.lookup id = some wanted)

/-- `#channel:TS` for a thread ID, or the ID when it is not in this workspace. -/
def Names.thread (id : Text) : Text :=
  match ids.from_str id with
  | some t =>
    if t.workspace = names.workspace then names.channel t.channel ++ COLON :: t.root_ts else id
  | none => id

/-- The thread ID for `#channel:TS`, `channel:TS` or `CHANNEL_ID:TS`; full thread IDs pass through
unchanged. -/
def Names.resolve (reference : Text) : Option Text :=
  match ids.from_str reference with
  | some id => some (ids.to_string id)
  | none =>
    match Infix.split_once COLON reference with
    | none => none
    | some (channel, ts) =>
      if ts = [] then none
      else (names.channel_id channel).map fun c => ids.to_string ⟨names.workspace, c, ts⟩

/-! ## What is read back -/

/-- An ID is `WORKSPACE:CHANNEL:TS`, of parts without a colon. -/
structure Ids.Lawful : Prop where
  to_string : ∀ t, ids.to_string t = t.workspace ++ COLON :: (t.channel ++ COLON :: t.root_ts)
  from_str : ∀ s t, ids.from_str s = some t → s = ids.to_string t
  parts : ∀ s t, ids.from_str s = some t →
    COLON ∉ t.workspace ∧ COLON ∉ t.channel ∧ COLON ∉ t.root_ts ∧ t.root_ts ≠ []

/-- Recorded names that tell the channels apart. -/
structure Names.Readable : Prop where
  nonempty : ∀ c n, names.channels.lookup c = some n → n ≠ []
  plain : ∀ c n, names.channels.lookup c = some n → COLON ∉ n ∧ HASH ∉ n
  distinct : ∀ c d n, names.channels.lookup c = some n → names.channels.lookup d = some n → c = d
  no_id : ∀ c n, names.channels.lookup c = some n → n ∉ names.configured

/-- The recorded name of a channel, or its ID. -/
def Names.label (c : Text) : Text := (names.channels.lookup c).getD c

/-- The bytes that the client admits. -/
def Typed (c : UInt8) : Prop :=
  Control.Target.is_ascii_alphanumeric c = true ∨ c = byte '-' ∨ c = byte '_' ∨ c = byte '.'

/-- What is shown of a thread can be typed, and resolves to the thread. -/
def Names.ReadsBack (id : Text) : Prop :=
  ∃ typed, Control.Target.thread (names.thread ids id) = some typed ∧
    names.resolve ids typed = some id

end Fridica.Slack
