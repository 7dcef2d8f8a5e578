import Mathlib.Data.Rat.Defs
import Mathlib.Data.List.Basic

/-!
# The messages of the event feed

How an arrival is recorded (`intake_tx` of `attention/mod.rs`), and the `message` events that
`control/events.rs` makes of the records. Records of other kinds give no such event.
-/

namespace Fridica.Control.Feed

/-! ## The ledger and the messages -/

structure Metadata where
  status : String
  kind : String
  owner : String
deriving DecidableEq

structure Message where
  event_id : String
  workspace : String
  channel : String
  ts : String
  thread_ts : Option String
  sender : String
  text : String
  attachments : Nat
  source : String
  meta_data : Option Metadata
deriving DecidableEq

abbrev Key := String × String × String

def Message.key (m : Message) : Key := (m.workspace, m.channel, m.ts)

inductive Payload
  | intake (message : Message) (owner : String)
  | other
deriving DecidableEq

structure Event where
  seq : Nat
  time : ℚ
  payload : Payload
deriving DecidableEq

structure ArrivedMessage where
  event_id : String
  workspace : String
  channel : String
  ts : String
  received_at : ℚ
deriving DecidableEq

def ArrivedMessage.key (m : ArrivedMessage) : Key := (m.workspace, m.channel, m.ts)

structure State where
  ledger : List Event
  messages : List ArrivedMessage

def empty : State := ⟨[], []⟩

/-- The record is an arrival under this event id. -/
def Event.takes (e : Event) (event_id : String) : Prop :=
  ∃ m owner, e.payload = .intake m owner ∧ m.event_id = event_id

instance (e : Event) (event_id : String) : Decidable (e.takes event_id) :=
  match h : e.payload with
  | .intake m owner => decidable_of_iff (m.event_id = event_id) (by simp [Event.takes, h])
  | .other => isFalse (by simp [Event.takes, h])

structure Store where
  keep_message : ArrivedMessage → List ArrivedMessage → Bool × List ArrivedMessage
  message_received_at : List ArrivedMessage → String → Option ℚ
  has_recent_intake : List Event → String → Nat → ℚ → Bool
  events_after : List Event → Nat → Nat → List Event

/-- The storage contract: one row per event id and per message. -/
structure Store.Contract (a : Store) : Prop where
  inserted : ∀ m rows, (a.keep_message m rows).1 = true ↔
    ∀ r ∈ rows, r.event_id ≠ m.event_id ∧ r.key ≠ m.key
  row_inserted : ∀ m rows, (a.keep_message m rows).1 = true →
    (a.keep_message m rows).2 = rows ++ [m]
  row_kept : ∀ m rows, (a.keep_message m rows).1 = false → (a.keep_message m rows).2 = rows
  received : ∀ rows, (rows.map (·.event_id)).Nodup → ∀ r ∈ rows,
    a.message_received_at rows r.event_id = some r.received_at
  not_received : ∀ rows event_id, (∀ r ∈ rows, r.event_id ≠ event_id) →
    a.message_received_at rows event_id = none
  recent : ∀ ledger event_id seq time, a.has_recent_intake ledger event_id seq time = true ↔
    ∃ e ∈ ledger, e.takes event_id ∧ e.time = time ∧ e.seq < seq
  after : ∀ ledger seq limit,
    a.events_after ledger seq limit = (ledger.filter (seq < ·.seq)).take limit

variable (a : Store)

/-! ## Arrivals -/

def record (payload : Payload) (now : ℚ) (s : State) : State :=
  { s with ledger := s.ledger ++ [⟨s.ledger.length + 1, now, payload⟩] }

/-- Every arrival is recorded. The message is kept unless it is there already. -/
def intake_tx (owner : String) (now : ℚ) (s : State) (msg : Message) : State :=
  let s := record (.intake msg owner) now s
  let row : ArrivedMessage := ⟨msg.event_id, msg.workspace, msg.channel, msg.ts, now⟩
  { s with messages := (a.keep_message row s.messages).2 }

/-- A committed transaction. One that fails leaves nothing. -/
inductive Transaction
  /-- An envelope of the socket, with its message if it has one. -/
  | receive (message : Option Message) (owner : String) (now : ℚ)
  /-- What a catch-up read of one channel. -/
  | catch_up (messages : List Message) (owner : String) (now : ℚ)
  | other (now : ℚ)

def Transaction.messages : Transaction → List Message
  | .receive message _ _ => message.toList
  | .catch_up messages _ _ => messages
  | .other _ => []

def commit (s : State) : Transaction → State
  | .receive message owner now =>
    message.toList.foldl (intake_tx a owner now) (record .other now s)
  | .catch_up messages owner now => messages.foldl (intake_tx a owner now) s
  | .other now => record .other now s

def run (ts : List Transaction) : State := ts.foldl (commit a) empty

def arrivals (ts : List Transaction) : List Message := ts.flatMap Transaction.messages

/-! ## The feed -/

structure Names where
  channels : String → Option String
  users : String → Option String

structure MessageEvent where
  cursor : Nat
  time : ℚ
  workspace : String
  channel : String
  channel_name : Option String
  thread : String
  ts : String
  sender : String
  sender_name : Option String
  mentions_owner : Bool
  text : String
  files : Nat
  source : String
  turn_status : Option String
  turn_kind : Option String

def MessageEvent.key (e : MessageEvent) : Key := (e.workspace, e.channel, e.ts)

/-- The message row keeps its first arrival time. A repeat at the very same time is found among the
records before this one. -/
def first (s : State) (event : String) (seq : Nat) (time : ℚ) : Bool :=
  match a.message_received_at s.messages event with
  | none => true
  | some stored =>
    if stored ≠ time then false else !a.has_recent_intake s.ledger event seq time

def contains (text mention : String) : Bool :=
  text.toList.tails.any (mention.toList.isPrefixOf ·)

/-- The `message` event of a record. -/
def project (names : Names) (s : State) (e : Event) : Option MessageEvent :=
  match e.payload with
  | .other => none
  | .intake m owner =>
    if first a s m.event_id e.seq e.time then
      some {
        cursor := e.seq
        time := e.time
        workspace := m.workspace
        channel := m.channel
        channel_name := names.channels m.channel
        thread := m.thread_ts.getD m.ts
        ts := m.ts
        sender := m.sender
        sender_name := names.users m.sender
        mentions_owner := contains m.text ("<@" ++ owner ++ ">")
        text := m.text
        files := m.attachments
        source := m.source
        turn_status := m.meta_data.map (·.status)
        turn_kind := m.meta_data.map (·.kind) }
    else none

def MAX_LIMIT : Nat := 1000

structure Page where
  events : List MessageEvent
  next : Nat
  scanned : Nat

/-- The feed after `after`: at most `limit` ledger records are scanned. -/
def read (names : Names) (s : State) (after limit : Nat) : Page :=
  let rows := a.events_after s.ledger after (max 1 (min limit MAX_LIMIT))
  ⟨rows.filterMap (project a names s), (rows.getLast?.map (·.seq)).getD after, rows.length⟩

/-- A client that resumes from `next` until a page scans nothing. -/
def follow (names : Names) (s : State) (limit : Nat) : Nat → Nat → List MessageEvent
  | 0, _ => []
  | fuel + 1, after =>
    let page := read a names s after limit
    page.events ++ if page.scanned = 0 then [] else follow names s limit fuel page.next

end Fridica.Control.Feed
