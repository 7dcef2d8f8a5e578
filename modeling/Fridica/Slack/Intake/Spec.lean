import Fridica.Lib.Act
import Fridica.Slack.Metadata.Spec
import Mathlib.Algebra.Order.Ring.Unbundled.Rat

/-!
# Taking messages in

`receive` of `slack/receiver.rs`, `intake_tx` of `attention/mod.rs`, and the two other ways to it:
the messages that a catch-up read, and those that the host hands over. The same message can come
several times, from the socket and from the history.
-/

namespace Fridica.Slack.Intake

open Fridica.Effect
open Fridica.Json (Value)

/-! ## Messages -/

structure Message where
  event_id : String
  workspace : String
  channel : String
  ts : String
  thread_ts : Option String
  sender : String
  text : String
  files : List Value
  source : String
  meta_ : Option Value
  attachments : List Value

def Message.root (msg : Message) : String := msg.thread_ts.getD msg.ts

def session_of (workspace channel root : String) : String :=
  workspace ++ ":" ++ channel ++ ":" ++ root

def Message.session_id (msg : Message) : String := session_of msg.workspace msg.channel msg.root

/-- A row of the messages. -/
structure ArrivedMessage where
  event_id : String
  workspace : String
  channel : String
  ts : String
  root_ts : String
  thread_ts : Option String
  sender : String
  text : String
  files : List Value
  source : String
  meta_ : Option Value
  received_at : ℚ
  attachments : List Value
  mentions_owner : Bool

structure Mention where
  id : String
  session : String
  dedup_key : String
  event_id : String
  created : ℚ
  due : ℚ

/-! ## The store -/

/-- What is written to the record of events. -/
inductive Entry
  | intake (message : Message) (owner : String) (grace : ℚ) (obligation_id : String)
    (work : Option Bool)
  | envelope (envelope : Value) (normalized : Option Message) (dropped_mention : Bool)
  | ignored (envelope_id kind : String)

variable {σ : Type}

/-- What a unit of work can do. -/
structure Store (σ : Type) where
  revive_or_note (session : String) (now : ℚ) : Act σ String Unit
  thread_waiting (session : String) : Act σ String Bool
  record (kind : String) (now : ℚ) (entry : Entry) : Act σ String Unit
  note (kind : String) (event_id : Value) (now : ℚ) : Act σ String Unit
  /-- Whether the message was not there. -/
  keep_message (message : ArrivedMessage) : Act σ String Bool
  open_thread (session workspace channel root : String) (created : ℚ) : Act σ String Unit
  record_links (workspace channel session text : String) (created : ℚ) : Act σ String Unit
  queue_message (session event_id : String) (now : ℚ) : Act σ String ℤ
  open_mention (mention : Mention) : Act σ String Unit
  /-- The notes and the watermark of a catch-up. -/
  finish_pass (now : ℚ) : Act σ String Unit

/-- Of a unit of work that fails nothing is left. -/
def transact {α : Type} (m : Act σ String α) : Act σ String α :=
  ExceptT.mk fun s => match outcome m s with
    | (.ok a, t) => (.ok a, t)
    | (.error e, _) => (.error e, s)

/-! ## The intake -/

structure Envelope where
  kind : String
  id : String
  value : Value

/-- What belongs to the libraries. -/
structure Outside where
  envelope : List UInt8 → Except String Envelope
  /-- A message with its metadata, which are not parsed. -/
  normalize : Value → String → Option (Message × Value)
  thread_id : String → Bool
  /-- Whether a timestamp is a number. -/
  number : String → Bool
  /-- The time of a timestamp that is a finite number. -/
  timestamp : String → Option ℚ

def slack_id (s : String) (first : List Char) : Bool :=
  match s.toList with
  | [] => false
  | c :: rest => c ∈ first && !rest.isEmpty && rest.all fun c => c.isUpper || c.isDigit

/-- What the configuration says of Slack, as it was checked when it was loaded. -/
structure Config where
  workspace : String
  channels : List String
  owner : String
  mention_grace : ℚ
  workspace_id : slack_id workspace ['T'] = true
  channel_ids : ∀ channel ∈ channels, slack_id channel ['C', 'G'] = true

def DAY : ℚ := 86400

variable (o : Outside) (store : Store σ) (config : Config)

def contains_mention (owner text : String) : Bool :=
  ("<@" ++ owner ++ ">").toList <:+: text.toList

def arrived (owner : String) (msg : Message) (now : ℚ) : ArrivedMessage where
  event_id := msg.event_id
  workspace := msg.workspace
  channel := msg.channel
  ts := msg.ts
  root_ts := msg.root
  thread_ts := msg.thread_ts
  sender := msg.sender
  text := msg.text
  files := msg.files
  source := msg.source
  meta_ := msg.meta_
  received_at := now
  attachments := msg.attachments
  mentions_owner := contains_mention owner msg.text

def dedup_key (workspace channel ts : String) : String :=
  "mention:" ++ workspace ++ ":" ++ channel ++ ":" ++ ts

def mention (msg : Message) (id : String) (now grace : ℚ) : Mention :=
  ⟨id, msg.session_id, dedup_key msg.workspace msg.channel msg.ts, msg.event_id, now, now + grace⟩

/-- Whether a message is work, and when its thread counts as created. A message of the history is
work unless it is old. -/
def worth (msg : Message) (owner : String) (now : ℚ) :
    Option ℚ → Act σ String (Bool × ℚ)
  | none => pure (true, now)
  | some cutoff => do
    match o.timestamp msg.ts with
    | none => throw "invalid catch-up time"
    | some timestamp =>
      let waiting ← store.thread_waiting msg.session_id
      let work : Bool := cutoff ≤ timestamp || contains_mention owner msg.text || waiting
      return (work, if work then now else min now timestamp)

/-- What becomes of a message that was not there. -/
def take_in (msg : Message) (owner : String) (now grace : ℚ) (obligation_id : String)
    (work : Bool) (created : ℚ) : Act σ String (Option ℤ) := do
  let session := msg.session_id
  store.open_thread session msg.workspace msg.channel msg.root created
  store.record_links msg.workspace msg.channel session msg.text created
  if msg.source = "self" ∨ ¬ work then return none
  else
    let inbox ← store.queue_message session msg.event_id now
    if contains_mention owner msg.text ∧ msg.sender ≠ owner then
      store.open_mention (mention msg obligation_id now grace)
      return some inbox
    else return some inbox

def intake_tx (msg : Message) (owner : String) (now grace : ℚ) (obligation_id : String)
    (history_before : Option ℚ) : Act σ String (Option ℤ) := do
  if grace ≤ 0 then throw "invalid intake time or grace"
  else if ¬ o.thread_id msg.session_id then throw "invalid thread id"
  else
    store.revive_or_note msg.session_id now
    let (work, created) ← worth o store msg owner now history_before
    store.record "intake" now
      (.intake msg owner grace obligation_id (history_before.map fun _ => work))
    let inserted ← store.keep_message (arrived owner msg now)
    if inserted then take_in store msg owner now grace obligation_id work created
    else return none

/-! ## The ways in -/

def scoped_ (payload : Value) : Bool :=
  (payload.field "team_id").as_str = some config.workspace &&
    ((payload.field "event").field "channel").as_str.any (config.channels.contains ·)

def normalize (payload : Value) (source : String) : Option Message :=
  (o.normalize payload source).map fun m => { m.1 with meta_ := parse_metadata m.2 }

/-- A mention of the owner in a message that is not supported. -/
def dropped_mention (payload : Value) (message : Option Message) : Bool :=
  message.isNone && ((payload.field "event").field "type").as_str = some "message" &&
    ((payload.field "event").field "text").as_str.any (contains_mention config.owner)

/-- Only supported in-scope event callbacks retain full content. -/
def full (envelope : Envelope) : Bool :=
  envelope.kind = "events_api" && scoped_ config (envelope.value.field "payload")

def enclosed (envelope : Envelope) : Option Message :=
  if full config envelope then normalize o (envelope.value.field "payload") "socket" else none

/-- The unit of work of an envelope. -/
def commit (envelope : Envelope) (now : ℚ) (obligation : String) : Act σ String Unit := do
  let payload := envelope.value.field "payload"
  let full := full config envelope
  let message := enclosed o config envelope
  let dropped := full && dropped_mention config payload message
  store.record "slack_envelope" now <|
    if full then .envelope envelope.value message dropped else .ignored envelope.id envelope.kind
  match message with
  | some message =>
    let _ ← intake_tx o store message config.owner now config.mention_grace obligation none
  | none => pure ()
  if dropped then store.note "slack_dropped_mention" (payload.field "event_id") now

/-- An acknowledgement becomes available only after the transaction commits. -/
def receive (bytes : List UInt8) (now : ℚ) (obligation : String) :
    Act σ String (Option String) := do
  match o.envelope bytes with
  | .error e => throw e
  | .ok envelope =>
    if envelope.kind = "hello" ∨ envelope.kind = "disconnect" then return none
    else
      transact (commit o store config envelope now obligation)
      return some envelope.id

/-- A message that a catch-up read, with the ID for its obligation. -/
def prepare (payload : Value × String) : Except String (Option (Message × String)) :=
  if ¬ scoped_ config payload.1 then .ok none
  else
    match ((payload.1.field "event").field "ts").as_str with
    | none => .error "missing catch-up timestamp"
    | some ts =>
      if o.number ts then .ok ((normalize o payload.1 "catchup").map (·, payload.2))
      else .error "invalid float literal"

def prepared (payloads : List (Value × String)) : Except String (List (Message × String)) :=
  (payloads.mapM (prepare o config)).map fun read => read.filterMap id

def catch_up (payloads : List (Value × String)) (now : ℚ) : Act σ String Unit :=
  match prepared o config payloads with
  | .error e => throw e
  | .ok messages => transact do
    messages.foldlM (fun _ m => do
      let _ ← intake_tx o store m.1 config.owner now config.mention_grace m.2 (some (now - DAY))) ()
    store.finish_pass now

/-- `Runtime::intake` -/
def intake (msg : Message) (now : ℚ) (obligation : String) : Act σ String (Option ℤ) := do
  if msg.workspace ≠ config.workspace ∨ msg.channel ∉ config.channels then
    throw "intake is outside configured Slack scope"
  else transact (intake_tx o store msg config.owner now config.mention_grace obligation none)

/-! ## Runs -/

inductive Arrival
  | socket (bytes : List UInt8) (now : ℚ) (obligation : String)
  | history (payloads : List (Value × String)) (now : ℚ)
  | host (msg : Message) (now : ℚ) (obligation : String)

def perform : Arrival → Act σ String Unit
  | .socket bytes now obligation => do let _ ← receive o store config bytes now obligation
  | .history payloads now => catch_up o store config payloads now
  | .host msg now obligation => do let _ ← intake o store config msg now obligation

def run (s : σ) (arrivals : List Arrival) : σ :=
  arrivals.foldl (fun s a => after (perform o store config a) s) s

end Fridica.Slack.Intake
