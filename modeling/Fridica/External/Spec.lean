import Mathlib.Data.List.Infix

/-!
# A driver's post

`post` of `threads/external.rs`, with the outbox it queues into as a parameter.
-/

namespace Fridica.External

/-! ## Data -/

structure Meta where
  owner : String
  session : String
  turn : Int
  status : String
  kind : String
  worker : String
  v : Nat
deriving DecidableEq

/-- `core::delivery::Post` -/
structure Post where
  idem_key : String
  session_id : String
  kind : String
  channel : String
  thread_ts : Option String
  text : String
  meta_ : Option Meta
  filename : String
  blob : Option String
  after : String
deriving DecidableEq

structure ThreadView where
  workspace : String
  channel : String
  root_ts : String
  turns : Int
deriving DecidableEq

structure Config where
  owner : String
  workspace : String
  channels : List String

inductive Target
  | thread (id : String)
  | channel (reference : String)

structure PostRequest where
  kind : String
  status : String
  text : String
  details : String
  client_id : Option String
deriving DecidableEq

/-- The outbox of the storage contract: `queue_post`, the row kept under a key, and the posts of
a session that were sent. -/
structure Outbox (σ : Type) where
  queue_post : σ → Post → Except String (Int × σ)
  lookup : σ → String → Option (Int × Post)
  sent_ts : σ → String → Int → Option String

def reused : String := "reused with different content"

/-- The storage contract on idempotency keys. -/
structure Outbox.Keyed {σ : Type} (o : Outbox σ) : Prop where
  same : ∀ {s p id}, o.lookup s p.idem_key = some (id, p) → o.queue_post s p = .ok (id, s)
  other : ∀ {s p id q}, o.lookup s p.idem_key = some (id, q) → q ≠ p →
    ∃ e, o.queue_post s p = .error e ∧ reused.toList <:+: e.toList
  stored : ∀ {s p id s'}, o.queue_post s p = .ok (id, s') →
    o.lookup s' p.idem_key = some (id, p) ∧
      ∀ k, k ≠ p.idem_key → o.lookup s' k = o.lookup s k

/-- What one unit of work sees. -/
structure Store (σ : Type) where
  outbox : σ
  thread : String → Option ThreadView
  names : String → Option String

inductive Response
  | answered (outbox_id : Int) (thread : Option String)
  | refused (status : Nat) (code : String)
  /-- The unit of work failed and is discarded. -/
  | failed (error : String)
deriving DecidableEq

/-! ## The code -/

def outbox_kind (kind : String) : Option String :=
  if kind = "study_claim" then some "study_claim"
  else if kind = "study_result" then some "study_result"
  else if kind = "study_root" then some "study_root"
  else if kind = "report" then some "driver_report"
  else none

def channel_id (config : Config) (names : String → Option String) (reference : String) :
    Option String :=
  let wanted := String.ofList (reference.toList.dropWhile (· = '#'))
  config.channels.find? fun id => id = wanted ∨ names id = some wanted

/-- Where a target's posts go. -/
structure Place where
  session : String
  workspace : String
  channel : String
  root : Option String
  turn : Int
deriving DecidableEq

def place {σ : Type} (config : Config) (s : Store σ) : Target → Except (Nat × String) Place
  | .thread id =>
    match s.thread id with
    | none => .error (404, "no_such_thread")
    | some view => .ok ⟨id, view.workspace, view.channel, some view.root_ts, view.turns⟩
  | .channel reference =>
    match channel_id config s.names reference with
    | none => .error (404, "unknown_channel")
    | some channel =>
      -- A root has no thread yet: the channel's own placeholder keeps it.
      .ok ⟨config.workspace ++ ":" ++ channel ++ ":channel", config.workspace, channel, none, 0⟩

/-- `fresh` is what `ids.next("post")` gives. -/
def post_key (place : Place) (request : PostRequest) (fresh : String) : String :=
  match request.client_id with
  | some id => "driver:" ++ place.session ++ ":" ++ id
  | none => "driver:" ++ fresh

def root_post (request : PostRequest) : Bool := request.kind = "study_root"

def thread_ts (place : Place) (request : PostRequest) : Option String :=
  if root_post request then none else place.root

def main_post (config : Config) (place : Place) (request : PostRequest) (kind key : String) :
    Post where
  idem_key := key
  session_id := place.session
  kind := kind
  channel := place.channel
  thread_ts := thread_ts place request
  text := request.text
  meta_ := some ⟨config.owner, place.session, place.turn, request.status, request.kind, "", 2⟩
  filename := ""
  blob := none
  after := ""

def details_post (place : Place) (request : PostRequest) (key : String) (id : Int) : Post where
  idem_key := key ++ ":details"
  session_id := place.session
  kind := "upload"
  channel := place.channel
  thread_ts := thread_ts place request
  text := ""
  meta_ := none
  filename := "details-" ++ toString id ++ ".md"
  blob := some request.details
  after := key

/-- The thread a root post started, once Slack has it. -/
def started {σ : Type} (o : Outbox σ) (s : σ) (place : Place) (request : PostRequest) (id : Int) :
    Option String :=
  if root_post request then
    ((o.sent_ts s place.session id).filter (· ≠ "")).map fun ts =>
      place.workspace ++ ":" ++ place.channel ++ ":" ++ ts
  else none

/-- The answer, and the outbox afterwards. -/
def post {σ : Type} (o : Outbox σ) (config : Config) (fresh : String) (target : Target)
    (request : PostRequest) (s : Store σ) : Response × σ :=
  match outbox_kind request.kind with
  | none => (.refused 400 "invalid_post_kind", s.outbox)
  | some kind =>
    match place config s target with
    | .error (status, code) => (.refused status code, s.outbox)
    | .ok place =>
      if place.channel ∉ config.channels then (.refused 404 "unknown_channel", s.outbox)
      else
        let key := post_key place request fresh
        match o.queue_post s.outbox (main_post config place request kind key) with
        | .error e =>
          if reused.toList <:+: e.toList then (.refused 409 "client_id_conflict", s.outbox)
          else (.failed e, s.outbox)
        | .ok (id, queued) =>
          if request.details = "" then (.answered id (started o queued place request id), queued)
          else
            match o.queue_post queued (details_post place request key id) with
            | .error e => (.failed e, s.outbox)
            | .ok (_, both) => (.answered id (started o both place request id), both)

end Fridica.External
