import Fridica.Lib.Run
import Fridica.Threads.Validate.Spec

/-!
# Hand-offs between threads

What `commit` of `threads/actor.rs` queues for the linked threads, and the runs of many threads
that hand over to each other. Slack ids have no colon, so the id of a thread is its place.
-/

open Fridica.Checked Fridica.Text

namespace Fridica.Threads

/-! ## What a commit queues -/

/-- The audit record of a queued or skipped hand-off. -/
structure HandoffDetails where
  from_ : String
  inbox_id : Int
  kind : HandoffKind
  queued : Bool
deriving DecidableEq

structure QueuedHandoff where
  target : String
  from_ : String
  payload : Payload
  dedup_key : String
  queued : HandoffDetails
  skipped : HandoffDetails
deriving DecidableEq

/-- `context` is this thread's state, rendered for the target. -/
def queue_handoff (request : ParentRequest) (session : String) (id : Int) (class_ : Option String)
    (context : String) (index : Nat) (handoff : Handoff) : QueuedHandoff where
  target := request.session.workspace.getD "" ++ ":" ++ request.session.channel.getD "" ++ ":" ++
    handoff.thread
  from_ := session
  payload :=
    { Payload.empty with
      from_ := request.session.root_ts
      from_session := some session
      kind := some handoff.kind
      note := some (trim handoff.note)
      answers := handoff.answers
      class_
      hop := some (handoff_hop request + 1)
      context := some context }
  dedup_key := "handoff:" ++ toString id ++ ":" ++ toString index
  queued := ⟨session, id, handoff.kind, true⟩
  skipped := ⟨session, id, handoff.kind, false⟩

namespace Handoffs

/-! ## Runs -/

structure Place where
  workspace : String
  channel : String
  root_ts : String
deriving DecidableEq

def Place.id (p : Place) : String := p.workspace ++ ":" ++ p.channel ++ ":" ++ p.root_ts

structure Hop where
  source : Place
  target : Place
deriving DecidableEq

/-- An inbox item with the hand-offs that led to it, the first one first. -/
structure Item where
  place : Place
  kind : Kind
  payload : Payload
  chain : List Hop
deriving DecidableEq

structure World where
  items : List Item
  turns : List Item
deriving DecidableEq

structure About (request : ParentRequest) (i : Item) : Prop where
  kind : request.trigger.kind = i.kind
  payload : request.trigger.payload = i.payload
  workspace : request.session.workspace = some i.place.workspace
  channel : request.session.channel = some i.place.channel
  root_ts : request.session.root_ts = some i.place.root_ts

/-- The item that a queued hand-off becomes in the target thread. -/
def Item.handed (i : Item) (request : ParentRequest) (id : Int) (class_ : Option String)
    (context : String) (h : Handoff × Nat) : Item :=
  let target := { i.place with root_ts := h.1.thread }
  { place := target
    kind := .handoff
    payload := (queue_handoff request i.place.id id class_ context h.2 h.1).payload
    chain := i.chain ++ [⟨i.place, target⟩] }

/-- The ways in which one turn starts another one of its own thread. -/
def Indirect (kind : Kind) : Prop :=
  kind = .worker_result ∨ kind = .worker_interrupted ∨ kind = .post_refused ∨
    kind = .obligation_due

inductive Step (whitespace : Char → Bool) : World → World → Prop
  /-- A message, an instruction or an obligation that no turn opened. -/
  | start {w : World} {place : Place} {kind : Kind} {payload : Payload} :
    kind ≠ .handoff → Step whitespace w { w with items := w.items ++ [⟨place, kind, payload, []⟩] }
  /-- The jobs, refused posts and obligations of a turn come back to its thread. -/
  | follow {w : World} {i : Item} {kind : Kind} {payload : Payload} :
    i ∈ w.items → Indirect kind →
    Step whitespace w { w with items := w.items ++ [⟨i.place, kind, payload, i.chain⟩] }
  /-- A turn commits a valid decision. Some of its hand-offs may be skipped. -/
  | turn {w : World} {i : Item} {request : ParentRequest} {raw : Option Decision} {now : ℚ}
      {d : Decision} {id : Int} {class_ : Option String} {context : String} {new : List Item} :
    i ∈ w.items → About request i → validate whitespace raw request now = .ok d →
    new.Sublist (d.handoffs.zipIdx.map (i.handed request id class_ context)) →
    Step whitespace w ⟨w.items ++ new, if d.handoffs = [] then w.turns else w.turns ++ [i]⟩

abbrev Reach (whitespace : Char → Bool) : World → Prop :=
  Run.Reach (· = ⟨[], []⟩) (Step whitespace)

/-- At most two hops, none straight back to where the one before came from. -/
def Bounded (chain : List Hop) : Prop :=
  chain.length ≤ MAX_HANDOFF_HOPS ∧ chain.IsChain fun a b => b.target ≠ a.source

/-- The turn of a hand-off itself, or a turn without a hand-off in its past. -/
def Direct (i : Item) : Prop := i.kind = .handoff ∨ i.chain = []

instance (i : Item) : Decidable (Direct i) :=
  inferInstanceAs (Decidable (_ ∨ _))

end Handoffs

end Fridica.Threads
