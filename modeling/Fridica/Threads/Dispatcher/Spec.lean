import Fridica.Lib.Act
import Fridica.Lib.Utf8
import Mathlib.Data.List.Destutter
import Mathlib.Data.List.Sort
import Mathlib.Data.Rat.Defs
import Mathlib.Data.String.Basic

/-!
# Draining the outbox

`drain_checked` of `threads/dispatcher.rs`: posts are claimed in batches, held against the owner's
deny list and handed to the delivery adapter. The store, the adapter, the clock and the deny list
are outside, and anything may happen there between two calls.
-/

namespace Fridica.Threads.Dispatcher

open Fridica.Effect Fridica.Utf8

structure ClaimedPost where
  id : Nat
  text : String
  filename : String
  blob : Option Bytes
deriving DecidableEq

inductive DeliveryOutcome
  | sent (reference : String)
  | rate_limited (retry_after : ℚ)
  | rejected (code : String)
  | ambiguous (code : String)

inductive PostOutcome
  | sent
  | stale
  /-- It is tried again, or it is given up. -/
  | other
deriving DecidableEq

/-- What is called, on a state `σ` of all that is outside. -/
structure Outside (σ Rules : Type) where
  now : σ → ℚ × σ
  /-- The list in a file, when it can be read. -/
  deny_list : String → σ → Option Rules × σ
  no_rules : Rules
  /-- The rules that a text breaks. -/
  scan : String → Rules → List String
  note_unless_since : String → String → ℚ → ℚ → σ → σ
  ready_posts : ℚ → Nat → σ → List Nat × σ
  claim_post : ℚ → Nat → σ → Option ClaimedPost × σ
  /-- The adapter's outcome, when it comes in time. -/
  send : ClaimedPost → σ → Option DeliveryOutcome × σ
  finish_delivery : ClaimedPost → DeliveryOutcome → String → ℚ → σ → PostOutcome × σ

/-- What a pass does to posts. -/
inductive Event
  | claimed (post : ClaimedPost)
  | handed (post : ClaimedPost)
  | finished (post : ClaimedPost) (outcome : PostOutcome)

structure World (σ : Type) where
  outside : σ
  log : List Event

inductive Failure
  | stale
  /-- More rounds are needed. -/
  | unfinished
deriving DecidableEq

variable {σ Rules : Type} (out : Outside σ Rules)

abbrev Pass (σ α : Type) := Act (World σ) Failure α

/-- A call, and what it is noted as. -/
def call {α : Type} (f : σ → α × σ) (events : α → List Event) : Pass σ α := do
  let w ← get
  let r := f w.outside
  set (World.mk r.2 (w.log ++ events r.1))
  return r.1

def now : Pass σ ℚ := call out.now fun _ => []

/-- The texts that a post would publish. -/
def texts (post : ClaimedPost) : List String :=
  [post.text, post.filename] ++
    ((post.blob.bind from_utf8).map String.ofList).toList

def check (post : ClaimedPost) (rules : Rules) : List String :=
  let broken := (texts post).flatMap (out.scan · rules)
  (broken.mergeSort fun a b => a ≤ b).destutter (· ≠ ·)

/-- The code of a refused post names the rules, never the terms. -/
def egress_code (refused : List String) : String :=
  "+".intercalate <| refused.map fun rule =>
    "egress_" ++ String.ofList (rule.toList.map fun c => if c = ':' then '_' else c)

def send (post : ClaimedPost) : Pass σ DeliveryOutcome := do
  let outcome ← call (out.send post) fun _ => [.handed post]
  return outcome.getD (.ambiguous "delivery_timeout")

def deliver (rules : Rules) (post : ClaimedPost) : Pass σ DeliveryOutcome :=
  let refused := check out post rules
  if refused ≠ [] then return .rejected (egress_code refused) else send out post

structure Counts where
  sent : Nat
  attempted : Nat
  progressed : Bool

variable (owner : String)

/-- One post of a batch. -/
def attempt (rules : Rules) (s : Counts) (id : Nat) : Pass σ Counts := do
  let t ← now out
  let post ← call (out.claim_post t id) fun post => post.toList.map .claimed
  match post with
  | none => return s
  | some post =>
    let result ← deliver out rules post
    let t ← now out
    -- A stale attempt's late result commits before it is reported.
    let outcome ← call (out.finish_delivery post result owner t) fun outcome =>
      [.finished post outcome]
    let s := { s with attempted := s.attempted + 1 }
    if outcome = .stale then throw .stale
    else if outcome = .sent then return { s with sent := s.sent + 1, progressed := true }
    else return s

/-- The batches, for as many rounds as there is fuel. -/
def batches (rules : Rules) (limit : Nat) : Nat → Nat → Nat → Pass σ Nat
  | 0, _, _ => throw .unfinished
  | fuel + 1, sent, attempted => do
    if attempted < limit then
      let t ← now out
      let batch ← call (out.ready_posts t (min (limit - attempted) 20)) fun _ => []
      if batch = [] then return sent
      else
        let s ← batch.foldlM (attempt out owner rules) ⟨sent, attempted, false⟩
        if s.progressed then batches rules limit fuel s.sent s.attempted else return s.sent
    else return sent

/-- The rules of a pass: none without a list, and nothing when it cannot be read. -/
def rules (deny : Option String) : Pass σ (Option Rules) :=
  match deny with
  | none => return some out.no_rules
  | some path => call (out.deny_list path) fun _ => []

def drain_checked (fuel : Nat) (observe_only : Bool) (limit : Nat) (deny : Option String) :
    Pass σ Nat := do
  if observe_only then return 0
  else
    match ← rules out deny with
    | some rules => batches out owner rules limit fuel 0 0
    | none =>
      let t ← now out
      call (fun s => ((), out.note_unless_since "egress_deny_list_unavailable" "\x7b\x7d" t
        (t - 3600) s)) fun _ => []
      return 0

end Fridica.Threads.Dispatcher
