import Fridica.Github.Checks.Spec
import Mathlib.Algebra.Order.Field.Rat

/-!
# The states of links

`Links` of `github/links.rs`: any number of calls look their link up in one cache, read it through
requests that wait for one pause, and store what they read. Every step here is one critical section
or one answer of GitHub, and other calls step in between.
-/

namespace Fridica.Github.Links

open Fridica.Json

/-! ## Links and requests -/

inductive LinkKind
  | pull
  | issue
deriving DecidableEq

structure Link where
  owner : String
  repo : String
  kind : LinkKind
  number : Nat
deriving DecidableEq

inductive Operation
  | issue (number : Nat)
  | pull (number : Nat)
  | tree (head : String)
  | compare (base head : String)
  | checks (head : String) (page : Nat)
  | reviews (number page : Nat)

structure Request where
  repo : String
  operation : Operation

def to_ascii_lowercase (s : String) : String := String.ofList (s.toList.map Char.toLower)

namespace Link

def repository (link : Link) : String := link.owner ++ "/" ++ link.repo

def url (link : Link) : String :=
  "https://github.com/" ++ link.repository ++
    (if link.kind = .pull then "/pull/" else "/issues/") ++ toString link.number

def key (link : Link) : String :=
  to_ascii_lowercase link.repository ++ "#" ++ toString link.number

def request (link : Link) (operation : Operation) : Request := ⟨link.repository, operation⟩

end Link

def message : Failure → String
  | .invalid => "unexpected response from GitHub"
  | .not_found => "not found (missing or inaccessible to the authenticated owner)"
  | .authentication => "GitHub owner authentication is unavailable; check gh auth status"
  | .http status => "HTTP " ++ toString status
  | .rate_limited _ => "not fetched: GitHub rate limit"
  | .unavailable => "could not reach GitHub"
  | .recording => "GitHub context recording failed"

/-! ## Reading, one request after another -/

/-- Where a sequence of requests is. -/
inductive Strand (α : Type)
  | done (result : Except Failure α)
  /-- About to look whether requests are paused. -/
  | check (request : Request) (next : Except Failure Value → Strand α)
  | flying (request : Request) (next : Except Failure Value → Strand α)
  /-- About to record a pause. -/
  | pause (wait : ℚ) (result : Except Failure Value) (next : Except Failure Value → Strand α)
  | sleep (next : Strand α)

def Strand.bind {α β : Type} (next : Except Failure α → Strand β) : Strand α → Strand β
  | .done result => next result
  | .check request more => .check request fun result => (more result).bind next
  | .flying request more => .flying request fun result => (more result).bind next
  | .pause wait result more => .pause wait result fun result => (more result).bind next
  | .sleep more => .sleep (more.bind next)

def get (request : Request) : Strand Value := .check request .done

/-- Goes on with what was read. -/
def and_then {α β : Type} (s : Strand α) (next : α → Strand β) : Strand β :=
  s.bind fun
    | .error failure => .done (.error failure)
    | .ok a => next a

def object (link : Link) (operation : Operation) : Strand Value :=
  and_then (get (link.request operation)) fun value =>
    if !value.is_object || (value.field "number").as_u64 != some link.number then
      .done (.error .invalid)
    else .done (.ok value)

structure Aux where
  tree : Option String
  behind : Option Int64
  runs : Option Pages
  reviews : Option Pages

/-- The projections of `view.rs`: the fields of the objects that they build. -/
structure View where
  issue : String → Value → List (String × Value)
  pull : String → Value → Aux → List (String × Value)

/-- What the first requests of a link find. -/
inductive Found
  | item (fields : List (String × Value))
  | pull (value : Value) (head base : String)

def sha (value : String) : Bool :=
  (value.length == 40 || value.length == 64) &&
    value.toList.all fun c => c.isDigit || ('a' ≤ c && c ≤ 'f') || ('A' ≤ c && c ≤ 'F')

/-- The commits of a pull request. -/
def commits (pull : Value) : Except Failure Found :=
  match ((pull.field "head").field "sha").as_str.filter sha,
    ((pull.field "base").field "ref").as_str with
  | some head, some base => .ok (.pull pull head base)
  | _, _ => .error .invalid

/-- GitHub may not know yet whether an open pull request can be merged. -/
def unsettled (pull : Value) : Bool :=
  (pull.field "state").as_str == some "open" &&
    ((pull.field "mergeable_state").is_null ||
      (pull.field "mergeable_state").as_str == some "unknown")

def view_issue (view : View) (link : Link) (value : Value) : Found :=
  .item (view.issue link.repository value)

def settle_pull (link : Link) (pull : Value) : Strand Found :=
  if unsettled pull then
    .sleep (and_then (object link (.pull link.number)) fun pull => .done (commits pull))
  else .done (commits pull)

def fetch_pull (view : View) (link : Link) : Strand Found :=
  (object link (.pull link.number)).bind fun
    | .error .not_found =>
      if link.kind = .pull then
        and_then (object link (.issue link.number)) fun issue =>
          .done (.ok (view_issue view link issue))
      else .done (.error .not_found)
    | .error failure => .done (.error failure)
    | .ok pull => settle_pull link pull

/-- The first requests of `fetch`. -/
def fetch (view : View) (link : Link) : Strand Found :=
  if link.kind = .issue then
    and_then (object link (.issue link.number)) fun issue =>
      let pull_request := issue.field "pull_request"
      if pull_request.is_null || pull_request.as_bool == some false then
        .done (.ok (view_issue view link issue))
      else fetch_pull view link
  else fetch_pull view link

def Request.of_subject (link : Link) (subject : Subject) (page : Nat) : Request :=
  link.request <| match subject with
    | .checks head => .checks head page
    | .reviews number => .reviews number page

def pages (link : Link) (subject : Subject) : List Nat → List Value → Strand Pages
  | [], items => .done (.ok (items, false))
  | page :: rest, items =>
    and_then (get (.of_subject link subject page)) fun value =>
      match subject.batch value with
      | none => .done (.error .invalid)
      | some batch =>
        -- Never certify omitted entries as success, even for a broken server.
        if batch.length > 100 then .done (.ok (items ++ batch.take 100, false))
        else
          match subject with
          | .checks _ =>
            let total := (value.field "total_count").as_u64.getD (items ++ batch).length
            if (items ++ batch).length ≥ total ∨ batch.length < 100 then
              .done (.ok (items ++ batch, items_len_complete total batch.length page))
            else pages link subject rest (items ++ batch)
          | .reviews _ =>
            if batch.length < 100 then .done (.ok (items ++ batch, true))
            else pages link subject rest (items ++ batch)

def optionally {α : Type} (s : Strand α) : Strand (Option α) :=
  s.bind fun result => .done (optional result)

/-! ## One call -/

/-- The requests that run side by side. -/
structure Side where
  pull : Value
  tree : Strand (Option Value)
  behind : Strand (Option Value)
  runs : Strand (Option Pages)
  reviews : Strand (Option Pages)

def Side.start (link : Link) (pull : Value) (head base : String) : Side where
  pull := pull
  tree := optionally (get (link.request (.tree head)))
  behind := optionally (get (link.request (.compare base head)))
  runs := optionally (pages link (.checks head) [1, 2, 3] [])
  reviews := optionally (pages link (.reviews link.number) [1, 2, 3] [])

def Strand.failure {α : Type} : Strand α → Option Failure
  | .done (.error failure) => some failure
  | _ => none

def Strand.value {α : Type} : Strand α → Option α
  | .done (.ok a) => some a
  | _ => none

/-- A recording fault ends the side requests at once, and they end when all are done. -/
def Side.result (view : View) (link : Link) (s : Side) :
    Option (Except Failure (List (String × Value))) :=
  match (s.tree.failure <|> s.behind.failure <|> s.runs.failure <|> s.reviews.failure) with
  | some failure => some (.error failure)
  | none => do
    let tree ← s.tree.value
    let behind ← s.behind.value
    let runs ← s.runs.value
    let reviews ← s.reviews.value
    let tree := tree.bind fun v => ((v.field "tree").field "sha").as_str.filter sha
    let behind := behind.bind fun v => (v.field "behind_by").as_i64
    return .ok (view.pull link.repository s.pull ⟨tree, behind, runs, reviews⟩)

inductive Phase
  /-- The clock was read, the cache was not. -/
  | looking (began : ℚ)
  /-- A cached state is quoted, and the hit is being recorded. -/
  | hit (began : ℚ) (value : Value)
  | fetching (strand : Strand Found)
  | side (s : Side)
  | storing (expiry : ℚ) (value : Value)
  | ended (result : Except Failure Value)

structure Call where
  link : Link
  phase : Phase

/-! ## The cache -/

structure Item where
  key : String
  expiry : ℚ
  value : Value

structure Cache where
  items : List Item
  paused_until : ℚ

/-- What happened, in order. -/
inductive Event
  /-- A fetch of the link completed, with this value. -/
  | fetched (link : Link) (completed : ℚ) (value : Value)
  /-- A call that began then was answered from the cache. -/
  | served (link : Link) (began : ℚ) (value : Value)
  /-- A rate-limit failure was recorded. -/
  | paused (wait : ℚ)
  /-- A request was found not to be paused, and started. -/
  | called (request : Request) (at_time : ℚ)

structure World where
  clock : ℚ
  cache : Cache
  log : List Event

structure State where
  world : World
  calls : List Call

def World.happened (w : World) (e : Event) : World := { w with log := w.log ++ [e] }

def World.pause (w : World) (wait : ℚ) : World :=
  { w with cache := { w.cache with paused_until := max w.cache.paused_until wait } }

/-- What one request does next. -/
inductive Move
  | check
  | reply (result : Except Failure Value)
  | pause
  | wake

def clamp (after : ℚ) : ℚ := max 1 (min after 3600)

def Strand.move {α : Type} (w : World) : Move → Strand α → Option (Strand α × World)
  | .check, .check request next =>
    if w.cache.paused_until > w.clock then some (next (.error (.rate_limited 1)), w)
    else some (.flying request next, w.happened (.called request w.clock))
  | .reply (.error (.rate_limited after)), .flying _ next =>
    some (.pause (w.clock + clamp after) (.error (.rate_limited after)) next, w)
  | .reply result, .flying _ next => some (next result, w)
  | .pause, .pause wait result next =>
    some (next result, (w.pause wait).happened (.paused wait))
  | .wake, .sleep next => some (next, w)
  | _, _ => none

/-- One of the requests of a call. -/
inductive Slot
  | first
  | tree
  | behind
  | runs
  | reviews

def Phase.move (w : World) (m : Move) : Slot → Phase → Option (Phase × World)
  | .first, .fetching strand => (strand.move w m).map fun (x, w) => (.fetching x, w)
  | .tree, .side s => (s.tree.move w m).map fun (x, w) => (.side { s with tree := x }, w)
  | .behind, .side s => (s.behind.move w m).map fun (x, w) => (.side { s with behind := x }, w)
  | .runs, .side s => (s.runs.move w m).map fun (x, w) => (.side { s with runs := x }, w)
  | .reviews, .side s => (s.reviews.move w m).map fun (x, w) => (.side { s with reviews := x }, w)
  | _, _ => none

/-- `retain`, with what the clock says at each item. -/
def retain (key : String) (readings : List ℚ) (items : List Item) : List Item :=
  ((items.zip readings).filter fun x => x.1.key ≠ key ∧ x.1.expiry > x.2).map (·.1)

def make_room : List Item → List Item
  | [] => []
  | item :: items => if (item :: items).length ≥ 256 then make_room items else item :: items

/-- A time in seconds, rounded. -/
def rounded (seconds : ℚ) : Value := .number (.float (seconds + 1 / 2).floor)

def with_age (value : Value) (seconds : ℚ) : Value :=
  match value with
  | .object fields => .object (Value.insert "age_seconds" (rounded seconds) fields)
  | value => value

/-- The value of a fetch that failed, unless its recording did. -/
def error_value (link : Link) (failure : Failure) : Value :=
  .of_fields [("link", .string link.url), ("error", .string (message failure))]

section Steps

variable (view : View) (cache_seconds : ℚ)

/-- A fetch is over: its expiry counts from now. -/
def complete (w : World) (link : Link) : Except Failure (List (String × Value)) → Phase × World
  | .error .recording => (.ended (.error .recording), w)
  | .error failure =>
    (.storing (w.clock + cache_seconds) (error_value link failure),
      w.happened (.fetched link w.clock (error_value link failure)))
  | .ok fields =>
    (.storing (w.clock + cache_seconds) (.object fields),
      w.happened (.fetched link w.clock (.object fields)))

/-- What a call does between its requests. -/
def settle (w : World) (link : Link) : Phase → Option (Phase × World)
  | .fetching (.done (.ok (.pull pull head base))) =>
    some (.side (.start link pull head base), w)
  | .fetching (.done (.ok (.item fields))) => some (complete cache_seconds w link (.ok fields))
  | .fetching (.done (.error failure)) => some (complete cache_seconds w link (.error failure))
  | .side s => (s.result view link).map (complete cache_seconds w link)
  | _ => none

def look_up (w : World) (link : Link) : Phase → Option (Phase × World)
  | .looking began =>
    match w.cache.items.find? fun item => item.key = link.key ∧ item.expiry > began with
    | some item =>
      let fetched := item.expiry - cache_seconds
      some (.hit began (with_age item.value (max (began - fetched) 0)), w)
    | none => some (.fetching (fetch view link), w)
  | _ => none

def recorded (w : World) (link : Link) (ok : Bool) : Phase → Option (Phase × World)
  | .hit began value =>
    if ok then some (.ended (.ok value), w.happened (.served link began value))
    else some (.ended (.error .recording), w)
  | _ => none

/-- The readings of a clock that never goes back. -/
def Readings (clock : ℚ) (readings : List ℚ) : Prop := (clock :: readings).IsChain (· ≤ ·)

instance (clock : ℚ) (readings : List ℚ) : Decidable (Readings clock readings) :=
  inferInstanceAs (Decidable (List.IsChain _ _))

def store (w : World) (link : Link) (readings : List ℚ) : Phase → Option (Phase × World)
  | .storing expiry value =>
    if Readings w.clock readings ∧ readings.length = w.cache.items.length then
      let items := make_room (retain link.key readings w.cache.items) ++ [⟨link.key, expiry, value⟩]
      some (.ended (.ok (with_age value 0)),
        { w with cache := { w.cache with items }, clock := readings.getLastD w.clock })
    else none
  | _ => none

/-- What one call does. -/
inductive Deed
  | look_up
  | recorded (ok : Bool)
  | move (slot : Slot) (m : Move)
  | settle
  | store (readings : List ℚ)

def perform (w : World) (c : Call) : Deed → Option (Phase × World)
  | .look_up => look_up view cache_seconds w c.link c.phase
  | .recorded ok => recorded w c.link ok c.phase
  | .move slot m => c.phase.move w m slot
  | .settle => settle view cache_seconds w c.link c.phase
  | .store readings => store w c.link readings c.phase

inductive Action
  | tick (seconds : ℚ)
  | call (link : Link)
  | deed (call : Nat) (d : Deed)
  /-- A call that nobody waits for any more ends where it is. -/
  | drop (call : Nat)

def step (s : State) : Action → Option State
  | .tick seconds =>
    if 0 ≤ seconds then some { s with world.clock := s.world.clock + seconds } else none
  | .call link => some { s with calls := s.calls ++ [⟨link, .looking s.world.clock⟩] }
  | .deed i d => do
    let c ← s.calls[i]?
    let (phase, world) ← perform view cache_seconds s.world c d
    return { world, calls := s.calls.set i { c with phase } }
  | .drop i => do
    let c ← s.calls[i]?
    return { s with calls := s.calls.set i { c with phase := .ended (.error .unavailable) } }

def run (s : State) : List Action → Option State
  | [] => some s
  | a :: actions => (step view cache_seconds s a).bind (run · actions)

end Steps

def initial (clock : ℚ) : State := ⟨⟨clock, ⟨[], 0⟩, []⟩, []⟩

end Fridica.Github.Links
