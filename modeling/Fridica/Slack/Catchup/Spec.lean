import Fridica.Lib.Checked
import Fridica.Lib.Run
import Mathlib

/-!
# Catching up on a channel

`slack/catchup.rs`: the pages of one channel and its threads, the watermark, and the passes that
move it. Times are seconds. The code's `f64` arithmetic is exact here, and so is the `oldest` that
it prints into a request.
-/

open Fridica.Checked

namespace Fridica.Slack.Catchup

def MAX_WINDOW : ℚ := 7 * 86400
def OVERLAP : ℚ := 60
def DAY : ℚ := 86400
def PAGES : Nat := 10
def CORPUS_LIMIT : Nat := 32 * 1024 * 1024

/-! ## Pages -/

structure Item where
  ts : Option String
  reply_count : Nat
  text : String
deriving DecidableEq

inductive NextCursor
  | null
  | text (cursor : String)
  | other
deriving DecidableEq

structure Response where
  messages : Option (List Item)
  next_cursor : NextCursor
  has_more : Bool
  /-- The length of the encoded response. -/
  bytes : Nat
deriving DecidableEq

/-- A request for the channel's history, or for the replies to `root`. -/
structure PageRequest where
  channel : String
  oldest : ℚ
  root : Option String
  cursor : Option String
deriving DecidableEq

/-- One page: an error, Slack's refusal code, or a response. -/
abbrev History := PageRequest → Except String (Except String Response)

/-- What the functions of `fridica_slack` give. -/
structure Outside where
  timestamp : String → Option ℚ
  normalize : Item → Bool

structure Pages where
  items : List Item
  complete : Bool
  refused : Option String
  size : Nat
deriving DecidableEq

def cursor_of (next : NextCursor) : Except String (Option String) :=
  match next with
  | .null => return none
  | .text s =>
    if s = "" then return none
    else if s.utf8ByteSize ≤ 4096 then return some s
    else throw "invalid history cursor"
  | .other => throw "invalid history cursor"

/-- The loop of `pages`, with the number of pages still allowed. -/
def pages (history : History) (channel : String) (oldest : ℚ) (root : Option String) :
    Nat → Option String → List Item → Nat → Except String Pages
  | 0, _, items, size => return ⟨items, false, none, size⟩
  | fuel + 1, cursor, items, size => do
    match ← history ⟨channel, oldest, root, cursor⟩ with
    | .error code =>
      -- A refused thread is a gap in that thread only.
      if root.isSome then return ⟨items, true, some code, size⟩
      else throw ("Slack history rejected request (" ++ code ++ "); watermark unchanged")
    | .ok response =>
      let size := size + response.bytes
      refuse (size > CORPUS_LIMIT) "catch-up response budget exceeded; watermark unchanged"
      let some messages := response.messages | throw "history response lacks messages"
      let items := items ++ messages.filter fun v => v.ts.isSome
      match ← cursor_of response.next_cursor with
      | none => return ⟨items, !response.has_more, none, size⟩
      | some cursor => pages history channel oldest root fuel (some cursor) items size

/-! ## One reading -/

structure Start where
  oldest : ℚ
  roots : List String
  mark : Option ℚ

structure Watermark where
  mark : Option ℚ
  truncated_passes : Option Nat
deriving DecidableEq

/-- What one pass finds: the clock, the store's other answers and Slack's. -/
structure Pass where
  now : ℚ
  window : ℚ
  latest : Option ℚ
  recent_thread_roots : ℚ → List String
  history : History

def start (w : Watermark) (p : Pass) : Start :=
  let reach := match w.mark.or p.latest with
    | some s => s - OVERLAP
    | none => p.now - p.window
  let oldest := max (min (p.now - p.window) reach) (p.now - MAX_WINDOW)
  ⟨oldest, p.recent_thread_roots (oldest - DAY), w.mark⟩

abbrev Found := List (String × Item)

/-- A later item of the history replaces one with its timestamp. -/
def Found.insert (found : Found) (item : Item) : Found :=
  match item.ts with
  | some ts => found.filter (fun f => f.1 ≠ ts) ++ [(ts, item)]
  | none => found

/-- A reply does not. -/
def Found.or_insert (found : Found) (root : String) (item : Item) : Found :=
  match item.ts with
  | some ts => if ts ≠ root ∧ ∀ f ∈ found, f.1 ≠ ts then found ++ [(ts, item)] else found
  | none => found

structure Recent where
  kept : Found
  complete : Bool
  gaps : List (String × String)
  history_items : List Item
  reply_items : List Item

structure Threads where
  found : Found
  complete : Bool
  gaps : List (String × String)
  size : Nat
  items : List Item

def read_thread (o : Outside) (history : History) (channel : String) (oldest : ℚ) (t : Threads)
    (root : String) : Except String Threads := do
  if (o.timestamp root).isNone then return t
  let p ← pages history channel oldest (some root) PAGES none [] t.size
  return ⟨p.items.foldl (fun found item => found.or_insert root item) t.found, t.complete && p.complete,
    t.gaps ++ (p.refused.map fun code => (root, code)).toList, p.size, t.items ++ p.items⟩

/-- `recent`: everything since the start. -/
def recent (o : Outside) (history : History) (channel : String) (s : Start) :
    Except String Recent := do
  let top ← pages history channel s.oldest none PAGES none [] 0
  let found := top.items.foldl Found.insert []
  let roots := (s.roots ++ (found.filter fun f => f.2.reply_count > 0).map Prod.fst).dedup
  let t ← (roots.insertionSort (· ≤ ·)).foldlM (read_thread o history channel s.oldest)
    ⟨found, top.complete, [], top.size, []⟩
  let kept := t.found.filter fun f => (o.timestamp f.1).any fun ts => s.oldest ≤ ts
  return ⟨kept.insertionSort (fun a b => a.1 ≤ b.1), t.complete, t.gaps, top.items, t.items⟩

/-! ## One pass -/

structure Config where
  channel : String
  owner : String

structure Gap where
  oldest : ℚ
  before : ℚ
  passes : Nat
deriving DecidableEq

structure Committed where
  watermark : Watermark
  pinned : Bool
  gap : Option Gap
  complete : Bool
  oldest : ℚ
  read : Recent
  /-- The messages for the intake, the mentions of the owner that do not normalize, and the threads
  that Slack refused. -/
  prepared : Found
  dropped : List String
  skipped : List (String × String)

/-- The oldest time read, at most the pass's own. -/
def first_read (o : Outside) (now : ℚ) (kept : Found) : ℚ :=
  (kept.filterMap fun f => o.timestamp f.1).foldl min now

def mentions (owner text : String) : Bool := ("<@" ++ owner ++ ">").toList <:+: text.toList

/-- The unit of work that moves the watermark. -/
def commit (o : Outside) (config : Config) (w : Watermark) (p : Pass) (s : Start) (r : Recent) :
    Committed :=
  let runs := w.truncated_passes.getD 0 + 1
  let mark := if r.complete ∨ runs ≥ 2 then p.now else w.mark.getD (s.oldest + OVERLAP)
  let pinned := !r.complete && runs < 2
  { watermark := ⟨some mark, some (if pinned then runs else 0)⟩
    pinned
    gap := if !r.complete && runs ≥ 2 then some ⟨s.oldest, first_read o p.now r.kept, runs⟩ else none
    complete := r.complete
    oldest := s.oldest
    read := r
    prepared := r.kept.filter fun f => o.normalize f.2
    dropped := (r.kept.filter fun f => !o.normalize f.2 && mentions config.owner f.2.text).map
      fun f => "catchup:" ++ config.channel ++ ":" ++ f.1
    skipped := r.gaps }

/-- `run` for one channel. Passes are serialized, so the watermark is still the one it started
from. -/
def run (o : Outside) (config : Config) (w : Watermark) (p : Pass) : Except String Committed := do
  refuse (p.window ≤ 0) "invalid catch-up window"
  let s := start w p
  let r ← recent o p.history config.channel s
  refuse (w.mark ≠ s.mark) "catch-up watermark changed during pass"
  return commit o config w p s r

/-! ## Sequences of passes -/

structure State where
  watermark : Watermark
  /-- The number of committed passes and the start of the first one. -/
  passes : Nat
  first : ℚ
  returned : List Item
  gaps : List Gap

def fresh : State := ⟨⟨none, none⟩, 0, 0, [], []⟩

def State.after (s : State) (c : Committed) : State where
  watermark := c.watermark
  passes := s.passes + 1
  first := if s.passes = 0 then c.oldest else s.first
  returned := s.returned ++ c.read.history_items ++ c.read.reply_items
  gaps := s.gaps ++ c.gap.toList

/-- Slack's history as of a pass: a listing, the newest message first, with every message of the
channel up to the pass's clock, given out page by page. -/
structure Honest (o : Outside) (channel : String) (messages : Set String) (p : Pass) (oldest : ℚ)
    (rest : Option String → List Item) : Prop where
  all : ∀ ts ∈ messages, ∀ v, o.timestamp ts = some v → oldest ≤ v → v ≤ p.now →
    ∃ item ∈ rest none, item.ts = some ts
  newest_first : (rest none).Pairwise fun a b => ∀ s t v w, a.ts = some s → b.ts = some t →
    o.timestamp s = some v → o.timestamp t = some w → w < v
  /-- A page is what comes next, and only the last one has neither a cursor nor more. -/
  pages : ∀ cursor r messages, p.history ⟨channel, oldest, none, cursor⟩ = .ok (.ok r) →
    r.messages = some messages → ∃ more, rest cursor = messages ++ more ∧
      (∀ c, cursor_of r.next_cursor = .ok (some c) → rest (some c) = more) ∧
      (cursor_of r.next_cursor = .ok none → r.has_more = false → more = [])

/-- A pass over the channel commits, under a condition on it. -/
inductive Step (o : Outside) (config : Config) (messages : Set String)
    (P : State → Pass → Committed → Prop) : State → State → Prop
  | pass {s : State} {p : Pass} {c : Committed} {rest : Option String → List Item} :
    run o config s.watermark p = .ok c → Honest o config.channel messages p c.oldest rest →
    P s p c → Step o config messages P s (s.after c)

abbrev Reach (o : Outside) (config : Config) (messages : Set String)
    (P : State → Pass → Committed → Prop) : State → Prop :=
  Run.Reach (· = fresh) (Step o config messages P)

/-- The message was returned, or a gap note's range has it. -/
def Covered (s : State) (ts : String) (v : ℚ) : Prop :=
  (∃ item ∈ s.returned, item.ts = some ts) ∨ ∃ g ∈ s.gaps, g.oldest ≤ v ∧ v < g.before

/-- Every message from the first pass's start to the watermark is covered. -/
def NoneLost (o : Outside) (messages : Set String) (s : State) : Prop :=
  ∀ ts ∈ messages, ∀ v mark, o.timestamp ts = some v → s.watermark.mark = some mark →
    s.first ≤ v → v < mark → Covered s ts v

/-! ## Conditions on a pass -/

/-- The watermark is younger than the window. -/
def Recently (s : State) (p : Pass) : Prop :=
  ∀ mark, s.watermark.mark = some mark → p.now - mark < MAX_WINDOW

/-- The one committed pass was truncated: the watermark is its pin, `OVERLAP` past its start. -/
def State.pinned (s : State) : Prop := s.passes = 1 ∧ s.watermark.truncated_passes = some 1

/-- The outage fits the window. Behind a first pin it counts from the first pass's start. -/
def Short (s : State) (p : Pass) : Prop :=
  ∀ mark, s.watermark.mark = some mark →
    p.now - MAX_WINDOW ≤ mark ∧ (s.pinned → p.now - MAX_WINDOW ≤ mark - OVERLAP)

/-- No reply that the pass kept is older than all it read of the channel itself. -/
def RepliesNewer (o : Outside) (c : Committed) : Prop :=
  ∀ item ∈ c.read.reply_items, ∀ ts v, item.ts = some ts → o.timestamp ts = some v →
    c.oldest ≤ v → ∃ top ∈ c.read.history_items, ∃ ts' v', top.ts = some ts' ∧
      o.timestamp ts' = some v' ∧ v' ≤ v

/-- What a sequence of passes has to meet. -/
def Regular (o : Outside) (s : State) (p : Pass) (c : Committed) : Prop :=
  Short s p ∧ (c.gap.isSome → RepliesNewer o c)

end Fridica.Slack.Catchup
