import Fridica.Threads.Actor.Spec
import Mathlib.Data.List.Infix

/-!
# The rules of a turn

What may be asked of the store and of the parent after what was asked and answered before.
-/

open Fridica.Ask
open Fridica.Json (Value)
open Fridica.Attention (Capacity Trigger)

namespace Fridica.Threads.Turns

abbrev Trace := List (Event Query Answer)

/-! ## What a run shows -/

def claimed : Event Query Answer → Option (Int × Kind)
  | ⟨.tx (.claim_due _), .ok item⟩ => item
  | _ => none

def loaded : Event Query Answer → Option Loaded
  | ⟨.tx (.load _), .ok request⟩ => some request
  | _ => none

/-- The thread is driven from outside. -/
def driven : Event Query Answer → Bool
  | ⟨.tx .thread_driver, .ok driver⟩ => driver = "external"
  | _ => false

/-- A reply is reserved for the item. -/
def granted : Event Query Answer → Bool
  | ⟨.tx (.reserve _ _ _), .ok .reserved⟩ => true
  | _ => false

def answered : Event Query Answer → Option (CallKind × ParentAnswer)
  | ⟨.decide kind _ _, answer⟩ => some (kind, answer)
  | _ => none

/-- The unit of work that decides what becomes of the claimed item. -/
def releases : Event Query Answer → Bool
  | ⟨.tx (.settle_turn _), .ok _⟩ => true
  | ⟨.tx (.settle_external _ _), .ok _⟩ => true
  | ⟨.tx (.settle_triage _), .ok _⟩ => true
  | ⟨.tx (.reserve _ _ _), .ok (.deferred _)⟩ => true
  | ⟨.tx (.retry_turn _), .ok _⟩ => true
  | ⟨.tx (.commit _ _ _), .ok _⟩ => true
  | ⟨.tx (.progress_write _ _), .ok _⟩ => true
  | ⟨.tx (.debrief_write _ _), .ok _⟩ => true
  | ⟨.tx (.fail_turn _), .ok _⟩ => true
  | _ => false

/-- The store says that the item is no longer in work. -/
def gone : Event Query Answer → Bool
  | ⟨.tx (.progress_reads _ _ _), .ok reads⟩ => !reads.processing
  | ⟨.tx (.inbox_attempts _), .ok (_, state)⟩ => state ≠ "processing"
  | _ => false

namespace Trace

variable (l : Trace)

def item : Option (Int × Kind) := l.findSome? claimed

def request : Option Loaded := l.findSome? loaded

def external : Bool := l.any driven

def reserved : Bool := l.any granted

def asked : List (CallKind × ParentAnswer) := l.filterMap answered

def calls : List CallKind := l.asked.map Prod.fst

def released : Nat := l.countP releases

end Trace

/-! ## The rules of a turn -/

/-- No call was made in between. -/
def Quiet (l t : Trace) : Prop := ∃ more, t = l ++ more ∧ ∀ e ∈ more, answered e = none

/-- The last answer, and the reading of the clock after it was recorded. -/
def CheckedAt (l : Trace) (answer : ParentAnswer) (now : ℚ) : Prop :=
  ∃ past seq recorded, Quiet
    (past ++ [⟨.tx (.record_result seq answer recorded), .ok ()⟩, ⟨.now, now⟩]) l

/-- A call of the parent. A reply is reserved before the parent is asked for one. -/
structure MayCall (o : Outside) (a : Actor) (l : Trace) (kind : CallKind) (previous : Option Value)
    (errors : List String) : Prop where
  acts : a.observe_only = false
  unreleased : l.released = 0
  request : ∃ id k r, l.item = some (id, k) ∧ l.request = some r ∧ r.control = some "active" ∧
    (l.external = true → for_driver k r = false) ∧ (kind = .triage → k = .message) ∧
    (kind = .debrief ↔ k = .debrief)
  reserved : kind ≠ .triage ↔ l.reserved = true
  order : match kind with
    | .triage | .debrief => l.calls = []
    | .decide => l.calls = [] ∨ l.calls = [.triage]
    | .repair => l.calls = [.decide] ∨ l.calls = [.triage, .decide]
  /-- A repair is told the refused answer and why it was refused. -/
  repair : if kind = .repair then ∃ r raw now e, l.request = some r ∧
      l.asked.getLast? = some (.decide, .value raw) ∧ CheckedAt l (.value raw) now ∧
      accept o (delegation_scope a l.external r) r raw now = .error e ∧
      previous = some raw ∧ errors = [e]
    else previous = none ∧ errors = []

/-- Where a committed decision comes from. -/
inductive Lawful (o : Outside) (a : Actor) (l : Trace) (kind : Kind) (r : Loaded) : Decision → Prop
  /-- The report of a worker, posted as it is. -/
  | direct {d : Decision} : kind.worker_result? = true → l.asked = [] →
    Direct.direct r.toResultRequest (a.config.any Config.report_fast_path) (reply_limit a) =
      .ok (some d) → Lawful o a l kind r d
  /-- The last answer of the parent passed the checks. -/
  | accepted {d : Decision} {raw : Value} {now : ℚ} {k : CallKind} : k = .decide ∨ k = .repair →
    l.asked.getLast? = some (k, .value raw) → CheckedAt l (.value raw) now →
    accept o (delegation_scope a l.external r) r raw now = .ok d → Lawful o a l kind r d
  | unavailable {answer : ParentAnswer} {k : CallKind} : k = .decide ∨ k = .repair →
    l.asked.getLast? = some (k, answer) → answer.response = none →
    Lawful o a l kind r (o.blocked false)
  /-- The answer to the repair was refused again. -/
  | invalid {raw : Value} {now : ℚ} {e : String} :
    l.asked.getLast? = some (.repair, .value raw) → CheckedAt l (.value raw) now →
    accept o (delegation_scope a l.external r) r raw now = .error e →
    Lawful o a l kind r (o.blocked true)

/-- What is kept of an answer of the parent. -/
def recorded : CallKind × ParentAnswer → CallKind × Option Value × Option String
  | (kind, answer) => (kind, answer.response, answer.failure)

/-- The calls are those that were made, with their answers. -/
def Kept (calls : List Call) (asked : List (CallKind × ParentAnswer)) : Prop :=
  calls.map (fun c => (c.kind, c.response, c.failure)) = asked.map recorded

structure MayCommit (o : Outside) (a : Actor) (l : Trace) (t : Turn) (effects : List Effect)
    (calls : List ParentTurn) : Prop where
  acts : a.observe_only = false
  unreleased : l.released = 0
  reserved : l.reserved = true
  decided : ∃ k r, l.item = some (t.id, k) ∧ l.request = some r ∧ r.control = some "active" ∧
    t.request = r.toParentRequest ∧ Lawful o a l k r t.decision ∧
    o.prepare t.decision r (delegation_scope a l.external r) true = .ok t.work
  effects : ∃ reads outcome, l.getLast? = some ⟨.tx .commit_reads, .ok reads⟩ ∧
    commit o.toCore t reads = .ok (outcome, effects)
  /-- Every call of the turn is stored with it. -/
  kept : ∃ made, Kept made l.asked ∧ calls = made.map parent_turn

/-- The write goes with the version of the thread that the turn read. -/
def Fenced (l : Trace) (id : Int) (version : Option Int) : Prop :=
  l.released = 0 ∧ ∃ k r, l.item = some (id, k) ∧ l.request = some r ∧ r.session.version = version

/-- What may be asked after `l`. -/
def InOrder (o : Outside) (a : Actor) (l : Trace) : Query → Prop
  | .decide kind previous errors => MayCall o a l kind previous errors
  | .tx (.commit t effects calls) => MayCommit o a l t effects calls
  | .tx (.settle_turn s) => Fenced l s.id (some s.version)
  | .tx (.settle_external s _) => Fenced l s.id (some s.version) ∧ l.external = true ∧ l.calls = []
  | .tx (.settle_triage t) => Fenced l t.id t.version ∧ l.calls = [.triage] ∧ l.reserved = false
  | .tx (.retry_turn t) => Fenced l t.id t.version ∧ l.calls ≠ []
  | .tx (.reserve id _ _) => l.released = 0 ∧ l.reserved = false ∧ ∃ k, l.item = some (id, k)
  | .tx (.progress_write _ _) => l.released = 0 ∧ l.calls = [] ∧ ∃ id k r reads,
    l.item = some (id, k) ∧ l.request = some r ∧ reads.processing = true ∧ l.getLast? = some
      ⟨.tx (.progress_reads r.trigger.ref r.progress.attempt r.progress.seq), .ok reads⟩
  | .tx (.debrief_write write _) => l.released = 0 ∧ l.reserved = true ∧ l.calls = [.debrief] ∧
    ∃ id k r turn reads, l.item = some (id, k) ∧ l.request = some r ∧
      l.getLast? = some ⟨.tx (.debrief_reads r.session.version turn), .ok reads⟩ ∧
      (write ≠ .stale → reads.due = true)
  | .tx (.fail_turn f) => l.released = 0 ∧ ∃ attempts k, l.item = some (f.id, k) ∧
    l.getLast? = some ⟨.tx (.inbox_attempts f.id), .ok (attempts, "processing")⟩ ∧
    f.state = if attempts ≥ 2 then "dropped" else "pending"
  | _ => True

abbrev rules (o : Outside) (a : Actor) : Protocol Query Answer Trace :=
  Protocol.history (InOrder o a)

/-! ## Growing traces -/

section Growing

variable {l : Trace} {e : Event Query Answer}

theorem item_append {i : Int × Kind} (h : l.item = some i) : Trace.item (l ++ [e]) = some i := by
  unfold Trace.item at h ⊢
  rw [List.findSome?_append, h]
  rfl

theorem item_claim (h : l.item = none) : Trace.item (l ++ [e]) = claimed e := by
  unfold Trace.item at h ⊢
  rw [List.findSome?_append, h, List.findSome?_singleton]
  rfl

theorem request_append {r : Loaded} (h : l.request = some r) :
    Trace.request (l ++ [e]) = some r := by
  unfold Trace.request at h ⊢
  rw [List.findSome?_append, h]
  rfl

theorem external_append : Trace.external (l ++ [e]) = (l.external || driven e) := by
  simp [Trace.external]

theorem reserved_append : Trace.reserved (l ++ [e]) = (l.reserved || granted e) := by
  simp [Trace.reserved]

theorem asked_append : Trace.asked (l ++ [e]) = l.asked ++ (answered e).toList := by
  unfold Trace.asked
  rw [List.filterMap_append]
  cases h : answered e <;> simp [h]

theorem released_append : Trace.released (l ++ [e]) = l.released + (releases e).toNat := by
  unfold Trace.released
  rw [List.countP_append]
  cases h : releases e <;> simp [h]

theorem Quiet.append {t : Trace} (h : Quiet l t) (he : answered e = none) : Quiet l (t ++ [e]) := by
  obtain ⟨more, rfl, hmore⟩ := h
  refine ⟨more ++ [e], by simp, fun f hf => ?_⟩
  rcases List.mem_append.mp hf with hf | hf
  · exact hmore f hf
  · rw [List.mem_singleton.mp hf, he]

theorem Quiet.trans {l' l'' : Trace} (h : Quiet l l') (h' : Quiet l' l'') : Quiet l l'' := by
  obtain ⟨more, rfl, hmore⟩ := h
  obtain ⟨more', rfl, hmore'⟩ := h'
  exact ⟨more ++ more', by simp, fun f hf => (List.mem_append.mp hf).elim (hmore f) (hmore' f)⟩

theorem CheckedAt.quiet {t : Trace} {answer : ParentAnswer} {now : ℚ} (h : CheckedAt l answer now)
    (hquiet : Quiet l t) : CheckedAt t answer now := by
  obtain ⟨past, seq, recorded, hl⟩ := h
  exact ⟨past, seq, recorded, hl.trans hquiet⟩

end Growing

end Fridica.Threads.Turns
