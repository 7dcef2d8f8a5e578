import Fridica.Threads.Actor.Proofs

/-!
# Every run of a step
-/

open Fridica.Ask
open Fridica.Json (Value)

namespace Fridica.Threads.Turns

/-- The calls of the parent that one step may make. -/
def scripts : List (List CallKind) :=
  [[], [.triage], [.decide], [.triage, .decide], [.decide, .repair], [.triage, .decide, .repair],
    [.debrief]]

theorem calls_append {l : Trace} {e : Event Query Answer} :
    Trace.calls (l ++ [e]) = l.calls ++ ((answered e).map Prod.fst).toList := by
  unfold Trace.calls
  rw [asked_append, List.map_append]
  cases answered e <;> rfl

theorem MayCall.script {o : Outside} {a : Actor} {l : Trace} {kind : CallKind}
    {previous : Option Value} {errors : List String} (h : MayCall o a l kind previous errors) :
    l.calls ++ [kind] ∈ scripts := by
  have horder := h.order
  cases kind with
  | triage => simp only [horder]; decide
  | decide => rcases horder with horder | horder <;> rw [horder] <;> decide
  | repair => rcases horder with horder | horder <;> rw [horder] <;> decide
  | debrief => simp only [horder]; decide

section Runs

variable {o : Outside} {a : Actor} {session : String} {l : Trace} {r : Except String Step}

theorem legal_calls (h : (rules o a).Legal [] l) : l.calls ∈ scripts := by
  induction l using List.reverseRecOn with
  | nil => decide
  | append_singleton l e ih =>
    obtain ⟨hlegal, hin⟩ := Protocol.legal_concat h
    rw [calls_append]
    obtain ⟨question, answer⟩ := e
    cases question with
    | now => simpa [answered] using ih hlegal
    | tx op => simpa [answered] using ih hlegal
    | decide kind previous errors => exact MayCall.script hin

theorem run_in_order (hrun : Run (step o a session).run l r) {past rest : Trace}
    {e : Event Query Answer} (hl : l = past ++ e :: rest) : InOrder o a past e.question :=
  (wp_history step_ok hrun).1 past e rest hl

/-- A step calls the parent at most for a triage, a decision and one repair of it, or once for a
debrief, and only where each call may be made. -/
theorem calls_in_order (hrun : Run (step o a session).run l r) : l.calls ∈ scripts ∧
    ∀ past kind previous errors answer rest,
      l = past ++ ⟨.decide kind previous errors, answer⟩ :: rest →
        MayCall o a past kind previous errors :=
  ⟨legal_calls (wp_run step_ok hrun).1, fun _ _ _ _ _ _ hl => run_in_order hrun hl⟩

/-- What is committed was decided in this step and for its item, with all calls it took. -/
theorem commits_lawful (hrun : Run (step o a session).run l r) {past rest : Trace} {t : Turn}
    {effects : List Effect} {calls : List ParentTurn} {answer : Except String Unit}
    (hl : l = past ++ ⟨.tx (.commit t effects calls), answer⟩ :: rest) :
    MayCommit o a past t effects calls :=
  run_in_order hrun hl

/-- A step that ends releases its item exactly once, or found it gone, and one that fails did not
release it. What releases it is in order. -/
theorem released_once (hrun : Run (step o a session).run l r) :
    Ends (fun _ => Finished) (fun _ t => t.released = 0) r l ∧
      ∀ past e rest, l = past ++ e :: rest → releases e = true → InOrder o a past e.question :=
  ⟨(wp_history step_ok hrun).2, fun _ _ _ hl _ => run_in_order hrun hl⟩

end Runs

/-! ## A turn whose answers are refused -/

def outside : Outside where
  reply_hash := id
  repost_requested _ _ := false
  render_reply text details _ _ _ := (text, details)
  file_name := some
  stand_ins := []
  fork _ _ _ := ""
  whitespace c := c = ' '
  contains _ _ := false
  attention_gate _ _ := ⟨"respond", "addressed", 1⟩
  schema _ := none
  debrief _ := none
  prepare _ _ _ _ := .ok ⟨[], [], none⟩
  rate_limited := "rate_limited"
  rate_limit_retry := 300
  blocked _ := Decision.empty
  prevents_effects _ := false

def actor : Actor := ⟨none, "U1", 3, false⟩

def instruction : Loaded where
  inbox_id := 1
  session :=
    { id := some "s", workspace := some "T", channel := some "C", root_ts := some "1.0"
      status := some "waiting", version := some 1, parent_review_required := false
      linked_threads := [], notes_revision := none, wait_streak := none, no_progress := none
      last_reply_hash := none }
  trigger := ⟨.owner_instruction, "", .empty, none, none, none, none⟩
  history := []
  obligations := []
  asked := []
  obligations_eq := rfl
  report := none
  owed := []
  owed_eq := rfl
  control := some "active"
  turns := none
  reset_at := none
  last_unsolicited := none
  debriefed_turn := none
  busy := true
  message_ts := .ok 0
  debrief := ⟨none, none, none, none⟩
  progress := ⟨0, 0⟩

def empty_reads : Reads where
  version := 2
  active := true
  queries := ⟨0, fun _ => none, fun _ => none, fun _ => none, fun _ => none, fun _ _ => [],
    fun _ => none⟩
  notes := none
  worker_controls_current := true
  arrival _ := (false, false)
  last_unsolicited := none
  last_reply := none
  message_sender _ := none
  reserved_reply := none
  thread_route := ("C", "1.0")
  queue_post _ := .ok 1
  answer_queued _ := none
  deliverable_files _ := []
  jobs_running := false
  thread_decisions := []
  handoff_class := none
  change_obligations _ := true
  debrief_origin _ := none

/-- The parent always answers with nothing, and the thread moved on meanwhile. -/
def answers (_ : Trace) : (q : Query) → Answer q
  | .now => 0
  | .decide _ _ _ => .value .null
  | .tx op => .ok <| match op with
    | .claim_due _ => some (1, .owner_instruction)
    | .load _ => instruction
    | .thread_driver => ""
    | .worker_control_pending => false
    | .settle_turn _ | .settle_external _ _ | .settle_triage _ => true
    | .turn_live _ | .retry_turn _ => true
    | .reserve _ _ _ => .reserved
    | .record_call _ _ => 1
    | .commit_reads => empty_reads
    | .progress_reads _ _ _ => ⟨true, false, none⟩
    | .debrief_reads _ _ => ⟨true, 0⟩
    | .inbox_attempts _ => (0, "processing")
    | .assess | .record_result _ _ _ | .commit _ _ _ | .progress_write _ _ | .debrief_write _ _
    | .fail_turn _ => ()

def refused_run : Trace × Except String Step := play answers [] (step outside actor "s").run

theorem refused_run_is : Run (step outside actor "s").run refused_run.1 refused_run.2 :=
  play_run _ _ _

theorem refused_calls : refused_run.1.calls = [.decide, .repair] ∧
    refused_run.1.calls ∈ scripts ∧ ∀ past kind previous errors answer rest,
      refused_run.1 = past ++ ⟨.decide kind previous errors, answer⟩ :: rest →
        MayCall outside actor past kind previous errors :=
  ⟨by decide +kernel, calls_in_order refused_run_is⟩

theorem refused_commits : ∃ t effects calls,
    MayCommit outside actor refused_run.1.dropLast t effects calls ∧ effects = [.return_turn] :=
  ⟨_, _, _, commits_lawful refused_run_is (show refused_run.1 =
    refused_run.1.dropLast ++ [⟨.tx (.commit _ _ _), .ok ()⟩] from rfl), rfl⟩

theorem refused_released : Finished refused_run.1 ∧ refused_run.1.released = 1 :=
  ⟨(released_once refused_run_is).1, by decide +kernel⟩

end Fridica.Threads.Turns
