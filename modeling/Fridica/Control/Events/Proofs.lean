import Fridica.Control.Events.Spec
import Fridica.Threads.Commit.Proofs
import Fridica.Threads.Results.Proofs

/-! # The event of a turn and its commit -/

open Fridica.Checked Fridica.Text Fridica.Threads

namespace Fridica.Control

/-! ## What the event says -/

theorem replied_iff (d : Decision) : "replied" ∈ outcome d ↔ sent d = true := by
  unfold outcome
  rw [List.mem_insertionSort]
  simp only [List.mem_append]
  constructor
  · rintro (((h | h) | h) | h)
    · by_contra hsent
      simp [hsent] at h
    · split at h <;> simp at h
    · -- No status reads as `replied`.
      split at h
      · split at h
        · rename_i r _ hr
          rcases hr with hr | hr <;> simp [hr, ReplyStatus.as_str] at h
        · cases h
      · cases h
    · split at h <;> simp at h
  · intro hsent
    simp [hsent]

theorem delegated_iff (d : Decision) : "delegated" ∈ outcome d ↔ d.delegations ≠ [] := by
  unfold outcome
  rw [List.mem_insertionSort]
  simp only [List.mem_append]
  constructor
  · rintro (((h | h) | h) | h)
    · split at h <;> simp at h
    · by_contra hnone
      simp [hnone] at h
    · split at h
      · split at h
        · rename_i r _ hr
          rcases hr with hr | hr <;> simp [hr, ReplyStatus.as_str] at h
        · cases h
      · cases h
    · split at h <;> simp at h
  · intro hsome
    simp [hsome]

/-! ## What the commit queues -/

def posts_reply : Effect → Bool
  | .queue_post post => post.kind = "reply"
  | _ => false

def starts_job : Effect → Bool
  | .queue_jobs jobs => !jobs.isEmpty
  | _ => false

/-- The item's reservation holds a post from before. -/
def posted_before (u : Reads) : Bool := u.reserved_reply.any fun r => r.post.isSome

theorem any_aside {l : List Effect} (h : ∀ e ∈ l, Aside e) :
    l.any posts_reply = false ∧ l.any starts_job = false := by
  rw [List.any_eq_false, List.any_eq_false]
  constructor
  · intro e he
    have haside := h e he
    cases e <;> simp_all [Aside, posts_reply]
  · intro e he
    have haside := h e he
    cases e <;> simp_all [Aside, starts_job]

theorem queue_answer_ok {t : Turn} {u : Reads} {channel thread_ts : String} {reply : Reply}
    {id : Int} {effects : List Effect}
    (h : queue_answer t u channel thread_ts reply = .ok (id, effects)) :
    trim reply.text ≠ "" ∧ effects.any posts_reply = !posted_before u ∧
      effects.any starts_job = false := by
  obtain ⟨htext, hqueued⟩ := queue_answer_cases h
  refine ⟨htext, ?_⟩
  unfold posted_before
  split at hqueued
  next hbefore => simp [hqueued, hbefore]
  next hnone =>
    obtain ⟨queued, rfl⟩ := hqueued
    simp [hnone, posts_reply, starts_job, reply_post]

theorem answer_ok {t : Turn} {c : Core} {u : Reads} {reply : Reply} {p : Progress}
    {effects : List Effect} (h : answer t c u reply = .ok (p, effects)) :
    effects.any posts_reply = (!t.duplicate c u reply && !posted_before u) ∧
      (t.duplicate c u reply = false → trim reply.text ≠ "") ∧
      effects.any starts_job = false := by
  have hcases := answer_cases h
  split at hcases
  next hdup => simp [hcases.2, hdup]
  next hdup =>
    obtain ⟨channel, thread_ts, post, queued, rest, hqueue, rfl, hrest, -⟩ := hcases
    obtain ⟨htext, hposts, hjobs⟩ := queue_answer_ok hqueue
    obtain ⟨hnone, hnojobs⟩ := any_aside hrest
    refine ⟨?_, fun _ => htext, ?_⟩
    · simp [List.any_append, hposts, hnone, hdup]
    · simp [List.any_append, hjobs, hnojobs]

def posts (t : Turn) (c : Core) (u : Reads) : Bool :=
  (t.rendered c u).reply.any fun r => r.send && !t.duplicate c u r && !posted_before u

theorem post_reply_ok {t : Turn} {c : Core} {u : Reads} {p : Progress} {effects : List Effect}
    (h : post_reply t c u = .ok (p, effects)) :
    effects.any posts_reply = posts t c u ∧ effects.any starts_job = false ∧
      ∀ r, (t.rendered c u).reply = some r → r.send → t.duplicate c u r = false →
        trim r.text ≠ "" := by
  unfold posts
  rcases post_reply_cases h with ⟨hnone, -, rfl⟩ | ⟨r, hreply, hsend, hanswer⟩
  · cases hreply : (t.rendered c u).reply with
    | none => simp
    | some r => simp_all
  · obtain ⟨hposts, htext, hjobs⟩ := answer_ok hanswer
    rw [hreply]
    refine ⟨by simp [hposts, hsend], hjobs, ?_⟩
    rintro r' heq - hdup
    cases heq
    exact htext hdup

theorem commit_ok {c : Core} {t : Turn} {u : Reads} {effects : List Effect}
    (h : commit c t u = .ok (.committed, effects)) :
    ∃ p posted rest, post_reply t c u = .ok (p, posted) ∧ effects = posted ++ rest ∧
      rest.any posts_reply = false ∧ rest.any starts_job = !t.work.jobs.isEmpty ∧
      .record (commit_record t c u) ∈ rest := by
  obtain ⟨p, posted, middle, last, hposted, rfl, hmiddle, hlast, hrecord⟩ := commit_cases h
  obtain ⟨hnone, hnojobs⟩ := any_aside hmiddle
  obtain ⟨hnone', hnojobs'⟩ := any_aside hlast
  refine ⟨p, posted, _, hposted, rfl, ?_, ?_, by simp [hrecord]⟩
  · simp only [List.any_append, List.any_cons, hnone, hnone']
    split <;> simp [posts_reply]
  · simp only [List.any_append, List.any_cons, hnojobs, hnojobs']
    split <;> simp [starts_job]

/-! ## The event and the commit -/

/-- The event of a record says `replied` and `delegated` exactly when its commit did so. -/
def Reported (record : CommitRecord) (effects : List Effect) : Prop :=
  ("replied" ∈ (project record).outcome ↔ effects.any posts_reply = true) ∧
    ("delegated" ∈ (project record).outcome ↔ effects.any starts_job = true)

/-- A reply with text that the commit does not post: it repeats the last one, or its reservation
holds a post from before. -/
def Withheld (c : Core) (t : Turn) (u : Reads) : Prop :=
  ∃ r, (t.rendered c u).reply = some r ∧ r.send ∧ trim r.text ≠ "" ∧
    (t.duplicate c u r ∨ posted_before u)

/-- **When the event of a turn tells what its commit did**: always, but for a withheld reply. -/
theorem turn_event_iff {c : Core} {t : Turn} {u : Reads} {effects : List Effect}
    (hwork : t.work.jobs.length = t.decision.delegations.length)
    (h : commit c t u = .ok (.committed, effects)) :
    .record (commit_record t c u) ∈ effects ∧
      (Reported (commit_record t c u) effects ↔ ¬ Withheld c t u) := by
  obtain ⟨p, posted, rest, hposted, rfl, hrest, hjobs, hrecord⟩ := commit_ok h
  obtain ⟨hposts, hnojobs, htext⟩ := post_reply_ok hposted
  refine ⟨List.mem_append_right _ hrecord, ?_⟩
  have hdelegated : "delegated" ∈ (project (commit_record t c u)).outcome ↔
      (posted ++ rest).any starts_job = true := by
    have hsome : t.work.jobs = [] ↔ t.decision.delegations = [] := by
      rw [← List.length_eq_zero_iff, hwork, List.length_eq_zero_iff]
    simp [project, delegated_iff, commit_record, Turn.rendered, List.any_append, hnojobs, hjobs,
      hsome]
  have hreplied : ("replied" ∈ (project (commit_record t c u)).outcome ↔
      (posted ++ rest).any posts_reply = true) ↔ ¬ Withheld c t u := by
    rw [show (project (commit_record t c u)).outcome = outcome (t.rendered c u) from rfl,
      replied_iff, List.any_append, hposts, hrest, Bool.or_false, sent, posts]
    unfold Withheld
    cases hreply : (t.rendered c u).reply with
    | none => simp
    | some r =>
      simp only [Option.any_some, Option.some.injEq, exists_eq_left']
      by_cases hsend : r.send = true
      · by_cases hdup : t.duplicate c u r = true
        · simp [hsend, hdup]
        · have htext := htext r hreply hsend (by simpa using hdup)
          simp [hsend, hdup, htext]
      · simp [hsend]
  unfold Reported
  rw [and_iff_left hdelegated, hreplied]

section Example

/-- A renderer that changes nothing, with the text as its own hash. -/
def plain : Core where
  reply_hash text := text
  repost_requested _ _ := false
  render_reply text details _ _ _ := (text, details)
  file_name path := some path
  stand_ins := []
  fork _ _ _ := ""

/-- A follow-up of the same requester, after a reply that said "Done". -/
def follow_up : ParentRequest where
  inbox_id := 7
  session := ⟨some "TTEAM:CROOM:100.1", some "TTEAM", some "CROOM", some "100.1", some "complete",
    some 3, false, [], none, none, none, some "Done"⟩
  trigger := ⟨.message, "e7", Payload.empty, some ⟨some "e7", some 107, some "UALICE",
    some "Thanks", none⟩, none, none, none⟩
  history := []
  obligations := []

def reads : Reads where
  version := 3
  active := true
  queries := Results.rowsView Results.empty
  notes := none
  worker_controls_current := true
  arrival _ := (false, false)
  last_unsolicited := none
  last_reply := some ⟨1, "sent", "UALICE"⟩
  message_sender _ := none
  reserved_reply := some ⟨none, .human⟩
  thread_route := ("CROOM", "100.1")
  queue_post _ := .ok 2
  answer_queued _ := none
  deliverable_files _ := []
  jobs_running := false
  thread_decisions := []
  handoff_class := some "human"
  change_obligations _ := true
  debrief_origin _ := none

def answering (text : String) (delegations : List Delegation) (jobs : List NewJob) : Turn where
  id := 7
  session := "TTEAM:CROOM:100.1"
  request := follow_up
  decision := { Decision.empty with
    reply := some ⟨text, "", .complete, [], .ongoing, true⟩
    delegations }
  work := ⟨[], jobs, none⟩
  verdict := "respond: addressed"
  turn := 4
  owner := "UOWNER"
  now := 200
  signal := 5
  reply_limit := 7000
  cooldown := none

instance (record : CommitRecord) (effects : List Effect) : Decidable (Reported record effects) :=
  inferInstanceAs (Decidable (_ ∧ _))

/-- The event of a suppressed repeat says `replied`, though its commit posts nothing. -/
theorem repeat_broken : ∃ effects, commit plain (answering "Done" [] []) reads =
    .ok (.committed, effects) ∧
      "replied" ∈ (project (commit_record (answering "Done" [] []) plain reads)).outcome ∧
      effects.any posts_reply = false ∧
      ¬ Reported (commit_record (answering "Done" [] []) plain reads) effects :=
  ⟨_, rfl, by decide, by decide, by decide⟩

theorem turn_event_iff_answering : ∃ effects,
    commit plain (answering "Started" [⟨"Run it", ""⟩] [⟨"j1", "w1", "Run it"⟩]) reads =
      .ok (.committed, effects) ∧
    Reported (commit_record (answering "Started" [⟨"Run it", ""⟩] [⟨"j1", "w1", "Run it"⟩]) plain
      reads) effects := by
  refine ⟨_, rfl, (turn_event_iff rfl rfl).2.mpr ?_⟩
  rintro ⟨r, hr, -, -, hwithheld⟩
  cases hr
  revert hwithheld
  decide

end Example

end Fridica.Control
