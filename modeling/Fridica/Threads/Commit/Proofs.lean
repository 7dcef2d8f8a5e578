import Fridica.Threads.Commit.Spec

/-! # What a commit does, part by part -/

open Fridica.Checked Fridica.Text

namespace Fridica.Threads

variable {c : Core} {t : Turn} {u : Reads} {reply : Reply} {p : Progress} {effects : List Effect}

/-- An effect besides the reply's post, the jobs, the streak signal and the closing of the turn. -/
def Aside : Effect → Prop
  | .queue_post post => post.kind = "upload"
  | .queue_jobs _ | .open_streak_signal _ | .close_turn _ => False
  | _ => True

/-! ## The reply -/

theorem queue_answer_cases {channel thread_ts : String} {id : Int}
    (h : queue_answer t u channel thread_ts reply = .ok (id, effects)) :
    trim reply.text ≠ "" ∧
      if u.reserved_reply.any fun r => r.post.isSome then effects = []
      else ∃ queued,
        effects = [.queue_post (reply_post t channel thread_ts reply), .answer_queued queued] := by
  unfold queue_answer at h
  simp only [bind_ok, refuse_ok] at h
  obtain ⟨-, htext, h⟩ := h
  refine ⟨htext, ?_⟩
  cases hreserved : u.reserved_reply with
  | none => simp [hreserved] at h
  | some reserved =>
    simp only [hreserved] at h
    cases hpost : reserved.post with
    | some post =>
      simp only [hpost, pure_ok, Prod.mk.injEq] at h
      simp [← h.2, hpost]
    | none =>
      simp only [hpost, bind_ok, refuse_ok] at h
      obtain ⟨-, -, post, -, h⟩ := h
      split at h
      · cases h
      · simp only [pure_ok, Prod.mk.injEq] at h
        simp [← h.2, hpost]

theorem attachments_aside (h : attachments t c u reply = .ok effects) :
    ∀ e ∈ effects, Aside e := by
  unfold attachments at h
  simp only [bind_ok, pure_ok] at h
  obtain ⟨uploads, huploads, rfl⟩ := h
  intro e he
  obtain ⟨upload, hupload, he⟩ := List.mem_flatten.mp he
  obtain ⟨x, -, hx⟩ := mapM_ok huploads upload hupload
  simp only [bind_ok, pure_ok] at hx
  obtain ⟨id, -, rfl⟩ := hx
  simp only [List.mem_cons, List.not_mem_nil, or_false] at he
  rcases he with rfl | rfl
  · exact rfl
  · exact trivial

theorem answer_handoff_aside (reply : Reply) (post : Int) :
    ∀ e ∈ answer_handoff t reply post, Aside e := by
  unfold answer_handoff
  split <;> simp [Aside]

theorem answer_cases (h : answer t c u reply = .ok (p, effects)) :
    if t.duplicate c u reply then p = t.start ∧ effects = []
    else ∃ channel thread_ts post queued rest,
      queue_answer t u channel thread_ts reply = .ok (post, queued) ∧
        effects = queued ++ rest ∧ (∀ e ∈ rest, Aside e) ∧
        p = ⟨if reply.status = .waiting then t.start.waiting + 1 else 0,
          if c.reply_hash reply.text = t.start.hash ∨ t.decision.note.kind = .ack then
            t.start.quiet else 0, reply.status.as_str, c.reply_hash reply.text⟩ := by
  unfold answer at h
  by_cases hdup : t.duplicate c u reply = true
  · simp only [hdup, if_true, pure_ok, Prod.mk.injEq] at h
    rw [if_pos hdup]
    exact ⟨h.1.symm, h.2.symm⟩
  · rw [if_neg hdup]
    rw [Bool.not_eq_true] at hdup
    simp only [hdup, Bool.false_eq_true, if_false] at h
    cases hchannel : t.request.session.channel with
    | none => simp [hchannel] at h
    | some channel =>
      cases hroot : t.request.session.root_ts with
      | none => simp [hchannel, hroot] at h
      | some thread_ts =>
        simp only [hchannel, hroot, bind_ok, pure_ok, Prod.mk.injEq] at h
        obtain ⟨⟨post, queued⟩, hqueue, uploads, huploads, rfl, rfl⟩ := h
        refine ⟨channel, thread_ts, post, queued, _, hqueue, by simp only [List.append_assoc]; rfl,
          ?_, rfl⟩
        intro e he
        simp only [List.mem_append] at he
        rcases he with he | he | he | he
        · exact answer_handoff_aside reply post e he
        · rw [List.mem_singleton.mp he]
          exact trivial
        · exact attachments_aside huploads e he
        · split at he
          · rw [List.mem_singleton.mp he]
            exact trivial
          · cases he

theorem post_reply_cases (h : post_reply t c u = .ok (p, effects)) :
    ((t.rendered c u).reply.all fun reply => !reply.send) = true ∧ p = t.start ∧ effects = [] ∨
      ∃ reply, (t.rendered c u).reply = some reply ∧ reply.send = true ∧
        answer t c u reply = .ok (p, effects) := by
  unfold post_reply at h
  cases hreply : (t.rendered c u).reply with
  | none =>
    simp only [hreply, pure_ok, Prod.mk.injEq] at h
    exact .inl ⟨rfl, h.1.symm, h.2.symm⟩
  | some reply =>
    simp only [hreply] at h
    by_cases hsend : reply.send = true
    · rw [if_pos hsend] at h
      exact .inr ⟨reply, rfl, hsend, h⟩
    · rw [if_neg hsend, pure_ok, Prod.mk.injEq] at h
      exact .inl ⟨by simpa using hsend, h.1.symm, h.2.symm⟩

/-! ## The commit -/

theorem commit_effects_aside (posted : Bool) : ∀ e ∈ commit_effects t c u posted, Aside e := by
  unfold commit_effects
  dsimp only
  split <;> simp [Aside]

theorem commit_handoffs_aside : ∀ e ∈ commit_handoffs t c u, Aside e := by
  unfold commit_handoffs
  split <;> simp [Aside]

theorem enqueue_debrief_aside : ∀ e ∈ enqueue_debrief t c u, Aside e := by
  unfold enqueue_debrief
  split
  · split <;> simp [Aside]
  · simp

/-- The effects of a commit are those of its reply, the jobs, a streak signal when a count is at the
threshold, the closing of the turn with both counts, and others aside; the last one is the record. -/
theorem commit_cases (h : commit c t u = .ok (.committed, effects)) :
    ∃ p posted middle last, post_reply t c u = .ok (p, posted) ∧
      effects = posted ++ .add_workers t.work.workers :: .queue_jobs t.work.jobs :: (middle ++
        (if (settled t u p).waiting = t.signal ∨ (settled t u p).quiet = t.signal then
          [.open_streak_signal ("streak:" ++ t.session ++ ":" ++ toString t.id)] else []) ++
        .close_turn ⟨(settled t u p).status, t.reply_key, t.turn, (settled t u p).waiting,
          (settled t u p).quiet, (settled t u p).hash, t.decision.summary⟩ :: last) ∧
      (∀ e ∈ middle, Aside e) ∧ (∀ e ∈ last, Aside e) ∧ .record (commit_record t c u) ∈ last := by
  unfold commit at h
  simp only [bind_ok, refuse_ok] at h
  obtain ⟨-, -, h⟩ := h
  split at h
  · simp at h
  · split at h
    · simp at h
    · simp only [bind_ok, refuse_ok, pure_ok, Prod.mk.injEq, true_and] at h
      obtain ⟨⟨p, posted⟩, hposted, -, -, rfl⟩ := h
      refine ⟨p, posted,
        (if t.is_result then [.mark_reported (t.results.map ResultRow.id)] else []) ++
        (t.work.context.toList.map Effect.patch_context) ++
        commit_effects t c u (post_queued u posted) ++ commit_handoffs t c u ++
        [.change_obligations (t.decision.dispositions.map obligation_change),
          .open_asks (t.decision.asks.zipIdx.map (new_ask t))],
        enqueue_debrief t c u ++
          [.finish_turn (t.request.trigger.message.bind Message.event_id) t.verdict,
            .record (commit_record t c u)], hposted, ?_, ?_, ?_, by simp⟩
      · simp only [List.append_assoc, List.cons_append, List.nil_append]
      · intro e he
        simp only [List.mem_append] at he
        rcases he with (((he | he) | he) | he) | he
        · split at he
          · rw [List.mem_singleton.mp he]
            exact trivial
          · cases he
        · obtain ⟨context, -, rfl⟩ := List.mem_map.mp he
          exact trivial
        · exact commit_effects_aside _ e he
        · exact commit_handoffs_aside e he
        · simp only [List.mem_cons, List.not_mem_nil, or_false] at he
          rcases he with rfl | rfl <;> exact trivial
      · intro e he
        simp only [List.mem_append, List.mem_cons, List.not_mem_nil, or_false] at he
        rcases he with he | rfl | rfl
        · exact enqueue_debrief_aside e he
        · exact trivial
        · exact trivial

end Fridica.Threads
