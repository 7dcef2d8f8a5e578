import Fridica.Control.Events.Proofs
import Fridica.Threads.Commit.Proofs
import Fridica.Threads.Streaks.Spec

/-! # The signals of a thread's commits -/

open Fridica.Checked Fridica.Streak

namespace Fridica.Threads

variable {c : Core} {t : Turn} {u : Reads} {effects : List Effect}

/-! ## What a commit writes -/

/-- Nothing is said of streaks. -/
def Silent (effects : List Effect) : Prop :=
  ∀ e ∈ effects, e.signal? = false ∧ e.thread? = none

theorem Silent.append {l l' : List Effect} (h : Silent l) (h' : Silent l') : Silent (l ++ l') := by
  intro e he
  rcases List.mem_append.mp he with he | he
  · exact h e he
  · exact h' e he

theorem silent_nil : Silent [] := List.forall_mem_nil _

theorem Silent.any {l : List Effect} (h : Silent l) : l.any Effect.signal? = false := by
  rw [List.any_eq_false]
  intro e he
  simp [(h e he).1]

theorem Silent.findSome {l : List Effect} (h : Silent l) :
    l.findSome? Effect.thread? = none := by
  rw [List.findSome?_eq_none_iff]
  exact fun e he => (h e he).2

theorem silent_aside {l : List Effect} (h : ∀ e ∈ l, Aside e) : Silent l := by
  intro e he
  have haside := h e he
  cases e <;> simp_all [Aside, Effect.signal?, Effect.thread?]

theorem queue_answer_silent {channel thread_ts : String} {reply : Reply} {id : Int}
    (h : queue_answer t u channel thread_ts reply = .ok (id, effects)) : Silent effects := by
  obtain ⟨-, hqueued⟩ := queue_answer_cases h
  split at hqueued
  · exact hqueued ▸ silent_nil
  · obtain ⟨queued, rfl⟩ := hqueued
    simp [Silent, Effect.signal?, Effect.thread?]

/-! ## The counts -/

/-- What a move makes of a count. -/
def moved (m : Move) (n : Int) : Int :=
  match m with
  | .extend => n + 1
  | .hold => n
  | .reset => 0

theorem answer_counts {reply : Reply} {p : Progress} (h : answer t c u reply = .ok (p, effects)) :
    Silent effects ∧
      if t.duplicate c u reply then p = t.start
      else p.waiting = (if reply.status = .waiting then t.start.waiting + 1 else 0) ∧
        p.quiet = if c.reply_hash reply.text = t.start.hash ∨ t.decision.note.kind = .ack then
          t.start.quiet else 0 := by
  have hcases := answer_cases h
  split at hcases
  next hdup =>
    rw [if_pos hdup]
    exact ⟨hcases.2 ▸ silent_nil, hcases.1⟩
  next hdup =>
    obtain ⟨channel, thread_ts, post, queued, rest, hqueue, rfl, hrest, rfl⟩ := hcases
    rw [if_neg hdup]
    exact ⟨(queue_answer_silent hqueue).append (silent_aside hrest), rfl, rfl⟩

/-- The counts after the reply, before the jobs are looked at. -/
structure Replied (t : Turn) (posted : Option Reply) (c : Core) (p : Progress) : Prop where
  none : posted = none → p.waiting = t.start.waiting ∧ p.quiet = t.start.quiet
  some : ∀ reply, posted = some reply →
    p.waiting = (if reply.status = .waiting then t.start.waiting + 1 else 0) ∧
      p.quiet = if c.reply_hash reply.text = t.start.hash ∨ t.decision.note.kind = .ack then
        t.start.quiet else 0

theorem post_reply_counts {p : Progress} (h : post_reply t c u = .ok (p, effects)) :
    Silent effects ∧ Replied t (t.posted c u) c p := by
  unfold Turn.posted
  rcases post_reply_cases h with ⟨hnone, rfl, rfl⟩ | ⟨reply, hreply, hsend, hanswer⟩
  · have hposted : ((t.rendered c u).reply.filter fun r => r.send && !t.duplicate c u r) = none := by
      cases hreply : (t.rendered c u).reply with
      | none => rfl
      | some reply => simp_all
    rw [hposted]
    exact ⟨silent_nil, fun _ => ⟨rfl, rfl⟩, fun _ h => by cases h⟩
  · obtain ⟨hsilent, hcounts⟩ := answer_counts hanswer
    refine ⟨hsilent, ?_⟩
    rw [hreply]
    by_cases hdup : t.duplicate c u reply = true
    · rw [if_pos hdup] at hcounts
      rw [Option.filter_some, if_neg (by simp [hsend, hdup]), hcounts]
      exact ⟨fun _ => ⟨rfl, rfl⟩, fun _ h => by cases h⟩
    · rw [if_neg hdup] at hcounts
      rw [Option.filter_some, if_pos (by simp [hsend, hdup])]
      refine ⟨fun h => (by cases h), fun r hr => ?_⟩
      rw [← Option.some.inj hr]
      exact hcounts

theorem settled_waiting {p : Progress} (h : Replied t (t.posted c u) c p) :
    (settled t u p).waiting = moved (t.waiting_move c u) t.thread.wait_streak := by
  have hp : (settled t u p).waiting = if t.work.jobs ≠ [] then 0 else p.waiting := by
    unfold settled
    split <;> split <;> rfl
  rw [hp, Turn.waiting_move]
  by_cases hjobs : t.work.jobs ≠ []
  · rw [if_pos hjobs, if_pos hjobs]
    rfl
  · rw [if_neg hjobs, if_neg hjobs]
    cases hposted : t.posted c u with
    | none => exact (h.none hposted).1
    | some reply =>
      rw [(h.some reply hposted).1]
      dsimp only
      split <;> rfl

theorem settled_quiet {p : Progress} (h : Replied t (t.posted c u) c p) :
    (settled t u p).quiet = moved (t.quiet_move c u) t.thread.no_progress := by
  have hp : (settled t u p).quiet =
      if t.work.jobs ≠ [] ∧ t.decision.note.kind ≠ .ack then 0 else p.quiet := by
    unfold settled
    by_cases hjobs : t.work.jobs ≠ []
    · by_cases hack : t.decision.note.kind ≠ .ack
      · split <;> simp [hjobs, hack]
      · split <;> simp [hjobs, hack]
    · split <;> simp [hjobs]
  rw [hp, Turn.quiet_move]
  by_cases hack : t.decision.note.kind = .ack
  · rw [if_neg (by simp [hack]), if_neg (by simp [hack])]
    cases hposted : t.posted c u with
    | none => exact (h.none hposted).2
    | some reply =>
      rw [(h.some reply hposted).2, if_pos (.inr hack)]
      rfl
  · by_cases hjobs : t.work.jobs ≠ []
    · rw [if_pos ⟨hjobs, hack⟩, if_pos ⟨hack, .inl hjobs⟩]
      rfl
    · rw [if_neg (by simp [hjobs])]
      cases hposted : t.posted c u with
      | none =>
        rw [if_neg (by simp [hjobs])]
        exact (h.none hposted).2
      | some reply =>
        rw [(h.some reply hposted).2]
        by_cases hhash : c.reply_hash reply.text = t.start.hash
        · rw [if_pos (.inl hhash), if_neg (by simp [hjobs, hhash])]
          rfl
        · rw [if_neg (by simp [hhash, hack]), if_pos ⟨hack, .inr (by simp [hhash])⟩]
          rfl

theorem commit_counts (h : commit c t u = .ok (.committed, effects)) :
    let after : Thread := ⟨moved (t.waiting_move c u) t.thread.wait_streak,
      moved (t.quiet_move c u) t.thread.no_progress⟩
    effects.findSome? Effect.thread? = some after ∧
      (effects.any Effect.signal? = true ↔
        after.wait_streak = t.signal ∨ after.no_progress = t.signal) := by
  obtain ⟨p, posted, middle, last, hposted, rfl, hmiddle, hlast, -⟩ := commit_cases h
  obtain ⟨hsilent, hcounts⟩ := post_reply_counts hposted
  have hmiddle := silent_aside hmiddle
  have hlast := silent_aside hlast
  dsimp only
  rw [← settled_waiting hcounts, ← settled_quiet hcounts]
  simp only [List.any_append, List.any_cons, List.findSome?_append, List.findSome?_cons,
    hsilent.any, hsilent.findSome, hmiddle.any, hmiddle.findSome, hlast.any]
  by_cases hsignal : (settled t u p).waiting = t.signal ∨ (settled t u p).quiet = t.signal
  · simp [hsignal, Effect.signal?, Effect.thread?]
  · simp [hsignal, Effect.signal?, Effect.thread?]

/-! ## A run -/

/-- The row counts what is watched. -/
structure Watched (row : Thread) (w : Watches) : Prop where
  waiting : row.wait_streak = w.waiting.count
  quiet : row.no_progress = w.quiet.count
  waiting_sound : w.waiting.Sound
  quiet_sound : w.quiet.Sound

theorem watched_start : Watched ⟨0, 0⟩ .start := ⟨rfl, rfl, fresh_sound, fresh_sound⟩

theorem moved_next (w : Watch) (k : Nat) (m : Move) :
    moved m w.count = ((w.set k).next m).count := by
  cases m <;> rfl

theorem moved_eq {w : Watch} {k : Nat} (hk : 0 < k) (m : Move) :
    moved m w.count = k ↔ (w.set k).comes m ∨ m = .hold ∧ w.count = k := by
  unfold Watch.comes
  cases m with
  | extend =>
    show (w.count : Int) + 1 = k ↔ _
    simp only [true_and, Watch.set_count, Watch.set_threshold, reduceCtorEq, false_and, or_false]
    omega
  | hold =>
    show (w.count : Int) = k ↔ _
    simp
  | reset =>
    show (0 : Int) = k ↔ _
    simp only [reduceCtorEq, false_and, or_false, iff_false]
    omega

theorem quiet_move_ne_hold (t : Turn) (c : Core) (u : Reads) : t.quiet_move c u ≠ .hold := by
  unfold Turn.quiet_move
  dsimp only
  split <;> simp

variable {row after : Thread} {w : Watches} {turn : Turn × Reads} {signal : Bool}

/-- One commit: the row goes on counting what is watched, and a signal is opened when a streak
comes to the threshold or the waiting streak stands at it. -/
theorem commit_signal (hw : Watched row w) (hk : 0 < turn.1.signal)
    (h : row.commit c turn = some (signal, after)) :
    Watched after (w.next c turn) ∧ (signal = true ↔ w.comes c turn ∨ w.stands c turn) := by
  unfold Thread.commit at h
  split at h
  · rename_i hrow
    split at h
    · rename_i effects hcommit
      obtain ⟨hafter, hsignal⟩ := commit_counts hcommit
      rw [hafter, hrow, hw.waiting, hw.quiet] at h
      simp only [Option.map_some, Option.some.injEq, Prod.mk.injEq] at h
      obtain ⟨rfl, rfl⟩ := h
      refine ⟨⟨moved_next _ _ _, moved_next _ _ _, (hw.waiting_sound.set _).next _,
        (hw.quiet_sound.set _).next _⟩, ?_⟩
      rw [hsignal, hrow, hw.waiting, hw.quiet, moved_eq hk, moved_eq hk]
      unfold Watches.comes Watches.stands Watches.set
      have hquiet := quiet_move_ne_hold turn.1 c turn.2
      tauto
    · cases h
  · cases h

theorem due_iff (hw : Watched row w) (turn : Turn × Reads) :
    w.due c turn = true ↔ w.comes c turn ∨ w.late c turn := by
  unfold Watches.due Watches.comes Watches.late Watches.set
  rw [Bool.or_eq_true_iff, (hw.waiting_sound.set _).due_iff, (hw.quiet_sound.set _).due_iff]
  tauto

theorem signal_iff_meets (hw : Watched row w) (hk : 0 < turn.1.signal)
    (h : row.commit c turn = some (signal, after)) :
    signal = w.due c turn ↔ w.Meets c turn := by
  rw [Bool.eq_iff_iff, (commit_signal hw hk h).2, due_iff hw]
  unfold Watches.Meets
  by_cases hcomes : w.comes c turn
  · simp [hcomes]
  · simp [hcomes]

/-- From a row that counts what is watched, the signals are those that are due exactly when every
commit meets the condition. -/
theorem run_signals (hw : Watched row w) {turns : List (Turn × Reads)}
    (hk : ∀ turn ∈ turns, 0 < turn.1.signal) {signals : List Bool}
    (h : row.run c turns = some signals) : signals = w.run c turns ↔ w.AllMeet c turns := by
  induction turns generalizing row w signals with
  | nil =>
    rw [← Option.some.inj h]
    exact ⟨fun _ => trivial, fun _ => rfl⟩
  | cons turn turns ih =>
    obtain ⟨⟨signal, after⟩, hcommit, h⟩ := Option.bind_eq_some_iff.mp h
    obtain ⟨rest, hrest, rfl⟩ := Option.map_eq_some_iff.mp h
    have hturn := hk turn List.mem_cons_self
    have hnext := (commit_signal hw hturn hcommit).1
    have hrun := ih hnext (fun t ht => hk t (List.mem_cons_of_mem _ ht)) hrest
    show signal :: rest = w.due c turn :: (w.next c turn).run c turns ↔ _
    rw [List.cons.injEq, signal_iff_meets hw hturn hcommit, hrun]
    rfl

/-! ## One threshold -/

instance (w : Watches) (c : Core) (turn : Turn × Reads) : Decidable (w.comes c turn) :=
  inferInstanceAs (Decidable (_ ∨ _))

/-- The commits that bring a streak to the threshold. -/
def Watches.arrivals (w : Watches) (c : Core) : List (Turn × Reads) → List Bool
  | [] => []
  | turn :: turns => decide (w.comes c turn) :: (w.next c turn).arrivals c turns

theorem set_next (w : Watch) (k : Nat) (m : Move) : ((w.set k).next m).set k = (w.set k).next m := by
  unfold Watch.set
  cases m <;> simp [Watch.next]

theorem due_arrivals {k : Nat} (hk : 0 < k) {turns : List (Turn × Reads)}
    (hturns : ∀ turn ∈ turns, turn.1.signal = k) (hwaiting : (w.waiting.set k).Exact)
    (hquiet : (w.quiet.set k).Exact) : w.run c turns = w.arrivals c turns := by
  induction turns generalizing w with
  | nil => rfl
  | cons turn turns ih =>
    obtain rfl := hturns turn List.mem_cons_self
    have hdue : w.due c turn = decide (w.comes c turn) := by
      rw [Bool.eq_iff_iff, decide_eq_true_eq]
      unfold Watches.due Watches.comes Watches.set
      rw [Bool.or_eq_true_iff, hwaiting.due_iff, hquiet.due_iff]
    have hrest := ih (w := w.next c turn) (fun t ht => hturns t (List.mem_cons_of_mem _ ht))
      (by
        unfold Watches.next Watches.set
        rw [set_next]
        exact hwaiting.next hk _)
      (by
        unfold Watches.next Watches.set
        rw [set_next]
        exact hquiet.next hk _)
    show w.due c turn :: (w.next c turn).run c turns = _
    rw [hdue, hrest]
    rfl

/-! ## The signals -/

/-- **The streak signals of a thread**: in a run of its committed turns a signal is opened at just
the commits at which one is due, if and only if every commit meets the condition. Under one
threshold it is due when a streak first reaches it. -/
theorem signals_iff (c : Core) (turns : List (Turn × Reads))
    (hk : ∀ turn ∈ turns, 0 < turn.1.signal) (signals : List Bool)
    (h : Thread.run c ⟨0, 0⟩ turns = some signals) :
    (signals = Watches.start.run c turns ↔ Watches.start.AllMeet c turns) ∧
      ∀ k, (∀ turn ∈ turns, turn.1.signal = k) → 0 < k →
        Watches.start.run c turns = Watches.start.arrivals c turns :=
  ⟨run_signals watched_start hk h, fun _ hturns hpos =>
    due_arrivals hpos hturns (fresh_exact hpos) (fresh_exact hpos)⟩

section Example

/-- A turn of the example thread, on a row of it. -/
def step (row : Thread) (reply : Option Reply) (signal : Nat) : Turn × Reads :=
  ({ Control.answering "" [] [] with
      request := { Control.follow_up with
        session := { Control.follow_up.session with
          wait_streak := some row.wait_streak, no_progress := some row.no_progress } }
      decision := { Decision.empty with reply }
      signal }, Control.reads)

def question (text : String) : Option Reply := some ⟨text, "", .waiting, [], .ongoing, true⟩

/-- Two questions, then a turn without a reply. -/
def asked : List (Turn × Reads) :=
  [step ⟨0, 0⟩ (question "Which one?") 2, step ⟨1, 0⟩ (question "The first?") 2,
    step ⟨2, 0⟩ none 2]

/-- Turns without a reply, while the threshold is lowered. -/
def lowered : List (Turn × Reads) :=
  [step ⟨0, 0⟩ none 3, step ⟨0, 1⟩ none 3, step ⟨0, 2⟩ none 2]

theorem signals_iff_lowered :
    ([false, false, false] = Watches.start.run Control.plain lowered ↔
      Watches.start.AllMeet Control.plain lowered) ∧
      ∀ k, (∀ turn ∈ lowered, turn.1.signal = k) → 0 < k →
        Watches.start.run Control.plain lowered = Watches.start.arrivals Control.plain lowered :=
  signals_iff Control.plain lowered (by decide) [false, false, false] (by decide)

/-- A streak is signalled twice, and one past a lowered threshold is not signalled. -/
theorem signals_wrong :
    Thread.run Control.plain ⟨0, 0⟩ asked = some [false, true, true] ∧
      Watches.start.arrivals Control.plain asked = [false, true, false] ∧
      Thread.run Control.plain ⟨0, 0⟩ lowered = some [false, false, false] ∧
      Watches.start.run Control.plain lowered = [false, false, true] := by
  refine ⟨?_, ?_, ?_, ?_⟩ <;> decide

end Example

end Fridica.Threads
