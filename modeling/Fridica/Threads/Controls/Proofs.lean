import Fridica.Threads.Controls.Spec

/-!
# What the controls do to a thread

A closed thread is opened by restoring it and not otherwise. A call that is refused changes nothing.
An instruction is queued once, however often it is sent.
-/

namespace Fridica.Threads.Controls

open Fridica.Effect Fridica.Text

variable {σ : Type} {u : Core σ} {session : String} {view : σ → View} {s : σ}

/-! ## Units of work -/

section Checks

variable {α β : Type} {Q : β → σ → Prop}

theorem wp_query {f : σ → Except String α} {m : α → Act σ String β} :
    wp (query f >>= m) Q (fun _ _ => True) s ↔
      ∀ a, f s = .ok a → wp (m a) Q (fun _ _ => True) s := by
  unfold query
  rw [wp_bind, wp_bind, wp_get]
  cases hf : f s with
  | ok a => exact ⟨fun h b hb => Except.ok.inj hb ▸ h, fun h => h a rfl⟩
  | error e => exact ⟨fun _ => nofun, fun _ => trivial⟩

theorem wp_refuse {p : Prop} [Decidable p] {e : String} {m : Unit → Act σ String β} :
    wp (refuse p e >>= m) Q (fun _ _ => True) s ↔ (¬ p → wp (m ()) Q (fun _ _ => True) s) := by
  rw [wp_bind]
  unfold refuse
  split
  · rename_i hp
    exact ⟨fun _ hnot => absurd hp hnot, fun _ => trivial⟩
  · rename_i hp
    exact ⟨fun h _ => h, fun h => h hp⟩

end Checks

theorem transact_ok {α : Type} {m : Act σ String α} {Q : α → σ → Prop} {a : α} {t : σ}
    (h : wp m Q (fun _ _ => True) s) (hok : transact m s = (.ok a, t)) : Q a t := by
  unfold transact at hok
  split at hok
  next b v hm =>
    cases hok
    exact wp_ok h hm
  next => cases hok

theorem transact_eq {α : Type} {m : Act σ String α} {a : α} {t : σ}
    (h : wp m (fun b v => b = a ∧ v = t) (fun _ _ => False) s) : transact m s = (.ok a, t) := by
  unfold transact
  rcases wp_cases h with ⟨b, v, hm, rfl, rfl⟩ | ⟨e, v, -, hfalse⟩
  · rw [hm]
  · exact hfalse.elim

theorem transact_error {α : Type} {m : Act σ String α} {e : String} {t : σ}
    (h : transact m s = (.error e, t)) : t = s := by
  unfold transact at h
  split at h
  · cases h
  · cases h
    rfl

/-! ## What a control does -/

/-- The worker cleanup that a restoration waits for. -/
def Pending (u : Core σ) (session : String) (s : σ) (control : String) : Prop :=
  u.worker_stop_pending s session = .ok true ∨ u.worker_control_pending s session = .ok true ∨
    (terminal control ∧ u.has_live_workers s session = .ok true)

/-- What a control that goes through found. -/
structure Allowed (u : Core σ) (session : String) (s : σ) (action : Control) (control state : String) :
    Prop where
  opened : terminal control → terminal state = false → action = .restore
  quiet : action = .restore → ¬ Pending u session s control

theorem target_allowed {action : Control} {actor : Authority} {now : ℚ} {c : ControlState} :
    wp (target u session action actor now c)
      (fun r t => t = s ∧ Allowed u session s action c.control r.1) (fun _ _ => True) s := by
  cases action <;> simp only [target, wp_refuse, wp_query]
  case pause reason =>
    intro hopen _
    have hallowed : Allowed u session s (.pause reason) c.control "paused" :=
      ⟨fun h => absurd h hopen, nofun⟩
    split
    · rw [wp_refuse]
      exact fun _ => ⟨rfl, hallowed⟩
    · exact ⟨rfl, hallowed⟩
  case resume =>
    intro _ hopen
    exact ⟨rfl, fun h => absurd h hopen, nofun⟩
  case instruct text =>
    intro _ _ hopen
    exact ⟨rfl, fun h => absurd h hopen, nofun⟩
  case retry =>
    intro hactive
    refine ⟨rfl, fun h => ?_, nofun⟩
    rw [not_not.mp hactive] at h
    exact absurd h (by decide)
  case restore =>
    intro _ stopping hstopping live hlive hnot control hcontrol hquiet hleft
    refine ⟨rfl, fun _ _ => rfl, fun _ => ?_⟩
    rintro (h | h | ⟨hterminal, h⟩)
    · rw [hstopping] at h
      exact hnot (Except.ok.inj h)
    · rw [hcontrol] at h
      exact hquiet (Except.ok.inj h)
    · rw [hlive] at h
      exact hleft ⟨hterminal, Except.ok.inj h⟩
  all_goals exact fun _ => ⟨rfl, fun _ h => absurd h (by decide), nofun⟩

/-! ## What a unit of work writes -/

section Writes

variable {α β : Type} {action : Control} {actor : Authority} {now : ℚ}

theorem leaves_pure (a : α) : Leaves view (pure a) := fun _ => rfl

theorem Leaves.bind {m : Act σ String α} {f : α → Act σ String β} (hm : Leaves view m)
    (hf : ∀ a, Leaves view (f a)) : Leaves view (m >>= f) := by
  intro s
  rw [wp_bind]
  exact wp_mono (hm s) (fun a t ht => wp_mono (hf a t) (fun _ _ h => h.trans ht) fun _ _ h => h)
    fun _ _ h => h

theorem leaves_refuse {p : Prop} [Decidable p] {e : String} :
    Leaves view (refuse p e : Act σ String Unit) := by
  intro s
  unfold refuse
  split
  · trivial
  · rfl

theorem leaves_when {p : Prop} [Decidable p] {m : Act σ String Unit} (hm : Leaves view m) :
    Leaves view (when p m) := by
  unfold when
  split
  · exact hm
  · exact leaves_pure ()

theorem Leaves.next {m : Act σ String α} {f : α → Act σ String β} {Q : β → σ → Prop}
    (hm : Leaves view m) (hf : ∀ a t, view t = view s → wp (f a) Q (fun _ _ => True) t) :
    wp (m >>= f) Q (fun _ _ => True) s := by
  rw [wp_bind]
  exact wp_mono (hm s) hf fun _ _ h => h

variable (hu : u.Contract session view)
include hu

theorem leaves_turns : Leaves view (turns u session action) := by
  cases action with
  | resume => exact hu.restart_turns
  | retry => exact hu.retry_failed_turn.bind fun _ => leaves_refuse
  | instruct text => exact hu.unblock
  | _ => exact leaves_pure ()

def kept (action : Control) (rows : List Instruction) : List Instruction :=
  if action = .clean then rows.map ({ · with text := "" }) else rows

theorem left_kept {state : String} : wp (left u session action state now)
    (fun _ t => view t = ⟨(view s).control, kept action (view s).instructions⟩)
    (fun _ _ => True) s := by
  unfold left
  refine (leaves_when hu.release_worker_results).next fun _ t ht => ?_
  refine (leaves_when (hu.queue_worker_stops now true)).next fun _ t' ht' => ?_
  rw [← ht'.trans ht]
  unfold when kept
  split
  · exact hu.wipe now t'
  · rfl

/-- The rows once the instruction of a control is queued. -/
def with_queued (client_id : Option String) (id : Option Int) (action : Control)
    (rows : List Instruction) : List Instruction :=
  match action, id with
  | .instruct text, some id => rows ++ [⟨client_id.getD "", id, text⟩]
  | _, _ => rows

theorem queued_with {client_id : Option String} :
    wp (queued u session actor now client_id action)
      (fun id t => (∀ text, action = .instruct text → id.isSome) ∧
        view t = ⟨(view s).control, with_queued client_id id action (view s).instructions⟩)
      (fun _ _ => True) s := by
  cases action with
  | instruct text =>
    simp only [queued, wp_refuse]
    intro _
    rw [wp_bind]
    exact wp_mono (hu.queue_owner_instruction ..) (fun id t ht => ⟨fun _ _ => rfl, ht⟩)
      fun _ _ h => h
  | resume =>
    simp only [queued]
    rw [wp_query]
    intro point _
    refine (hu.reset_thread_at _).next fun _ t ht => ?_
    refine Leaves.next ?_ fun _ t' ht' => ⟨nofun, ht'.trans ht⟩
    split
    · exact hu.resume_message _ _ _
    · exact leaves_pure ()
  | _ => exact ⟨nofun, rfl⟩

theorem apply_tx_ok {client_id : Option String} :
    wp (apply_tx u session action actor now client_id)
      (fun id t => ∃ state detail, Allowed u session s action (view s).control.control state ∧
        (∀ text, action = .instruct text → id.isSome) ∧
        view t = ⟨⟨state, some detail⟩,
          with_queued client_id id action (kept action (view s).instructions)⟩)
      (fun _ _ => True) s := by
  unfold apply_tx
  rw [wp_query]
  intro c hc
  rw [wp_bind]
  refine wp_mono target_allowed (fun r t ht => ?_) fun _ _ h => h
  obtain ⟨rfl, hallowed⟩ := ht
  rw [hu.control_state t c hc] at hallowed
  dsimp only
  rw [wp_bind]
  refine wp_mono (hu.set_control ..) (fun _ t₁ h₁ => ?_) fun _ _ h => h
  refine (leaves_turns hu).next fun _ t₂ h₂ => ?_
  rw [wp_bind]
  refine wp_mono (left_kept hu) (fun _ t₃ h₃ => ?_) fun _ _ h => h
  rw [wp_bind]
  refine wp_mono (queued_with hu) (fun id t₄ h₄ => ?_) fun _ _ h => h
  refine (hu.audit_control _ _ _ _).next fun _ t₅ h₅ => ?_
  refine (hu.record _ _ _ _).next fun _ t₆ h₆ => ?_
  refine ⟨r.1, r.2.2, hallowed, h₄.1, ?_⟩
  rw [h₆, h₅, h₄.2, h₃, h₂, h₁]

end Writes

/-! ## One call -/

section Calls

variable {action : Control} {actor : Authority} {now : Option ℚ} {t : σ}

theorem apply_refused {e : String} (h : apply u session action actor now s = (.error e, t)) :
    t = s := by
  unfold apply at h
  split at h
  · exact (Prod.mk.inj h).2.symm
  · split at h
    · exact (Prod.mk.inj h).2.symm
    · exact transact_error h

theorem instruct_refused {text client_id e : String}
    (h : instruct u session text client_id actor now s = (.error e, t)) : t = s := by
  unfold instruct at h
  split at h
  · exact (Prod.mk.inj h).2.symm
  · split at h
    · exact (Prod.mk.inj h).2.symm
    · dsimp only at h
      split at h
      · exact (Prod.mk.inj h).2.symm
      · exact transact_error h

/-- A call is refused and changes nothing, or its control or its instruction goes through. -/
theorem perform_cases (c : Call) :
    (∃ e, perform u session s c = (.error e, s)) ∨
    (∃ action actor now t, c = .control action actor now ∧
      apply u session action actor now s = (.ok (), t) ∧
      perform u session s c = (.ok none, t)) ∨
    (∃ text client_id actor now id t, c = .instruct text client_id actor now ∧
      instruct u session text client_id actor now s = (.ok id, t) ∧
      perform u session s c = (.ok (some id), t)) := by
  cases c with
  | control action actor now =>
    rcases hanswer : apply u session action actor now s with ⟨e | _, t⟩
    · have ht : t = s := apply_refused hanswer
      exact .inl ⟨e, by simp [perform, hanswer, ht, Except.map]⟩
    · exact .inr (.inl ⟨_, _, _, t, rfl, hanswer, by simp [perform, hanswer, Except.map]⟩)
  | instruct text client_id actor now =>
    rcases hanswer : instruct u session text client_id actor now s with ⟨e | id, t⟩
    · have ht : t = s := instruct_refused hanswer
      exact .inl ⟨e, by simp [perform, hanswer, ht, Except.map]⟩
    · exact .inr (.inr ⟨_, _, _, _, id, t, rfl, hanswer,
        by simp [perform, hanswer, Except.map]⟩)

theorem perform_refused {c : Call} {e : String} (h : (perform u session s c).1 = .error e) :
    (perform u session s c).2 = s := by
  rcases perform_cases c with ⟨_, hc⟩ | ⟨_, _, _, _, _, _, hc⟩ | ⟨_, _, _, _, _, _, _, _, hc⟩
  · rw [hc]
  · rw [hc] at h
    cases h
  · rw [hc] at h
    cases h

variable (hu : u.Contract session view)
include hu

theorem apply_ok (h : apply u session action actor now s = (.ok (), t)) :
    ∃ id state detail, Allowed u session s action (view s).control.control state ∧
      view t = ⟨⟨state, some detail⟩,
        with_queued none id action (kept action (view s).instructions)⟩ := by
  unfold apply at h
  split at h
  · cases h
  · split at h
    · cases h
    · refine transact_ok (Q := fun _ t => ∃ id state detail,
        Allowed u session s action (view s).control.control state ∧ view t =
          ⟨⟨state, some detail⟩, with_queued none id action (kept action (view s).instructions)⟩)
        ?_ h
      rw [wp_bind]
      refine wp_mono (apply_tx_ok hu) (fun id t ht => ?_) fun _ _ h => h
      obtain ⟨state, detail, hallowed, _, ht⟩ := ht
      exact ⟨id, state, detail, hallowed, ht⟩

structure Valid (text client_id : String) : Prop where
  nonempty : 1 ≤ (trim text).length
  short : (trim text).length ≤ 4000
  client : client_valid client_id

def row (view : σ → View) (s : σ) (client_id : String) : Option Instruction :=
  (view s).instructions.find? (·.client_id = client_id)

/-- What an instruction that is answered did. -/
def Answered (u : Core σ) (session : String) (view : σ → View) (s : σ) (text client_id : String)
    (id : Int) (t : σ) : Prop :=
  (t = s ∧ ∃ r, row view s client_id = some r ∧ r.id = id ∧ r.text = trim text) ∨
    (row view s client_id = none ∧ ∃ state detail,
      Allowed u session s (.instruct (trim text)) (view s).control.control state ∧
      view t = ⟨⟨state, some detail⟩, (view s).instructions ++ [⟨client_id, id, trim text⟩]⟩)

theorem owner_instruction_row {client_id : String} : u.owner_instruction s session client_id =
    (row view s client_id).map fun r => (r.id, r.text) :=
  hu.owner_instruction ..

theorem instruct_ok {text client_id : String} {id : Int}
    (h : instruct u session text client_id actor now s = (.ok id, t)) :
    Valid text client_id ∧ Answered u session view s text client_id id t := by
  unfold instruct at h
  split at h
  · cases h
  split at h
  · cases h
  dsimp only at h
  split at h
  · cases h
  rename_i hvalid
  rw [not_not] at hvalid
  refine ⟨⟨hvalid.1, hvalid.2.1, hvalid.2.2⟩, ?_⟩
  refine transact_ok (Q := Answered u session view s text client_id) ?_ h
  rw [wp_bind, wp_get, owner_instruction_row hu]
  cases hrow : row view s client_id with
  | some r =>
    simp only [Option.map_some, wp_refuse]
    intro hsame
    exact .inl ⟨rfl, r, hrow, rfl, not_not.mp hsame⟩
  | none =>
    simp only [Option.map_none]
    rw [wp_bind]
    refine wp_mono (apply_tx_ok hu) (fun id t ht => ?_) fun _ _ h => h
    obtain ⟨state, detail, hallowed, hsome, ht⟩ := ht
    obtain ⟨id, rfl⟩ := Option.isSome_iff_exists.mp (hsome _ rfl)
    exact .inr ⟨hrow, state, detail, hallowed, ht⟩

theorem instruct_again {text client_id : String} {now : ℚ} {r : Instruction}
    (hvalid : Valid text client_id) (hrow : row view s client_id = some r)
    (hsame : r.text = trim text) :
    instruct u session text client_id .owner (some now) s = (.ok r.id, s) := by
  unfold instruct
  dsimp only
  rw [if_neg (not_not.mpr rfl), if_neg (not_not.mpr ⟨hvalid.1, hvalid.2, hvalid.3⟩)]
  apply transact_eq
  rw [wp_bind, wp_get, owner_instruction_row hu]
  rw [hrow]
  simp only [Option.map_some]
  rw [wp_bind]
  unfold refuse
  rw [if_neg (not_not.mpr hsame)]
  exact ⟨rfl, rfl⟩

end Calls

/-! ## Any number of calls -/

/-- The thread is left by no control but a restoration, which waits for the workers. -/
structure Opens (u : Core σ) (session : String) (view : σ → View) (s : σ) : Prop where
  restored : ∀ c, terminal (view s).control.control →
    terminal (view (perform u session s c).2).control.control = false →
    ∃ actor now, c = .control .restore actor now
  waits : Pending u session s (view s).control.control → ∀ actor now,
    ∃ e, perform u session s (.control .restore actor now) = (.error e, s)

variable (view) in
/-- One row at most for each client id, and one for each that was answered. -/
structure Inv (s : σ) (log : List Entry) : Prop where
  once : ∀ client_id, client_id ≠ "" →
    (view s).instructions.countP (·.client_id = client_id) ≤ 1
  answered : ∀ after before text client_id actor now id,
    log = after ++ ⟨.instruct text client_id actor now, .ok (some id)⟩ :: before →
    Valid text client_id ∧ ∃ r ∈ (view s).instructions, r.client_id = client_id ∧ r.id = id ∧
      r.text = if after.any Entry.cleans then "" else trim text

/-- The thread after any calls. -/
structure Safe (u : Core σ) (session : String) (view : σ → View) (s : σ) (log : List Entry) :
    Prop where
  opens : Opens u session view s
  refused : ∀ c e, (perform u session s c).1 = .error e → (perform u session s c).2 = s
  once : ∀ client_id, client_valid client_id →
    (view s).instructions.countP (·.client_id = client_id) ≤ 1
  /-- The same text, and no clean since: the id of the first time, and nothing else. -/
  same : ∀ after before text client_id actor now id,
    log = after ++ ⟨.instruct text client_id actor now, .ok (some id)⟩ :: before →
    after.any Entry.cleans = false → ∀ text' now', trim text' = trim text →
    perform u session s (.instruct text' client_id .owner (some now')) = (.ok (some id), s)
  other : ∀ after before text client_id actor now id,
    log = after ++ ⟨.instruct text client_id actor now, .ok (some id)⟩ :: before →
    ∀ text' actor' now', trim text' ≠ trim text ∨ after.any Entry.cleans = true →
    ∃ e, perform u session s (.instruct text' client_id actor' now') = (.error e, s)

theorem find_of_once {rows : List Instruction} {client_id : String} {r : Instruction}
    (honce : rows.countP (·.client_id = client_id) ≤ 1) (hr : r ∈ rows)
    (hclient : r.client_id = client_id) : rows.find? (·.client_id = client_id) = some r := by
  induction rows with
  | nil => cases hr
  | cons x rows ih =>
    rw [List.countP_cons] at honce
    by_cases hx : x.client_id = client_id
    · rw [List.find?_cons_of_pos (by simpa using hx)]
      rcases List.mem_cons.mp hr with rfl | hr
      · rfl
      · have hpos : 0 < rows.countP (·.client_id = client_id) :=
          List.countP_pos_iff.mpr ⟨r, hr, by simpa using hclient⟩
        simp only [hx, decide_true, if_true] at honce
        omega
    · rw [List.find?_cons_of_neg (by simpa using hx)]
      rcases List.mem_cons.mp hr with rfl | hr
      · exact absurd hclient hx
      · exact ih (by simpa [hx] using honce) hr

theorem kept_once {action : Control} {rows : List Instruction} {client_id : String} :
    (kept action rows).countP (·.client_id = client_id) =
      rows.countP (·.client_id = client_id) := by
  unfold kept
  split
  · rw [List.countP_map]
    rfl
  · rfl

theorem mem_kept {action : Control} {rows : List Instruction} {r : Instruction} (h : r ∈ rows) :
    { r with text := if action = .clean then "" else r.text } ∈ kept action rows := by
  unfold kept
  split
  · exact List.mem_map.mpr ⟨r, h, rfl⟩
  · exact h

theorem mem_with_queued {client_id : Option String} {id : Option Int} {action : Control}
    {rows : List Instruction} {r : Instruction} (h : r ∈ rows) :
    r ∈ with_queued client_id id action rows := by
  unfold with_queued
  split
  · exact List.mem_append_left _ h
  · exact h

theorem with_queued_once {id : Option Int} {action : Control} {rows : List Instruction}
    {client_id : String} (hne : client_id ≠ "") :
    (with_queued none id action rows).countP (·.client_id = client_id) =
      rows.countP (·.client_id = client_id) := by
  unfold with_queued
  split
  · simp [List.countP_append, hne.symm]
  · rfl

theorem Inv.cons {log : List Entry} {e : Entry} {t : σ} (h : Inv view s log)
    (honce : ∀ client_id, client_id ≠ "" →
      (view t).instructions.countP (·.client_id = client_id) ≤ 1)
    (hrows : ∀ r ∈ (view s).instructions,
      { r with text := if e.cleans then "" else r.text } ∈ (view t).instructions)
    (hanswer : ∀ text client_id actor now id,
      e = ⟨.instruct text client_id actor now, .ok (some id)⟩ → Valid text client_id ∧
        ⟨client_id, id, trim text⟩ ∈ (view t).instructions) : Inv view t (e :: log) := by
  refine ⟨honce, fun after before text client_id actor now id hlog => ?_⟩
  cases after with
  | nil =>
    obtain ⟨rfl, rfl⟩ := List.cons.inj hlog
    obtain ⟨hvalid, hmem⟩ := hanswer _ _ _ _ _ rfl
    exact ⟨hvalid, _, hmem, rfl, rfl, rfl⟩
  | cons e' after =>
    obtain ⟨rfl, htail⟩ := List.cons.inj hlog
    obtain ⟨hvalid, r, hr, hclient, hid, htext⟩ := h.answered _ _ _ _ _ _ _ htail
    refine ⟨hvalid, _, hrows r hr, hclient, hid, ?_⟩
    rw [List.any_cons]
    cases e.cleans with
    | false => exact htext
    | true => rfl

section Runs

variable {log : List Entry}

theorem Inv.still {e : Entry} (h : Inv view s log) (hcleans : e.cleans = false)
    (hanswer : ∀ text client_id actor now id,
      e ≠ ⟨.instruct text client_id actor now, .ok (some id)⟩) : Inv view s (e :: log) := by
  refine h.cons h.once (fun r hr => ?_) fun _ _ _ _ _ he => absurd he (hanswer _ _ _ _ _)
  simpa [hcleans] using hr

variable (hu : u.Contract session view)
include hu

theorem Inv.control {action : Control} {actor : Authority} {now : Option ℚ} {t : σ}
    (h : Inv view s log) (hok : apply u session action actor now s = (.ok (), t)) :
    Inv view t (⟨.control action actor now, .ok none⟩ :: log) := by
  obtain ⟨id, state, detail, _, ht⟩ := apply_ok hu hok
  refine h.cons (fun client_id hne => ?_) (fun r hr => ?_) nofun
  · rw [ht, with_queued_once hne, kept_once]
    exact h.once client_id hne
  · rw [ht]
    refine mem_with_queued ?_
    have hmem := @mem_kept action _ _ hr
    cases action <;> exact hmem

theorem Inv.instruct {text client_id : String} {actor : Authority} {now : Option ℚ} {id : Int}
    {t : σ} (h : Inv view s log)
    (hok : Controls.instruct u session text client_id actor now s = (.ok id, t)) :
    Inv view t (⟨.instruct text client_id actor now, .ok (some id)⟩ :: log) := by
  obtain ⟨hvalid, ⟨rfl, r, hrow, rfl, htext⟩ | ⟨hnone, state, detail, _, ht⟩⟩ :=
    instruct_ok hu hok
  · refine h.cons h.once (fun r hr => hr) fun _ _ _ _ _ he => ?_
    cases he
    refine ⟨hvalid, ?_⟩
    have hclient : r.client_id = client_id := by simpa using List.find?_some hrow
    rw [← hclient, ← htext]
    exact List.mem_of_find?_eq_some hrow
  · refine h.cons (fun other hne => ?_) (fun r hr => ?_) fun _ _ _ _ _ he => ?_
    · rw [ht, List.countP_append]
      by_cases hsame : client_id = other
      · subst hsame
        have hzero : (view s).instructions.countP (·.client_id = client_id) = 0 :=
          List.countP_eq_zero.mpr (List.find?_eq_none.mp hnone)
        rw [hzero]
        exact Nat.le_of_eq (by simp)
      · simpa [hsame] using h.once other hne
    · rw [ht]
      exact List.mem_append_left _ hr
    · cases he
      rw [ht]
      exact ⟨hvalid, List.mem_append_right _ (List.mem_singleton.mpr rfl)⟩

theorem Inv.call {c : Call} (h : Inv view s log) :
    Inv view (perform u session s c).2 (⟨c, (perform u session s c).1⟩ :: log) := by
  rcases perform_cases c with ⟨e, hc⟩ | ⟨action, actor, now, t, rfl, hok, hc⟩ |
    ⟨text, client_id, actor, now, id, t, rfl, hok, hc⟩
  · rw [hc]
    refine h.still ?_ nofun
    cases c with
    | control action actor now => cases action <;> rfl
    | instruct => rfl
  · rw [hc]
    exact h.control hu hok
  · rw [hc]
    exact h.instruct hu hok

theorem run_inv {start : σ} (hstart : Inv view start []) (h : Run u session view start s log) :
    Inv view s log := by
  induction h with
  | start => exact hstart
  | call c _ ih => exact ih.call hu
  | cleanup _ hview ih =>
    refine ⟨?_, ?_⟩
    · rw [hview]
      exact ih.once
    · rw [hview]
      exact ih.answered

theorem opens : Opens u session view s := by
  refine ⟨fun c hterminal hopen => ?_, fun hpending actor now => ?_⟩
  · rcases perform_cases c with ⟨e, hc⟩ | ⟨action, actor, now, t, rfl, hok, hc⟩ |
      ⟨text, client_id, actor, now, id, t, rfl, hok, hc⟩
    · rw [hc, hterminal] at hopen
      cases hopen
    · refine ⟨actor, now, ?_⟩
      obtain ⟨_, state, detail, hallowed, ht⟩ := apply_ok hu hok
      rw [hc, ht] at hopen
      rw [hallowed.opened hterminal hopen]
    · rcases (instruct_ok hu hok).2 with ⟨rfl, _⟩ | ⟨_, state, detail, hallowed, ht⟩
      · rw [hc, hterminal] at hopen
        cases hopen
      · rw [hc, ht] at hopen
        cases hallowed.opened hterminal hopen
  · rcases perform_cases (.control .restore actor now) with ⟨e, hc⟩ |
      ⟨action, _, _, t, hcall, hok, hc⟩ | ⟨_, _, _, _, _, _, hcall, _⟩
    · exact ⟨e, hc⟩
    · cases hcall
      obtain ⟨_, _, _, hallowed, _⟩ := apply_ok hu hok
      exact absurd hpending (hallowed.quiet rfl)
    · cases hcall

omit hu in
theorem ne_empty_of_valid {client_id : String} (h : client_valid client_id) : client_id ≠ "" := by
  rintro rfl
  simp [client_valid] at h

omit hu in
theorem Inv.row {after before : List Entry} {text client_id : String} {actor : Authority}
    {now : Option ℚ} {id : Int} (h : Inv view s log)
    (hlog : log = after ++ ⟨.instruct text client_id actor now, .ok (some id)⟩ :: before) :
    Valid text client_id ∧ ∃ r, Controls.row view s client_id = some r ∧ r.id = id ∧
      r.text = if after.any Entry.cleans then "" else trim text := by
  obtain ⟨hvalid, r, hr, hclient, hid, htext⟩ := h.answered _ _ _ _ _ _ _ hlog
  exact ⟨hvalid, r, find_of_once (h.once _ (ne_empty_of_valid hvalid.client)) hr hclient, hid,
    htext⟩

theorem Inv.other {after before : List Entry} {text client_id text' : String}
    {actor actor' : Authority} {now now' : Option ℚ} {id : Int} (h : Inv view s log)
    (hlog : log = after ++ ⟨.instruct text client_id actor now, .ok (some id)⟩ :: before)
    (hother : trim text' ≠ trim text ∨ after.any Entry.cleans = true) :
    ∃ e, perform u session s (.instruct text' client_id actor' now') = (.error e, s) := by
  obtain ⟨_, r, hrow, _, htext⟩ := h.row hlog
  simp only [perform]
  cases hanswer : Controls.instruct u session text' client_id actor' now' s with
  | mk answer t =>
    cases answer with
    | error e => exact ⟨e, by rw [instruct_refused hanswer]; rfl⟩
    | ok id =>
      obtain ⟨hvalid, ⟨_, r', hrow', _, htext'⟩ | ⟨hnone, _⟩⟩ := instruct_ok hu hanswer
      · obtain rfl : r = r' := Option.some.inj (hrow.symm.trans hrow')
        rw [htext] at htext'
        split at htext'
        · -- The text of the row was erased, and that of the call is not empty.
          have hempty := hvalid.nonempty
          rw [← htext'] at hempty
          exact absurd hempty (by simp)
        · rename_i hclean
          exact (hother.resolve_right hclean).elim htext'.symm
      · rw [hrow] at hnone
        cases hnone

theorem Inv.same {after before : List Entry} {text client_id text' : String} {actor : Authority}
    {now : Option ℚ} {now' : ℚ} {id : Int} (h : Inv view s log)
    (hlog : log = after ++ ⟨.instruct text client_id actor now, .ok (some id)⟩ :: before)
    (hclean : after.any Entry.cleans = false) (hsame : trim text' = trim text) :
    perform u session s (.instruct text' client_id .owner (some now')) = (.ok (some id), s) := by
  obtain ⟨hvalid, r, hrow, hid, htext⟩ := h.row hlog
  rw [hclean] at htext
  have hvalid' : Valid text' client_id := by
    refine ⟨?_, ?_, hvalid.client⟩
    · rw [hsame]
      exact hvalid.nonempty
    · rw [hsame]
      exact hvalid.short
  simp only [perform]
  rw [instruct_again hu hvalid' hrow (htext.trans hsame.symm), hid]
  rfl

/-- **From a terminal state only a restoration leads out, once the workers are cleaned up. A call
that is refused changes nothing. A client id queues one instruction, and its text decides what a
later call with it is told.** -/
theorem controls_safe {start : σ}
    (hstart : ∀ client_id, client_id ≠ "" →
      (view start).instructions.countP (·.client_id = client_id) ≤ 1)
    (h : Run u session view start s log) : Safe u session view s log := by
  have hinv : Inv view s log :=
    run_inv hu ⟨hstart, fun after _ _ _ _ _ _ hnil => by cases after <;> cases hnil⟩ h
  exact {
    opens := opens hu
    refused := fun _ _ => perform_refused
    once := fun client_id hid => hinv.once client_id (ne_empty_of_valid hid)
    same := fun _ _ _ _ _ _ _ hlog hclean _ _ hsame => hinv.same hu hlog hclean hsame
    other := fun _ _ _ _ _ _ _ hlog _ _ _ hother => hinv.other hu hlog hother }

end Runs

/-! ## A thread in memory -/

structure Mem where
  thread : View
  next : Int
  stop_pending : Bool
  control_pending : Bool
  live : Bool

def inMemory : Core Mem where
  can_resume := fun prior actor => !prior.is_paused || actor = .owner
  control_state := fun m _ => .ok m.thread.control
  owner_instruction := fun m _ client_id =>
    (m.thread.instructions.find? (·.client_id = client_id)).map fun r => (r.id, r.text)
  worker_stop_pending := fun m _ => .ok m.stop_pending
  has_live_workers := fun m _ => .ok m.live
  worker_control_pending := fun m _ => .ok m.control_pending
  resume_point := fun _ _ => .ok ⟨none, 0⟩
  set_control := fun _ state detail _ _ _ =>
    modify fun m => { m with thread.control := ⟨state, some detail⟩ }
  restart_turns := fun _ => pure ()
  retry_failed_turn := fun _ => pure none
  unblock := fun _ => pure ()
  release_worker_results := fun _ => pure ()
  queue_worker_stops := fun _ _ _ => modify fun m => { m with stop_pending := true }
  wipe := fun _ _ => modify fun m => { m with
    thread.instructions := m.thread.instructions.map ({ · with text := "" }) }
  queue_owner_instruction := fun _ client_id text _ => do
    let m : Mem ← get
    let queued : Instruction := ⟨client_id, m.next, text⟩
    set { m with
      thread.instructions := m.thread.instructions ++ [queued]
      next := m.next + 1 }
    return m.next
  reset_thread_at := fun _ _ => pure ()
  resume_message := fun _ _ _ _ => pure ()
  audit_control := fun _ _ _ _ _ => pure ()
  record := fun _ _ _ _ _ => pure ()

theorem inMemory_contract (session : String) : inMemory.Contract session Mem.thread where
  control_state := by
    rintro m c ⟨⟩
    rfl
  owner_instruction := fun _ _ => rfl
  set_control := fun _ _ _ _ _ _ => rfl
  queue_owner_instruction := fun _ _ _ _ => rfl
  wipe := fun _ _ => rfl
  restart_turns := fun _ => rfl
  retry_failed_turn := fun _ => rfl
  unblock := fun _ => rfl
  release_worker_results := fun _ => rfl
  queue_worker_stops := fun _ _ _ => rfl
  reset_thread_at := fun _ _ => rfl
  resume_message := fun _ _ _ _ => rfl
  audit_control := fun _ _ _ _ _ => rfl
  record := fun _ _ _ _ _ => rfl

def fresh : Mem := ⟨⟨⟨"active", some .active⟩, []⟩, 1, false, false, false⟩

def performed (m : Mem) (log : List Entry) : List Call → Mem × List Entry
  | [] => (m, log)
  | c :: calls =>
    performed (perform inMemory "t" m c).2 (⟨c, (perform inMemory "t" m c).1⟩ :: log) calls

theorem run_performed {m : Mem} {log : List Entry} (calls : List Call)
    (h : Run inMemory "t" Mem.thread fresh m log) :
    Run inMemory "t" Mem.thread fresh (performed m log calls).1 (performed m log calls).2 := by
  induction calls generalizing m log with
  | nil => exact h
  | cons c calls ih => exact ih (.call c h)

def sent_again : List Call :=
  [.instruct "go" "retry-1234" .owner (some 1), .control (.pause "away") .owner (some 2),
    .instruct "go" "retry-1234" .owner (some 3)]

theorem controls_safe_sentAgain :
    (performed fresh [] sent_again).2.map (·.answer.toOption) =
        [some (some 1), some none, some (some 1)] ∧
      (performed fresh [] sent_again).1.thread.control.control = "paused" ∧
      Safe inMemory "t" Mem.thread (performed fresh [] sent_again).1
        (performed fresh [] sent_again).2 := by
  have hstart : ∀ client_id, client_id ≠ "" →
      fresh.thread.instructions.countP (·.client_id = client_id) ≤ 1 := fun _ _ => Nat.zero_le 1
  exact ⟨by decide +kernel, by decide +kernel,
    controls_safe (inMemory_contract "t") hstart (run_performed _ .start)⟩

/-- Texts that differ in the blanks around them are one text. -/
theorem blanks_not_refused :
    ¬ ∀ (m : Mem) (log : List Entry), Run inMemory "t" Mem.thread fresh m log →
      ∀ after before text client_id actor now id,
        log = after ++ ⟨.instruct text client_id actor now, .ok (some id)⟩ :: before →
        ∀ text' actor' now', text' ≠ text →
          ∃ e, perform inMemory "t" m (.instruct text' client_id actor' now') = (.error e, m) := by
  intro h
  let sent : Mem × List Entry := performed fresh [] [.instruct "go" "retry-1234" .owner (some 1)]
  have hlog : sent.2 = [] ++
      ⟨.instruct "go" "retry-1234" .owner (some 1), .ok (some 1)⟩ :: [] := by
    rfl
  obtain ⟨e, he⟩ := h sent.1 sent.2 (run_performed _ .start) _ _ _ _ _ _ _ hlog " go" .owner
    (some 2) (by decide)
  have hanswer : (perform inMemory "t" sent.1
      (.instruct " go" "retry-1234" .owner (some 2))).1.toOption = some (some 1) := by
    decide +kernel
  rw [he] at hanswer
  cases hanswer

end Fridica.Threads.Controls
