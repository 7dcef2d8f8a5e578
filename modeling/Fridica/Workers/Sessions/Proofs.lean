import Fridica.Workers.Sessions.Spec

/-!
# Sessions and the rules they were begun with

A job resumes only a session begun with its own instructions. It forks one of any instructions,
since the fingerprint of the source worker is not looked at.
-/

namespace Fridica.Workers.Sessions

variable {F : Type} {fingerprint : String → F} {session_timeout : ℚ}

/-! ## The invariant -/

/-- The session is older than the fingerprints, or was begun with this text. -/
def BegunWith (w : World F) (id text : String) : Prop :=
  ∃ b, w.sessions id = some b ∧ (b = none ∨ b = some text)

/-- The request names one session at most, and that was begun with the text of the job. -/
structure Good (w : World F) (job : Job) (request : RunRequest) : Prop where
  one : request.resume = "" ∨ request.fork_from = ""
  resume : request.resume ≠ "" → BegunWith w request.resume job.instructions
  fork : request.fork_from ≠ "" → BegunWith w request.fork_from job.instructions

variable (fingerprint)

/-- The fingerprint of the record is that of its session. -/
def Matches (w : World F) (texts : List String) (r : WorkerRecord F) : Prop :=
  r.backend_session_id ≠ "" → ∃ b, w.sessions r.backend_session_id = some b ∧
    (b = none ∨ ∃ text ∈ texts, b = some text ∧
      r.instructions_fingerprint = some (fingerprint text))

/-- What is known of a job on its way. -/
def OnItsWay (w : World F) (worker : String) (t : Task F) : Prop :=
  match t.phase with
  | .claimed => w.workers worker = some t.record
  | .begun resume =>
    (resume ≠ "" → BegunWith w resume t.job.instructions) ∧
      ∃ r, w.workers worker = some r ∧
        r.instructions_fingerprint = some (fingerprint t.job.instructions)
  | .running request =>
    (request.resume ≠ "" → BegunWith w request.resume t.job.instructions) ∧
      ∃ r, w.workers worker = some r ∧
        r.instructions_fingerprint = some (fingerprint t.job.instructions)

structure Inv (texts : List String) (w : World F) : Prop where
  records : ∀ worker r, w.workers worker = some r → Matches fingerprint w texts r
  texts : ∀ worker t, w.tasks worker = some t → t.job.instructions ∈ texts
  tasks : ∀ worker t, w.tasks worker = some t → OnItsWay fingerprint w worker t
  good : ∀ p ∈ w.requests, Good w p.1 p.2

/-- A job forks the session of a worker only when that has the fingerprint of the job's text, or
none. -/
def Fits (w : World F) : Step → Prop
  | .request worker => ∀ t source, w.tasks worker = some t → t.phase = .begun "" →
      t.job.fork_from_worker ≠ "" → w.workers t.job.fork_from_worker = some source →
      source.backend_session_id ≠ "" → source.backend = t.record.backend →
      source.machine = t.record.machine →
      source.instructions_fingerprint = none ∨
        source.instructions_fingerprint = some (fingerprint t.job.instructions)
  | _ => True

variable {fingerprint}

/-! ## What stays true -/

/-- The sessions there are keep the text they were begun with. -/
def Grows (w w' : World F) : Prop :=
  ∀ id b, w.sessions id = some b → w'.sessions id = some b

variable {w w' : World F} {texts : List String}

theorem BegunWith.grows {id text : String} (h : BegunWith w id text) (hg : Grows w w') :
    BegunWith w' id text := by
  obtain ⟨b, hb, htext⟩ := h
  exact ⟨b, hg id b hb, htext⟩

theorem Matches.grows {r : WorkerRecord F} (h : Matches fingerprint w texts r) (hg : Grows w w') :
    Matches fingerprint w' texts r := by
  intro hne
  obtain ⟨b, hb, htext⟩ := h hne
  exact ⟨b, hg _ b hb, htext⟩

theorem Good.grows {job : Job} {request : RunRequest} (h : Good w job request) (hg : Grows w w') :
    Good w' job request :=
  ⟨h.one, fun hne => (h.resume hne).grows hg, fun hne => (h.fork hne).grows hg⟩

theorem OnItsWay.grows {worker : String} {t : Task F} (h : OnItsWay fingerprint w worker t)
    (hg : Grows w w') (hrow : w'.workers worker = w.workers worker) :
    OnItsWay fingerprint w' worker t := by
  unfold OnItsWay at *
  cases hphase : t.phase with
  | claimed =>
    rw [hphase] at h
    exact hrow.trans h
  | begun resume =>
    rw [hphase] at h
    exact ⟨fun hne => (h.1 hne).grows hg, hrow ▸ h.2⟩
  | running request =>
    rw [hphase] at h
    exact ⟨fun hne => (h.1 hne).grows hg, hrow ▸ h.2⟩

theorem Grows.refl (w : World F) : Grows w w := fun _ _ h => h

theorem Inv.step_of (worker : String) (h : Inv fingerprint texts w) (hg : Grows w w')
    (hrows : ∀ v, v ≠ worker → w'.workers v = w.workers v)
    (htasks : ∀ v, v ≠ worker → w'.tasks v = w.tasks v)
    (hrow : ∀ r, w'.workers worker = some r → Matches fingerprint w' texts r)
    (htask : ∀ t, w'.tasks worker = some t →
      t.job.instructions ∈ texts ∧ OnItsWay fingerprint w' worker t)
    (hgood : ∀ p ∈ w'.requests, p ∈ w.requests ∨ Good w' p.1 p.2) : Inv fingerprint texts w' := by
  refine ⟨fun v r hr => ?_, fun v t ht => ?_, fun v t ht => ?_, fun p hp => ?_⟩
  · by_cases hv : v = worker
    · exact hrow r (hv ▸ hr)
    · exact (h.records v r (hrows v hv ▸ hr)).grows hg
  · by_cases hv : v = worker
    · exact (htask t (hv ▸ ht)).1
    · exact h.texts v t (htasks v hv ▸ ht)
  · by_cases hv : v = worker
    · subst hv
      exact (htask t ht).2
    · exact (h.tasks v t (htasks v hv ▸ ht)).grows hg (hrows v hv)
  · rcases hgood p hp with hold | hnew
    · exact (h.good p hold).grows hg
    · exact hnew

/-! ## What each step does -/

section Steps

variable {worker : String}

/-- Texts of one fingerprint are one text. -/
def Distinct (fingerprint : String → F) (texts : List String) : Prop :=
  ∀ a ∈ texts, ∀ b ∈ texts, fingerprint a = fingerprint b → a = b

theorem resumes_or (t : Task F) :
    resumes session_timeout t = "" ∨ resumes session_timeout t = t.record.backend_session_id := by
  unfold resumes
  dsimp only
  split
  · exact .inl rfl
  · exact .inr rfl

theorem fresh_fingerprint [DecidableEq F] (r : WorkerRecord F) (text resume : String) :
    (fresh_unless_same_instructions fingerprint r text resume).2.instructions_fingerprint =
      some (fingerprint text) := rfl

theorem Matches.begun {r : WorkerRecord F} {text : String} (h : Matches fingerprint w texts r)
    (hdistinct : Distinct fingerprint texts) (htext : text ∈ texts)
    (hsession : r.backend_session_id ≠ "")
    (hsame : r.instructions_fingerprint = none ∨
      r.instructions_fingerprint = some (fingerprint text)) :
    BegunWith w r.backend_session_id text := by
  obtain ⟨b, hb, hnone | ⟨other, hother, hbegun, hprint⟩⟩ := h hsession
  · exact ⟨b, hb, .inl hnone⟩
  · rcases hsame with hsame | hsame
    · rw [hsame] at hprint
      cases hprint
    · have heq : fingerprint other = fingerprint text := by
        rw [hsame] at hprint
        exact (Option.some.inj hprint).symm
      exact ⟨b, hb, .inr (hdistinct other hother text htext heq ▸ hbegun)⟩

/-- What is resumed after the check was begun with the text, and the fingerprint stored is that of
the session kept. -/
theorem fresh_kept [DecidableEq F] {r : WorkerRecord F} {text resume : String}
    (hdistinct : Distinct fingerprint texts) (htext : text ∈ texts)
    (h : Matches fingerprint w texts r) (hresume : resume = "" ∨ resume = r.backend_session_id) :
    ((fresh_unless_same_instructions fingerprint r text resume).1 ≠ "" →
      BegunWith w (fresh_unless_same_instructions fingerprint r text resume).1 text) ∧
    Matches fingerprint w texts (fresh_unless_same_instructions fingerprint r text resume).2 := by
  by_cases hsame : r.instructions_fingerprint = none ∨
      r.instructions_fingerprint = some (fingerprint text)
  · have hkeep : fresh_unless_same_instructions fingerprint r text resume =
        (resume, begin_instructions r (fingerprint text) (resume = "")) := by
      rcases hsame with hsame | hsame <;> simp [fresh_unless_same_instructions, hsame]
    rw [hkeep]
    rcases hresume with rfl | rfl
    · exact ⟨fun hne => absurd rfl hne, fun hne => absurd rfl hne⟩
    · refine ⟨fun hne => h.begun hdistinct htext hne hsame, fun hne => ?_⟩
      have hsession : r.backend_session_id ≠ "" := by
        intro hempty
        simp [begin_instructions, hempty] at hne
      obtain ⟨b, hb, htext'⟩ := h.begun hdistinct htext hsession hsame
      refine ⟨b, by simpa [begin_instructions, hsession] using hb, ?_⟩
      exact htext'.imp_right fun hbegun => ⟨text, htext, hbegun, rfl⟩
  · have hdrop : fresh_unless_same_instructions fingerprint r text resume =
        ("", begin_instructions r (fingerprint text) true) := by
      rw [not_or] at hsame
      unfold fresh_unless_same_instructions
      cases hprint : r.instructions_fingerprint with
      | none => exact absurd hprint hsame.1
      | some f =>
        have hf : f ≠ fingerprint text := fun heq => hsame.2 (by rw [hprint, heq])
        simp [hf]
    rw [hdrop]
    exact ⟨fun hne => absurd rfl hne, fun hne => absurd rfl hne⟩

theorem fork_source_cases {workers : String → Option (WorkerRecord F)} {t : Task F}
    (h : (fork_source workers t).1 ≠ "") :
    t.job.fork_from_worker ≠ "" ∧ ∃ source, workers t.job.fork_from_worker = some source ∧
      source.backend_session_id ≠ "" ∧ source.backend = t.record.backend ∧
      source.machine = t.record.machine ∧
      (fork_source workers t).1 = source.backend_session_id := by
  unfold fork_source at *
  by_cases hfork : t.job.fork_from_worker = ""
  · simp [hfork] at h
  · refine ⟨hfork, ?_⟩
    rw [if_neg hfork] at *
    cases hsource : workers t.job.fork_from_worker with
    | none => simp [hsource] at h
    | some source =>
      simp only [hsource] at *
      split at h
      · exact absurd rfl h
      split at h
      · exact absurd rfl h
      split at h
      · exact absurd rfl h
      · rename_i hempty hbackend hmachine
        exact ⟨source, rfl, hempty, not_not.mp hbackend, not_not.mp hmachine,
          by simp [hempty, hbackend, hmachine]⟩

theorem Inv.request (h : Inv fingerprint texts w) (hdistinct : Distinct fingerprint texts)
    {t : Task F} {resume : String} (ht : w.tasks worker = some t) (hphase : t.phase = .begun resume)
    (hfits : Fits fingerprint w (.request worker)) :
    Good w t.job (request w.workers t resume) := by
  have hway := h.tasks worker t ht
  rw [OnItsWay, hphase] at hway
  refine ⟨?_, hway.1, fun hne => ?_⟩
  · by_cases hresume : resume = ""
    · exact .inl hresume
    · exact .inr (if_neg hresume)
  · have hresume : resume = "" := by
      by_contra hresume
      exact hne (if_neg hresume)
    subst hresume
    change (fork_source w.workers t).1 ≠ "" at hne
    change BegunWith w (fork_source w.workers t).1 t.job.instructions
    obtain ⟨hfork, source, hsource, hsession, hbackend, hmachine, hid⟩ := fork_source_cases hne
    rw [hid]
    exact (h.records _ source hsource).begun hdistinct (h.texts worker t ht) hsession
      (hfits t source ht hphase hfork hsource hsession hbackend hmachine)

/-! ## Every run -/

/-- The texts of the jobs that are claimed. -/
def Step.text : Step → Option String
  | .claim _ job _ => some job.instructions
  | _ => none

theorem Inv.create {backend machine : String} (h : Inv fingerprint texts w)
    (hnone : w.workers worker = none) :
    Inv fingerprint texts { w with
      workers := Function.update w.workers worker (some ⟨"", none, backend, machine, 0⟩) } := by
  refine h.step_of worker (Grows.refl w) ?_ (fun v _ => rfl) ?_ ?_ (fun p hp => .inl hp)
  · intro v hv
    dsimp only
    rw [Function.update_of_ne hv]
  · intro r hr
    dsimp only at hr
    rw [Function.update_self] at hr
    cases hr
    exact fun hne => absurd rfl hne
  · intro t ht
    refine absurd (h.tasks worker t ht) ?_
    unfold OnItsWay
    cases t.phase <;> simp [hnone]

theorem Inv.claim {r : WorkerRecord F} {job : Job} {now : ℚ} (h : Inv fingerprint texts w)
    (hr : w.workers worker = some r) (htext : job.instructions ∈ texts) :
    Inv fingerprint texts { w with
      tasks := Function.update w.tasks worker (some ⟨job, r, now, .claimed⟩) } := by
  refine h.step_of worker (Grows.refl w) (fun v _ => rfl) ?_
    (fun s hs => (h.records worker s hs).grows (Grows.refl w)) ?_ (fun p hp => .inl hp)
  · intro v hv
    dsimp only
    rw [Function.update_of_ne hv]
  · intro t ht
    dsimp only at ht
    rw [Function.update_self] at ht
    cases ht
    exact ⟨htext, hr⟩

theorem Inv.begin [DecidableEq F] {r : WorkerRecord F} {t : Task F} (h : Inv fingerprint texts w)
    (hdistinct : Distinct fingerprint texts) (hr : w.workers worker = some r)
    (ht : w.tasks worker = some t) (hphase : t.phase = .claimed) :
    let fresh := fresh_unless_same_instructions fingerprint r t.job.instructions
      (resumes session_timeout t)
    Inv fingerprint texts { w.with_task worker t (.begun fresh.1) with
      workers := Function.update w.workers worker (some fresh.2) } := by
  intro fresh
  have hrecord : r = t.record := by
    have hway := h.tasks worker t ht
    rw [OnItsWay, hphase] at hway
    exact Option.some.inj (hr.symm.trans hway)
  have hresume : resumes session_timeout t = "" ∨
      resumes session_timeout t = r.backend_session_id := hrecord ▸ resumes_or t
  obtain ⟨hbegun, hmatches⟩ :=
    fresh_kept hdistinct (h.texts worker t ht) (h.records worker r hr) hresume
  refine h.step_of worker (fun _ _ hb => hb) ?_ ?_ ?_ ?_ (fun p hp => .inl hp)
  · intro v hv
    dsimp only
    rw [Function.update_of_ne hv]
  · intro v hv
    dsimp only [World.with_task]
    rw [Function.update_of_ne hv]
  · intro s hs
    dsimp only at hs
    rw [Function.update_self] at hs
    cases hs
    exact hmatches
  · intro s hs
    dsimp only [World.with_task] at hs
    rw [Function.update_self] at hs
    cases hs
    exact ⟨h.texts worker t ht, hbegun, fresh.2, Function.update_self .., fresh_fingerprint ..⟩

theorem Inv.requested {t : Task F} {resume : String} (h : Inv fingerprint texts w)
    (hdistinct : Distinct fingerprint texts) (ht : w.tasks worker = some t)
    (hphase : t.phase = .begun resume) (hfits : Fits fingerprint w (.request worker)) :
    Inv fingerprint texts {
      w.with_task worker t (.running (Sessions.request w.workers t resume)) with
      requests := w.requests ++ [(t.job, Sessions.request w.workers t resume)] } := by
  refine h.step_of worker (fun _ _ hb => hb) (fun v _ => rfl) ?_
    (h.records worker) ?_ ?_
  · intro v hv
    dsimp only [World.with_task]
    rw [Function.update_of_ne hv]
  · intro s hs
    dsimp only [World.with_task] at hs
    rw [Function.update_self] at hs
    cases hs
    have hway := h.tasks worker t ht
    rw [OnItsWay, hphase] at hway
    exact ⟨h.texts worker t ht, hway⟩
  · intro p hp
    rcases List.mem_append.mp hp with hold | hnew
    · exact .inl hold
    · rw [List.mem_singleton.mp hnew]
      exact .inr ((h.request hdistinct ht hphase hfits).grows fun _ _ hb => hb)

theorem Inv.ended {sessions : String → Option (Option String)} {r : WorkerRecord F}
    (h : Inv fingerprint texts w)
    (hgrows : ∀ id b, w.sessions id = some b → sessions id = some b)
    (hmatches : Matches fingerprint { w with sessions := sessions } texts r) :
    Inv fingerprint texts { w with
      workers := Function.update w.workers worker (some r)
      tasks := Function.update w.tasks worker none
      sessions := sessions } := by
  refine h.step_of worker hgrows ?_ ?_ ?_ ?_ (fun p hp => .inl hp)
  · intro v hv
    dsimp only
    rw [Function.update_of_ne hv]
  · intro v hv
    dsimp only
    rw [Function.update_of_ne hv]
  · intro s hs
    dsimp only at hs
    rw [Function.update_self] at hs
    cases hs
    exact hmatches
  · intro s hs
    dsimp only at hs
    rw [Function.update_self] at hs
    cases hs

theorem Inv.finish_run {r : WorkerRecord F} {t : Task F} {request : RunRequest} {returned : String}
    {now : ℚ} {w' : World F} (h : Inv fingerprint texts w) (hr : w.workers worker = some r)
    (ht : w.tasks worker = some t) (hphase : t.phase = .running request) (hne : returned ≠ "")
    (hstep : finish_run w worker r t.job request returned now = some w') :
    Inv fingerprint texts w' := by
  have hway := h.tasks worker t ht
  rw [OnItsWay, hphase] at hway
  obtain ⟨hresumed, s, hs, hprint⟩ := hway
  have hrs : r = s := Option.some.inj (hr.symm.trans hs)
  subst hrs
  have htext := h.texts worker t ht
  unfold Sessions.finish_run at hstep
  by_cases hsame : returned = request.resume
  · -- The session that was resumed is kept.
    simp only [if_pos hsame, Option.some.injEq] at hstep
    subst hstep
    refine h.ended (fun _ _ hb => hb) fun _ => ?_
    obtain ⟨b, hb, hbegun⟩ := hresumed (hsame ▸ hne)
    exact ⟨b, hsame ▸ hb, hbegun.imp_right fun hb' => ⟨_, htext, hb', hprint⟩⟩
  · rw [if_neg hsame] at hstep
    split at hstep
    · cases hstep
    · rename_i hfresh
      cases hstep
      refine h.ended (fun id b hb => ?_) fun _ => ?_
      · have hid : id ≠ returned := by
          rintro rfl
          simp [hb] at hfresh
        rw [Function.update_of_ne hid]
        exact hb
      · refine ⟨_, Function.update_self .., ?_⟩
        unfold begun_with
        split
        · exact .inr ⟨_, htext, rfl, hprint⟩
        · rename_i hresume
          obtain ⟨b, hb, hbegun⟩ := hresumed hresume
          rw [hb]
          exact hbegun.imp_right fun hb' => ⟨_, htext, hb', hprint⟩

theorem step_inv [DecidableEq F] {step : Step} {w' : World F} (h : Inv fingerprint texts w)
    (hdistinct : Distinct fingerprint texts) (htext : ∀ text, step.text = some text → text ∈ texts)
    (hfits : Fits fingerprint w step)
    (hstep : Sessions.step fingerprint session_timeout w step = some w') :
    Inv fingerprint texts w' := by
  cases step with
  | create worker backend machine =>
    unfold Sessions.step at hstep
    dsimp only at hstep
    split at hstep
    · cases hstep
    · rename_i hnone
      cases hstep
      exact h.create hnone
  | claim worker job now =>
    unfold Sessions.step at hstep
    dsimp only at hstep
    split at hstep
    · rename_i r hr _
      cases hstep
      exact h.claim hr (htext _ rfl)
    · cases hstep
  | begin worker =>
    unfold Sessions.step at hstep
    dsimp only at hstep
    split at hstep
    · rename_i r t hr ht
      split at hstep
      · rename_i hphase
        cases hstep
        exact h.begin hdistinct hr ht hphase
      · cases hstep
    · cases hstep
  | request worker =>
    unfold Sessions.step at hstep
    dsimp only at hstep
    split at hstep
    · rename_i t ht
      split at hstep
      · rename_i resume hphase
        cases hstep
        exact h.requested hdistinct ht hphase hfits
      · cases hstep
    · cases hstep
  | finish worker returned now =>
    unfold Sessions.step at hstep
    dsimp only at hstep
    split at hstep
    · rename_i r t hr ht
      split at hstep
      · cases hstep
        exact h.ended (fun _ _ hb => hb) (h.records worker r hr)
      · rename_i hne
        split at hstep
        · rename_i request hphase
          exact h.finish_run hr ht hphase hne hstep
        · cases hstep
    · cases hstep
  | crash =>
    cases hstep
    exact ⟨h.records, nofun, nofun, fun p hp => (h.good p hp).grows (Grows.refl w)⟩

/-- Every step of the run fits the state that it is made in. -/
def EveryStepFits [DecidableEq F] (fingerprint : String → F) (session_timeout : ℚ) :
    World F → List Step → Prop
  | _, [] => True
  | w, step :: rest =>
    Fits fingerprint w step ∧ ∀ v, Sessions.step fingerprint session_timeout w step = some v →
      EveryStepFits fingerprint session_timeout v rest

theorem EveryStepFits.cons [DecidableEq F] {step : Step} {steps : List Step} {v : World F}
    (hfits : Fits fingerprint w step)
    (hstep : Sessions.step fingerprint session_timeout w step = some v)
    (h : EveryStepFits fingerprint session_timeout v steps) :
    EveryStepFits fingerprint session_timeout w (step :: steps) := by
  refine ⟨hfits, fun v' hv' => ?_⟩
  obtain rfl := Option.some.inj (hstep.symm.trans hv')
  exact h

theorem run_inv [DecidableEq F] {steps : List Step} (hdistinct : Distinct fingerprint texts) :
    ∀ {w w' : World F}, Inv fingerprint texts w →
      (∀ text ∈ steps.filterMap Step.text, text ∈ texts) →
      EveryStepFits fingerprint session_timeout w steps →
      run fingerprint session_timeout w steps = some w' → Inv fingerprint texts w' := by
  induction steps with
  | nil =>
    intro w w' h _ _ hrun
    cases hrun
    exact h
  | cons step steps ih =>
    intro w w' h htexts hfits hrun
    unfold run at hrun
    rw [List.foldlM_cons] at hrun
    obtain ⟨v, hstep, hrest⟩ := Option.bind_eq_some_iff.mp hrun
    have hv : Inv fingerprint texts v :=
      step_inv h hdistinct (fun text htext => htexts text (by simp [htext]))
        hfits.1 hstep
    refine ih hv (fun text htext => htexts text ?_) (hfits.2 v hstep) hrest
    rw [List.filterMap_cons]
    split
    · exact htext
    · exact List.mem_cons_of_mem _ htext

theorem initial_inv {workers : String → Option (WorkerRecord F)} {old : String → Bool}
    (hold : ∀ worker r, workers worker = some r → r.backend_session_id ≠ "" →
      old r.backend_session_id) : Inv fingerprint texts (initial workers old) := by
  refine ⟨fun worker r hr => ?_, nofun, nofun, nofun⟩
  obtain ⟨r', hr', rfl⟩ := Option.map_eq_some_iff.mp hr
  intro hne
  exact ⟨none, if_pos (hold worker r' hr' hne), .inl rfl⟩

/-- **In a run whose forks are of sessions with the fingerprint of the job, no request names two
sessions, and the one that it names was begun with the job's text, or before the fingerprints.** -/
theorem requests_good [DecidableEq F] {workers : String → Option (WorkerRecord F)}
    {old : String → Bool} {steps : List Step}
    (hold : ∀ worker r, workers worker = some r → r.backend_session_id ≠ "" →
      old r.backend_session_id)
    (hdistinct : Distinct fingerprint (steps.filterMap Step.text))
    (hfits : EveryStepFits fingerprint session_timeout (initial workers old) steps)
    (hrun : run fingerprint session_timeout (initial workers old) steps = some w) :
    ∀ p ∈ w.requests, Good w p.1 p.2 :=
  (run_inv hdistinct (initial_inv hold) (fun _ h => h) hfits hrun).good

end Steps

/-! ## A fork -/

/-- A worker runs a job with the first text, and another forks it for a job with the second. -/
def fork_under (first second : String) : List Step :=
  [.create "s" "codex" "local", .create "w" "codex" "local",
    .claim "s" ⟨"j1", 1, first, "", ""⟩ 1, .begin "s", .request "s", .finish "s" "S1" 2,
    .claim "w" ⟨"j2", 1, second, "", "s"⟩ 3, .begin "w", .request "w"]

def empty : World String := initial (fun _ => none) fun _ => false

theorem requests_good_fork :
    ∃ w, run id 100 empty (fork_under "rules" "rules") = some w ∧
      w.requests.map (·.2.fork_from) = ["", "S1"] ∧ ∀ p ∈ w.requests, Good w p.1 p.2 := by
  obtain ⟨w, hrun⟩ : ∃ w, run id 100 empty (fork_under "rules" "rules") = some w := ⟨_, rfl⟩
  have hforks : (run id 100 empty (fork_under "rules" "rules")).map
      (·.requests.map (·.2.fork_from)) = some ["", "S1"] := by decide
  rw [hrun] at hforks
  refine ⟨w, hrun, Option.some.inj hforks,
    requests_good (fun _ _ hr => ?_) (fun a _ b _ h => h) ?_ hrun⟩
  · cases hr
  · refine .cons trivial rfl <| .cons trivial rfl <| .cons trivial rfl <| .cons trivial rfl <|
      .cons ?_ rfl <| .cons trivial rfl <| .cons trivial rfl <| .cons trivial rfl <|
      .cons ?_ rfl trivial
    · rintro t source ⟨⟩ _ hfork
      exact absurd rfl hfork
    · rintro t source ⟨⟩ _ _ ⟨⟩ _ _ _
      exact .inr rfl

/-- The fingerprint of the source worker is not looked at. -/
theorem forks_other_rules :
    ¬ ∀ (steps : List Step) (w : World String), run id 100 empty steps = some w →
      ∀ p ∈ w.requests, Good w p.1 p.2 := by
  intro h
  have hgood := h (fork_under "old rules" "new rules") _ rfl
    (⟨"j2", 1, "new rules", "", "s"⟩, ⟨"j2", 1, "", "S1"⟩) (by decide)
  obtain ⟨b, hb, htext⟩ := hgood.fork (by decide)
  have hbegun : b = some "old rules" := (Option.some.inj hb).symm
  rw [hbegun] at htext
  exact absurd htext (by decide)

end Fridica.Workers.Sessions
