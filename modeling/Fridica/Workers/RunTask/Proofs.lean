import Fridica.Lib.Run
import Fridica.Workers.RunTask.Spec

/-!
# One completion for each attempt

What the log says at each phase, whatever signals come in meanwhile.
-/

namespace Fridica.Workers.RunTask

/-! ## The log -/

theorem split_concat {α : Type} {log earlier later : List α} {e x : α}
    (h : log ++ [e] = earlier ++ x :: later) :
    (earlier = log ∧ x = e ∧ later = []) ∨
      ∃ later', later = later' ++ [e] ∧ log = earlier ++ x :: later' := by
  rcases List.eq_nil_or_concat later with rfl | ⟨later', y, rfl⟩
  · obtain ⟨hlog, he⟩ := List.append_inj' h rfl
    exact .inl ⟨hlog.symm, (List.cons.inj he).1.symm, rfl⟩
  · rw [List.concat_eq_append, ← List.cons_append, ← List.append_assoc] at h
    obtain ⟨hlog, he⟩ := List.append_inj' h rfl
    rw [List.concat_eq_append, (List.cons.inj he).1]
    exact .inr ⟨later', rfl, hlog⟩

@[simp] theorem waits_concat (log : List Event) (e : Event) :
    waits (log ++ [e]) = waits log ++ e.ends_wait.toList := by
  unfold waits
  rw [List.filterMap_append]
  cases h : e.ends_wait <;> simp [h]

@[simp] theorem completions_concat (log : List Event) (e : Event) :
    completions (log ++ [e]) = completions log ++ e.completes.toList := by
  unfold completions
  rw [List.filterMap_append]
  cases h : e.completes <;> simp [h]

theorem last_sent_concat (log : List Event) (e : Event) :
    last_sent (log ++ [e]) = e.sends.or (last_sent log) := by
  unfold last_sent
  rw [List.filterMap_append]
  cases h : e.sends <;> simp [h]

theorem mem_of_last_sent {log : List Event} {signal : Signal} (h : last_sent log = some signal) :
    .sent signal ∈ log := by
  obtain ⟨e, he, hsends⟩ := List.mem_filterMap.mp (List.mem_of_getLast? h)
  cases e with
  | sent signal' => exact Option.some.inj hsends ▸ he
  | _ => cases hsends

/-- What the log says of the order of its events. -/
structure Ordered (log : List Event) : Prop where
  latest : ∀ earlier signal later, log = earlier ++ .taken signal :: later →
    last_sent earlier = some signal
  stop_sent : ∀ earlier job attempt c later, log = earlier ++ .recorded job attempt c :: later →
    c.stopped → .sent .stop ∈ earlier
  begun_first : ∀ earlier signal later, log = earlier ++ .taken signal :: later → .begun ∉ later
  real : ∀ signal, .taken signal ∈ log → signal ≠ .run

theorem Ordered.nil : Ordered [] := by
  constructor <;> simp

theorem Ordered.concat {log : List Event} (h : Ordered log) (e : Event)
    (htaken : ∀ signal, e = .taken signal → last_sent log = some signal ∧ signal ≠ .run)
    (hrecorded : ∀ job attempt c, e = .recorded job attempt c → c.stopped → .sent .stop ∈ log)
    (hbegun : e = .begun → ∀ signal, .taken signal ∉ log) : Ordered (log ++ [e]) := by
  constructor
  · intro earlier signal later hlog
    rcases split_concat hlog with ⟨rfl, he, -⟩ | ⟨later', -, hlog⟩
    · exact (htaken signal he.symm).1
    · exact h.latest earlier signal later' hlog
  · intro earlier job attempt c later hlog
    rcases split_concat hlog with ⟨rfl, he, -⟩ | ⟨later', -, hlog⟩
    · exact hrecorded job attempt c he.symm
    · exact h.stop_sent earlier job attempt c later' hlog
  · intro earlier signal later hlog hmem
    rcases split_concat hlog with ⟨-, -, rfl⟩ | ⟨later', rfl, hold⟩
    · cases hmem
    · rcases List.mem_append.mp hmem with hmem | hmem
      · exact h.begun_first earlier signal later' hold hmem
      · refine hbegun (List.mem_singleton.mp hmem).symm signal ?_
        rw [hold]
        simp
  · intro signal hmem
    rcases List.mem_append.mp hmem with hmem | hmem
    · exact h.real signal hmem
    · exact (htaken signal (List.mem_singleton.mp hmem).symm).2

theorem Ordered.plain {log : List Event} (h : Ordered log) {e : Event}
    (htaken : ∀ signal, e ≠ .taken signal) (hrecorded : e.completes = none) (hbegun : e ≠ .begun) :
    Ordered (log ++ [e]) := by
  apply h.concat
  · exact fun signal he => absurd he (htaken signal)
  · rintro job attempt c rfl
    cases hrecorded
  · exact fun he => absurd he hbegun

/-! ## The operation -/

def Stage.backend : Stage → Bool
  | .run | .collect _ => true
  | _ => false

theorem advance_pending {stage next : Stage} {answer : Answer}
    (h : advance stage answer = some (.pending next)) :
    next.backend = (stage.backend || stage = .record) := by
  cases stage with
  | run =>
    cases answer with
    | outcome outcome =>
      unfold advance at h
      dsimp only at h
      split at h
      · cases h
        rfl
      · cases h
    | _ => cases h
  | collect outcome =>
    cases answer with
    | artifacts collected => cases collected <;> cases h
    | _ => cases h
  | _ =>
    cases answer with
    | done =>
      cases h
      rfl
    | _ => cases h

theorem poll_backend {stage : Stage} {answers : List Answer} {operation : Operation} {began : Bool}
    (h : poll stage answers = some (operation, began)) :
    (stage.backend → began = false) ∧
      ∀ next, operation = .pending next → next.backend = (stage.backend || began) := by
  induction answers generalizing stage operation began with
  | nil =>
    cases h
    refine ⟨fun _ => rfl, ?_⟩
    rintro _ ⟨⟩
    rw [Bool.or_false]
  | cons answer answers ih =>
    rw [poll] at h
    split at h
    next next hnext =>
      obtain ⟨⟨operation', began'⟩, hpoll, hpair⟩ := Option.map_eq_some_iff.mp h
      cases hpair
      obtain ⟨hbegan, hbackend⟩ := ih hpoll
      have hadvance := advance_pending hnext
      constructor
      · intro hstage
        have hrecord : stage ≠ .record := by
          rintro rfl
          cases hstage
        rw [hstage, Bool.true_or] at hadvance
        rw [hbegan hadvance]
        simp [hrecord]
      · rintro last rfl
        rw [hbackend last rfl, hadvance, Bool.or_assoc, Bool.or_comm (decide _)]
    next =>
      split at h
      · cases h
        exact ⟨fun _ => rfl, nofun⟩
      · cases h
    next => cases h

/-! ## The phases -/

section Phases

variable {t : Task} {s s' : State}

/-- The phases in which the operation may be polled again. -/
def Phase.polls : Phase → Bool
  | .select _ | .cancelling _ | .interrupting _ | .draining _ => true
  | _ => false

structure Completed (t : Task) (log : List Event) (w : Waited) : Prop where
  waits : waits log = [w.signal]
  completions : completions log = [(t.job.id, t.job.attempt, completion w)]

/-- What the log says at a phase. -/
def Holds (t : Task) (log : List Event) : Phase → Prop
  | .select _ => waits log = [] ∧ completions log = []
  | .cancelling signal | .interrupting signal | .draining signal =>
    waits log = [signal] ∧ completions log = [] ∧ signal ≠ .run
  | .overdue => waits log = [.run] ∧ completions log = []
  | .waking w | .closing w | .noting w =>
    waits log = [w.signal] ∧ completions log = [] ∧ retires t w
  | .recording w retire closed =>
    waits log = [w.signal] ∧ completions log = [] ∧ retire = retires t w ∧
      (retire → Closed log ⟨retire, closed⟩)
  | .closing_again =>
    ∃ w, Completed t log w ∧ (retires t w → .closed true ∈ log ∨ .noted ∈ log)
  | .ended e => ∃ w, Completed t log w ∧ (retires t w → Closed log e)

theorem Closed.mono {log log' : List Event} {e : TaskEnd} (h : Closed log e)
    (hmem : ∀ e ∈ log, e ∈ log') : Closed log' e :=
  h.imp (hmem _) fun h => ⟨hmem _ h.1, h.2⟩

theorem Holds.mono {log log' : List Event} {p : Phase} (h : Holds t log p)
    (hwaits : waits log' = waits log) (hcompletions : completions log' = completions log)
    (hmem : ∀ e ∈ log, e ∈ log') : Holds t log' p := by
  cases p with
  | recording w retire closed =>
    obtain ⟨h1, h2, h3, hclosed⟩ := h
    exact ⟨hwaits.trans h1, hcompletions.trans h2, h3, fun hr => (hclosed hr).mono hmem⟩
  | closing_again =>
    obtain ⟨w, ⟨h1, h2⟩, hclosed⟩ := h
    exact ⟨w, ⟨hwaits.trans h1, hcompletions.trans h2⟩,
      fun hr => (hclosed hr).imp (hmem _) (hmem _)⟩
  | ended e =>
    obtain ⟨w, ⟨h1, h2⟩, hclosed⟩ := h
    exact ⟨w, ⟨hwaits.trans h1, hcompletions.trans h2⟩, fun hr => (hclosed hr).mono hmem⟩
  | select | overdue => exact ⟨hwaits.trans h.1, hcompletions.trans h.2⟩
  | cancelling | interrupting | draining | waking | closing | noting =>
    exact ⟨hwaits.trans h.1, hcompletions.trans h.2.1, h.2.2⟩

theorem holds_after {log : List Event} {w : Waited} (hwaits : waits log = [w.signal])
    (hcompletions : completions log = []) : Holds t log (after t w) := by
  unfold after
  split
  next hretires =>
    split
    · exact ⟨hwaits, hcompletions, hretires⟩
    · exact ⟨hwaits, hcompletions, hretires⟩
  next hstays => exact ⟨hwaits, hcompletions, by simpa using hstays, nofun⟩

theorem after_polls (w : Waited) : (after t w).polls = false := by
  unfold after
  split
  · split <;> rfl
  · rfl

/-- What the task has heard of the signals, whatever its phase. -/
structure Heard (s : State) : Prop where
  ordered : Ordered s.log
  channel : s.signal = (last_sent s.log).getD .run
  unseen : s.unseen → s.signal ≠ .run

structure Inv (t : Task) (s : State) : Prop extends Heard s where
  backend : s.phase.polls → s.in_backend = s.stage.backend
  draining : ∀ signal, s.phase = .draining signal → s.in_backend
  holds : Holds t s.log s.phase

theorem initial_inv : Inv t initial where
  ordered := .nil
  channel := rfl
  unseen := nofun
  backend _ := rfl
  draining := nofun
  holds := ⟨rfl, rfl⟩

theorem Heard.logs (h : Heard s) {e : Event} (hordered : Ordered (s.log ++ [e]))
    (hsends : e.sends = none) : Heard (s.logs e) where
  ordered := hordered
  channel := by
    unfold State.logs
    dsimp only
    rw [last_sent_concat, hsends]
    exact h.channel
  unseen := h.unseen

theorem Heard.plain (h : Heard s) (e : Event) (htaken : ∀ signal, e ≠ .taken signal)
    (hcompletes : e.completes = none) (hbegun : e ≠ .begun) (hsends : e.sends = none) :
    Heard (s.logs e) :=
  h.logs (h.ordered.plain htaken hcompletes hbegun) hsends

theorem Heard.to (h : Heard s) (p : Phase) : Heard (s.to p) :=
  ⟨h.ordered, h.channel, h.unseen⟩

theorem Heard.rests (h : Heard s) {p : Phase} (hpolls : p.polls = false) (hholds : Holds t s.log p) :
    Inv t (s.to p) where
  toHeard := h.to p
  backend hp := by
    unfold State.to at hp
    rw [hpolls] at hp
    cases hp
  draining signal hp := by
    unfold State.to at hp
    dsimp only at hp
    rw [hp] at hpolls
    cases hpolls
  holds := hholds

theorem Inv.to (h : Inv t s) {p : Phase} (hpolls : p.polls → s.phase.polls)
    (hdraining : ∀ signal, p = .draining signal → s.in_backend) (hholds : Holds t s.log p) :
    Inv t (s.to p) where
  toHeard := h.toHeard.to p
  backend hp := h.backend (hpolls hp)
  draining := hdraining
  holds := hholds

/-! ## Polls -/

@[simp] theorem polled_stage (s : State) (began : Bool) : (s.polled began).stage = s.stage := by
  unfold State.polled
  split <;> rfl

theorem polled_in_backend (s : State) (began : Bool) :
    (s.polled began).in_backend = (s.in_backend || began) := by
  unfold State.polled
  cases began
  · exact (Bool.or_false _).symm
  · exact (Bool.or_true _).symm

@[simp] theorem polled_waits (s : State) (began : Bool) :
    waits (s.polled began).log = waits s.log := by
  unfold State.polled
  split
  · exact (waits_concat _ _).trans (List.append_nil _)
  · rfl

@[simp] theorem polled_completions (s : State) (began : Bool) :
    completions (s.polled began).log = completions s.log := by
  unfold State.polled
  split
  · exact (completions_concat _ _).trans (List.append_nil _)
  · rfl

theorem not_taken {log : List Event} (h : waits log = []) (signal : Signal) :
    .taken signal ∉ log := by
  intro hmem
  have htaken := List.filterMap_eq_nil_iff.mp h _ hmem
  cases htaken

theorem Heard.polled (h : Heard s) {began : Bool}
    (hbegan : began → ∀ signal, .taken signal ∉ s.log) : Heard (s.polled began) := by
  unfold State.polled
  split
  next hbegins =>
    apply Heard.logs
    · exact ⟨h.ordered, h.channel, h.unseen⟩
    · apply h.ordered.concat
      · exact nofun
      · exact nofun
      · exact fun _ => hbegan hbegins
    · rfl
  next => exact h

theorem Inv.poll_wait (h : Inv t s) (hphase : s.phase = .select .operation) (stage : Stage)
    (began : Bool) : Heard ({ s with stage }.polled began) := by
  have hholds := h.holds
  rw [hphase] at hholds
  apply Heard.polled
  · exact ⟨h.ordered, h.channel, h.unseen⟩
  · exact fun _ => not_taken hholds.1

theorem Inv.poll_drain (h : Inv t s) {signal : Signal} (hphase : s.phase = .draining signal)
    {answers : List Answer} {operation : Operation} {began : Bool}
    (hpoll : poll s.stage answers = some (operation, began)) : began = false := by
  apply (poll_backend hpoll).1
  rw [← h.backend (by rw [hphase]; rfl)]
  exact h.draining signal hphase

/-! ## One step -/

theorem send_inv {signal : Signal} (h : Inv t s) (hstep : step t s (.send signal) = some s') :
    Inv t s' := by
  unfold step at hstep
  dsimp only at hstep
  split at hstep
  next => cases hstep
  next hsignal =>
    rw [← Option.some.inj hstep]
    constructor
    · constructor
      · exact h.ordered.plain nofun rfl nofun
      · unfold State.logs
        dsimp only
        rw [last_sent_concat]
        rfl
      · exact fun _ => hsignal
    · exact h.backend
    · exact h.draining
    · apply h.holds.mono
      · exact (waits_concat _ _).trans (List.append_nil _)
      · exact (completions_concat _ _).trans (List.append_nil _)
      · exact fun e he => List.mem_append_left _ he

theorem poll_inv {answers : List Answer} (h : Inv t s)
    (hstep : step t s (.poll answers) = some s') : Inv t s' := by
  unfold step at hstep
  dsimp only at hstep
  split at hstep
  next hphase =>
    -- The control branch comes first.
    have hholds := h.holds
    rw [hphase] at hholds
    split at hstep
    next hunseen =>
      rw [← Option.some.inj hstep]
      have hlast : last_sent s.log = some s.signal := by
        have hsignal := h.unseen hunseen
        rw [h.channel] at hsignal ⊢
        cases hsent : last_sent s.log with
        | none =>
          rw [hsent] at hsignal
          exact absurd rfl hsignal
        | some signal => rfl
      constructor
      · apply Heard.to
        apply Heard.logs
        · exact ⟨h.ordered, h.channel, nofun⟩
        · apply h.ordered.concat
          · rintro signal ⟨⟩
            exact ⟨hlast, h.unseen hunseen⟩
          · exact nofun
          · exact nofun
        · rfl
      · exact fun _ => h.backend (by rw [hphase]; rfl)
      · exact nofun
      · refine ⟨?_, ?_, h.unseen hunseen⟩
        · exact (waits_concat _ _).trans (by rw [hholds.1]; rfl)
        · exact (completions_concat _ _).trans (by rw [hholds.2]; rfl)
    next =>
      rw [← Option.some.inj hstep]
      apply h.to
      · exact fun _ => by rw [hphase]; rfl
      · exact nofun
      · exact hholds
  next hphase =>
    have hholds := h.holds
    rw [hphase] at hholds
    split at hstep
    next =>
      rw [← Option.some.inj hstep]
      apply Heard.rests
      · exact h.toHeard.plain .expired nofun rfl nofun rfl
      · rfl
      · refine ⟨?_, ?_⟩
        · exact (waits_concat _ _).trans (by rw [hholds.1]; rfl)
        · exact (completions_concat _ _).trans (by rw [hholds.2]; rfl)
    next =>
      rw [← Option.some.inj hstep]
      apply h.to
      · exact fun _ => by rw [hphase]; rfl
      · exact nofun
      · exact hholds
  next hphase =>
    have hholds := h.holds
    rw [hphase] at hholds
    split at hstep
    next stage began hpoll =>
      rw [← Option.some.inj hstep]
      constructor
      · exact (h.poll_wait hphase stage began).to _
      · intro _
        have hbackend := (poll_backend hpoll).2 stage rfl
        rw [← h.backend (by rw [hphase]; rfl)] at hbackend
        unfold State.to
        dsimp only
        rw [polled_in_backend, polled_stage]
        exact hbackend.symm
      · exact nofun
      · refine ⟨?_, ?_⟩
        · exact (polled_waits _ _).trans hholds.1
        · exact (polled_completions _ _).trans hholds.2
    next result began hpoll =>
      rw [← Option.some.inj hstep]
      apply Heard.rests
      · exact (h.poll_wait hphase s.stage began).plain .finished nofun rfl nofun rfl
      · exact after_polls _
      · apply holds_after
        · exact (waits_concat _ _).trans (by rw [polled_waits, hholds.1]; rfl)
        · exact (completions_concat _ _).trans (by rw [polled_completions, hholds.2]; rfl)
    next => cases hstep
  next => cases hstep

theorem cancelled_inv (h : Inv t s) (hstep : step t s .cancelled = some s') : Inv t s' := by
  unfold step at hstep
  dsimp only at hstep
  have hholds := h.holds
  split at hstep
  next signal hphase =>
    rw [hphase] at hholds
    rw [← Option.some.inj hstep]
    apply h.to
    · exact fun _ => by rw [hphase]; rfl
    · exact nofun
    · exact hholds
  next w hphase =>
    rw [hphase] at hholds
    rw [← Option.some.inj hstep]
    exact h.toHeard.rests rfl hholds
  next => cases hstep

theorem interrupted_inv (h : Inv t s) (hstep : step t s .interrupted = some s') : Inv t s' := by
  unfold step at hstep
  dsimp only at hstep
  have hholds := h.holds
  split at hstep
  next signal hphase =>
    rw [hphase] at hholds
    split at hstep
    next hdrains =>
      rw [← Option.some.inj hstep]
      apply h.to
      · exact fun _ => by rw [hphase]; rfl
      · exact fun _ _ => hdrains.1
      · exact hholds
    next =>
      rw [← Option.some.inj hstep]
      exact h.toHeard.rests (after_polls _) (holds_after hholds.1 hholds.2.1)
  next hphase =>
    rw [hphase] at hholds
    rw [← Option.some.inj hstep]
    exact h.toHeard.rests (after_polls _) (holds_after hholds.1 hholds.2)
  next => cases hstep

theorem drain_inv {answers : List Answer} (h : Inv t s)
    (hstep : step t s (.drain answers) = some s') : Inv t s' := by
  unfold step at hstep
  dsimp only at hstep
  have hholds := h.holds
  split at hstep
  next signal hphase =>
    split at hstep
    next stage began hpoll =>
      obtain rfl := h.poll_drain hphase hpoll
      rw [← Option.some.inj hstep]
      constructor
      · exact ⟨h.ordered, h.channel, h.unseen⟩
      · intro _
        have hbackend := (poll_backend hpoll).2 stage rfl
        rw [← h.backend (by rw [hphase]; rfl), Bool.or_false] at hbackend
        exact hbackend.symm
      · exact h.draining
      · exact hholds
    next result began hpoll =>
      obtain rfl := h.poll_drain hphase hpoll
      rw [hphase] at hholds
      rw [← Option.some.inj hstep]
      exact h.toHeard.rests (after_polls _) (holds_after hholds.1 hholds.2.1)
    next => cases hstep
  next => cases hstep

theorem give_up_inv (h : Inv t s) (hstep : step t s .give_up = some s') : Inv t s' := by
  unfold step at hstep
  dsimp only at hstep
  have hholds := h.holds
  split at hstep
  next signal hphase =>
    rw [hphase] at hholds
    rw [← Option.some.inj hstep]
    exact h.toHeard.rests (after_polls _) (holds_after hholds.1 hholds.2.1)
  next => cases hstep

theorem close_inv {ended_well alive : Bool} (h : Inv t s)
    (hstep : step t s (.close ended_well alive) = some s') : Inv t s' := by
  unfold step at hstep
  dsimp only at hstep
  have hholds := h.holds
  have hheard := h.toHeard.plain (.closed (ended_well && !alive)) nofun rfl nofun rfl
  split at hstep
  next w hphase =>
    rw [hphase] at hholds
    obtain ⟨hwaits, hcompletions, hretires⟩ := hholds
    have hwaits' := (waits_concat s.log (.closed (ended_well && !alive))).trans
      ((List.append_nil _).trans hwaits)
    have hcompletions' := (completions_concat s.log (.closed (ended_well && !alive))).trans
      ((List.append_nil _).trans hcompletions)
    rw [← Option.some.inj hstep]
    split
    next hconfirmed =>
      refine hheard.rests rfl ⟨hwaits', hcompletions', hretires.symm, fun _ => .inl ?_⟩
      exact List.mem_append_right _ (by rw [hconfirmed]; exact List.mem_singleton_self _)
    next => exact hheard.rests rfl ⟨hwaits', hcompletions', hretires⟩
  next hphase =>
    rw [hphase] at hholds
    obtain ⟨w, ⟨hwaits, hcompletions⟩, hclosed⟩ := hholds
    rw [← Option.some.inj hstep]
    refine hheard.rests rfl ⟨w, ⟨?_, ?_⟩, fun hretires => ?_⟩
    · exact (waits_concat _ _).trans ((List.append_nil _).trans hwaits)
    · exact (completions_concat _ _).trans ((List.append_nil _).trans hcompletions)
    · cases hconfirmed : ended_well && !alive with
      | true => exact .inl (List.mem_append_right _ (List.mem_singleton_self _))
      | false =>
        rcases hclosed hretires with hclosed | hnoted
        · exact .inl (List.mem_append_left _ hclosed)
        · exact .inr ⟨List.mem_append_left _ hnoted, rfl, rfl⟩
  next => cases hstep

theorem note_inv (h : Inv t s) (hstep : step t s .note = some s') : Inv t s' := by
  unfold step at hstep
  dsimp only at hstep
  have hholds := h.holds
  split at hstep
  next w hphase =>
    rw [hphase] at hholds
    obtain ⟨hwaits, hcompletions, hretires⟩ := hholds
    rw [← Option.some.inj hstep]
    apply (h.toHeard.plain .noted nofun rfl nofun rfl).rests rfl
    refine ⟨?_, ?_, hretires.symm, fun _ => .inr ⟨?_, rfl, rfl⟩⟩
    · exact (waits_concat _ _).trans ((List.append_nil _).trans hwaits)
    · exact (completions_concat _ _).trans ((List.append_nil _).trans hcompletions)
    · exact List.mem_append_right _ (List.mem_singleton_self _)
  next => cases hstep

theorem taken_of_waits {log : List Event} {signal : Signal} (h : waits log = [signal])
    (hsignal : signal ≠ .run) : .taken signal ∈ log := by
  have hmem : signal ∈ waits log := by rw [h]; exact List.mem_singleton_self _
  obtain ⟨e, he, hends⟩ := List.mem_filterMap.mp hmem
  cases e with
  | taken signal' => exact Option.some.inj hends ▸ he
  | finished | expired => exact absurd (Option.some.inj hends).symm hsignal
  | _ => cases hends

theorem Ordered.sent {log : List Event} (h : Ordered log) {signal : Signal}
    (htaken : .taken signal ∈ log) : .sent signal ∈ log := by
  obtain ⟨earlier, later, rfl⟩ := List.append_of_mem htaken
  exact List.mem_append_left _ (mem_of_last_sent (h.latest earlier signal later rfl))

theorem complete_inv {stale : Bool} (h : Inv t s)
    (hstep : step t s (.complete stale) = some s') : Inv t s' := by
  unfold step at hstep
  dsimp only at hstep
  have hholds := h.holds
  split at hstep
  next w retire closed hphase =>
    rw [hphase] at hholds
    obtain ⟨hwaits, hcompletions, hretires, hclosed⟩ := hholds
    rw [← Option.some.inj hstep]
    have hheard : Heard (s.logs (.recorded t.job.id t.job.attempt (completion w))) := by
      apply h.toHeard.logs
      · apply h.ordered.concat
        · exact nofun
        · rintro _ _ _ ⟨⟩ hstopped
          have hstop : w.signal = .stop := of_decide_eq_true hstopped
          exact h.ordered.sent (taken_of_waits (hstop ▸ hwaits) nofun)
        · exact nofun
      · rfl
    have hcompleted : Completed t
        (s.logs (.recorded t.job.id t.job.attempt (completion w))).log w := by
      constructor
      · exact (waits_concat _ _).trans ((List.append_nil _).trans hwaits)
      · exact (completions_concat _ _).trans (by rw [hcompletions]; rfl)
    have hkeeps : ∀ e ∈ s.log,
        e ∈ (s.logs (.recorded t.job.id t.job.attempt (completion w))).log :=
      fun _ he => List.mem_append_left _ he
    rw [hretires] at hclosed
    split
    · refine hheard.rests rfl ⟨w, hcompleted, fun hr => ?_⟩
      rcases hclosed hr with hconfirmed | ⟨hnoted, -⟩
      · exact .inl (hkeeps _ hconfirmed)
      · exact .inr (hkeeps _ hnoted)
    · refine hheard.rests rfl ⟨w, hcompleted, fun hr => ?_⟩
      rw [hretires]
      exact (hclosed hr).mono hkeeps
  next => cases hstep

theorem step_inv {a : Action} (h : Inv t s) (hstep : step t s a = some s') : Inv t s' := by
  cases a with
  | send signal => exact send_inv h hstep
  | pass =>
    rw [← Option.some.inj hstep]
    exact ⟨⟨h.ordered, h.channel, h.unseen⟩, h.backend, h.draining, h.holds⟩
  | poll answers => exact poll_inv h hstep
  | cancelled => exact cancelled_inv h hstep
  | interrupted => exact interrupted_inv h hstep
  | drain answers => exact drain_inv h hstep
  | give_up => exact give_up_inv h hstep
  | close ended_well alive => exact close_inv h hstep
  | note => exact note_inv h hstep
  | complete stale => exact complete_inv h hstep

theorem run_inv {actions : List Action} (h : Inv t s) (hrun : run t s actions = some s') :
    Inv t s' :=
  Run.keeps_of_actions (fun _ => rfl) (fun _ _ _ => rfl) (fun _ _ _ => step_inv) h hrun

/-! ## The end -/

def Ends (t : Task) (s : State) : Prop :=
  ∃ actions s' e, run t s actions = some s' ∧ s'.phase = .ended e

theorem Ends.step {a : Action} {u : State} (h : Ends t u) (hstep : step t s a = some u) :
    Ends t s := by
  obtain ⟨actions, s', e, hrun, hend⟩ := h
  refine ⟨a :: actions, s', e, ?_, hend⟩
  rw [run, hstep]
  exact hrun

theorem ends_ended {e : TaskEnd} (h : s.phase = .ended e) : Ends t s :=
  ⟨[], s, e, rfl, h⟩

theorem ends_recording {w : Waited} {retire closed : Bool}
    (h : s.phase = .recording w retire closed) : Ends t s := by
  apply Ends.step (a := .complete false)
    (u := (s.logs (.recorded t.job.id t.job.attempt (completion w))).to (.ended ⟨retire, closed⟩))
  · exact ends_ended rfl
  · simp [RunTask.step, h]

theorem ends_closing {w : Waited} (h : s.phase = .closing w) : Ends t s := by
  apply Ends.step (a := .close true false)
    (u := (s.logs (.closed true)).to (.recording w true true))
  · exact ends_recording rfl
  · simp [RunTask.step, h]

theorem ends_after {w : Waited} (h : s.phase = after t w) : Ends t s := by
  unfold after at h
  split at h
  next =>
    split at h
    · apply Ends.step (a := .cancelled) (u := s.to (.closing w))
      · exact ends_closing rfl
      · simp [RunTask.step, h]
    · exact ends_closing h
  next => exact ends_recording h

theorem ends_draining {signal : Signal} (h : s.phase = .draining signal) : Ends t s := by
  apply Ends.step (a := .give_up)
    (u := s.to (after t ⟨.error (interrupted_failure signal), signal⟩))
  · exact ends_after rfl
  · simp [RunTask.step, h]

theorem ends_interrupting {signal : Signal} (h : s.phase = .interrupting signal) : Ends t s := by
  by_cases hdrains : s.in_backend ∧ signal ≠ .shutdown
  · apply Ends.step (a := .interrupted) (u := s.to (.draining signal))
    · exact ends_draining rfl
    · simp [RunTask.step, h, hdrains]
  · apply Ends.step (a := .interrupted)
      (u := s.to (after t ⟨.error (interrupted_failure signal), signal⟩))
    · exact ends_after rfl
    · simp [RunTask.step, h, hdrains]

theorem ends_cancelling {signal : Signal} (h : s.phase = .cancelling signal) : Ends t s := by
  apply Ends.step (a := .cancelled) (u := s.to (.interrupting signal))
  · exact ends_interrupting rfl
  · simp [RunTask.step, h]

theorem ends_overdue (h : s.phase = .overdue) : Ends t s := by
  apply Ends.step (a := .interrupted) (u := s.to (after t ⟨.error timeout_failure, .run⟩))
  · exact ends_after rfl
  · simp [RunTask.step, h]

theorem ends_timeout (h : s.phase = .select .timeout) : Ends t s := by
  apply Ends.step (a := .pass) (u := { s with late := true })
  · apply Ends.step (a := .poll []) (u := ({ s with late := true }.logs .expired).to .overdue)
    · exact ends_overdue rfl
    · simp [RunTask.step, h]
  · rfl

theorem ends_control (h : s.phase = .select .control) : Ends t s := by
  cases hunseen : s.unseen with
  | true =>
    apply Ends.step (a := .poll [])
      (u := ({ s with unseen := false }.logs (.taken s.signal)).to (.cancelling s.signal))
    · exact ends_cancelling rfl
    · simp [RunTask.step, h, hunseen]
  | false =>
    apply Ends.step (a := .poll []) (u := s.to (.select .timeout))
    · exact ends_timeout rfl
    · simp [RunTask.step, h, hunseen]

/-- Nothing keeps a task from its end: once its deadline has passed, every wait of it is bounded. -/
theorem ends (s : State) : Ends t s := by
  cases h : s.phase with
  | select branch =>
    cases branch with
    | control => exact ends_control h
    | timeout => exact ends_timeout h
    | operation =>
      apply Ends.step (a := .poll []) (u := s.to (.select .control))
      · exact ends_control rfl
      · simp [RunTask.step, h, poll, State.polled, State.to]
  | cancelling signal => exact ends_cancelling h
  | interrupting signal => exact ends_interrupting h
  | draining signal => exact ends_draining h
  | overdue => exact ends_overdue h
  | waking w =>
    apply Ends.step (a := .cancelled) (u := s.to (.closing w))
    · exact ends_closing rfl
    · simp [RunTask.step, h]
  | closing w => exact ends_closing h
  | noting w =>
    apply Ends.step (a := .note) (u := (s.logs .noted).to (.recording w true false))
    · exact ends_recording rfl
    · simp [RunTask.step, h]
  | recording w retire closed => exact ends_recording h
  | closing_again =>
    apply Ends.step (a := .close true false) (u := (s.logs (.closed true)).to (.ended ⟨true, true⟩))
    · exact ends_ended rfl
    · simp [RunTask.step, h]
  | ended e => exact ends_ended h

/-! ## The claim -/

/-- There is no completion yet, or the one of how the wait ended. -/
theorem Inv.completed (h : Inv t s) :
    completions s.log = [] ∨ ∃ w, Completed t s.log w := by
  have hholds := h.holds
  cases hphase : s.phase with
  | select | overdue =>
    rw [hphase] at hholds
    exact .inl hholds.2
  | cancelling | interrupting | draining | waking | closing | noting | recording =>
    rw [hphase] at hholds
    exact .inl hholds.2.1
  | closing_again | ended =>
    rw [hphase] at hholds
    obtain ⟨w, hw, -⟩ := hholds
    exact .inr ⟨w, hw⟩

theorem eq_completion {w : Waited} (h : Completed t s.log w) {c : String × Nat × Completion}
    (hc : c ∈ completions s.log) : c = (t.job.id, t.job.attempt, completion w) := by
  rw [h.completions] at hc
  exact List.mem_singleton.mp hc

theorem Inv.of_mem (h : Inv t s) {c : String × Nat × Completion} (hc : c ∈ completions s.log) :
    ∃ w, Completed t s.log w ∧ c = (t.job.id, t.job.attempt, completion w) := by
  rcases h.completed with hnone | ⟨w, hw⟩
  · rw [hnone] at hc
    cases hc
  · exact ⟨w, hw, eq_completion hw hc⟩

theorem signal_of_taken {log : List Event} {signal signal' : Signal} (h : waits log = [signal'])
    (htaken : .taken signal ∈ log) : signal = signal' := by
  have hmem : signal ∈ waits log := List.mem_filterMap.mpr ⟨_, htaken, rfl⟩
  rw [h] at hmem
  exact List.mem_singleton.mp hmem

theorem signalFirst_iff {log : List Event} {signal : Signal} (hordered : Ordered log)
    (h : waits log = [signal]) : SignalFirst log ↔ signal ≠ .run := by
  constructor
  · rintro ⟨earlier, signal', later, rfl, -⟩
    have htaken : .taken signal' ∈ earlier ++ .taken signal' :: later := by simp
    rw [← signal_of_taken h htaken]
    exact hordered.real signal' htaken
  · intro hsignal
    obtain ⟨earlier, later, rfl⟩ := List.append_of_mem (taken_of_waits h hsignal)
    refine ⟨earlier, signal, later, rfl, ?_⟩
    unfold waits at h ⊢
    rw [List.filterMap_append] at h
    have hlength := congrArg List.length h
    rw [List.length_append, List.filterMap_cons] at hlength
    dsimp only [Event.ends_wait, List.length_cons, List.length_nil] at hlength
    exact List.eq_nil_of_length_eq_zero (by omega)

theorem retires_of {w : Waited} (h : Inv t s) (hw : Completed t s.log w)
    (hneeds : t.ephemeral ∨ (∃ c ∈ completions s.log, c.2.2.outcome.isOk = false) ∨
      ∃ signal, .taken signal ∈ s.log) : retires t w := by
  unfold retires
  rcases hneeds with hephemeral | ⟨c, hc, herror⟩ | ⟨signal, htaken⟩
  · rw [hephemeral]
    rfl
  · rw [eq_completion hw hc] at herror
    have hresult : w.result.isOk = false := by
      unfold completion at herror
      cases hresult : w.result with
      | error failure => rfl
      | ok pair =>
        rw [hresult] at herror
        cases herror
    simp [hresult]
  · have hsignal : w.signal ≠ .run := by
      rw [← signal_of_taken hw.waits htaken]
      exact h.ordered.real signal htaken
    simp [hsignal]

/-- **In every order of its events, the task of an attempt records one completion**, which says
how its wait ended, and leaves no process unnoticed. -/
theorem run_task_settles {actions : List Action} (hrun : run t initial actions = some s) :
    Settles t s := by
  have h := run_inv initial_inv hrun
  have hended : ∀ e, s.phase = .ended e → ∃ w, Completed t s.log w ∧
      (retires t w → Closed s.log e) := by
    intro e he
    have hholds := h.holds
    rw [he] at hholds
    exact hholds
  constructor
  · rcases h.completed with hnone | ⟨w, hw⟩
    · rw [hnone]
      exact Nat.zero_le 1
    · rw [hw.completions]
      exact Nat.le_refl 1
  · intro e he
    obtain ⟨w, hw, -⟩ := hended e he
    rw [hw.completions]
    rfl
  · intro c hc
    obtain ⟨w, -, rfl⟩ := h.of_mem hc
    exact ⟨rfl, rfl⟩
  · intro c hc
    obtain ⟨w, hw, rfl⟩ := h.of_mem hc
    rw [signalFirst_iff h.ordered hw.waits]
    exact decide_eq_true_iff
  · intro c hc hinterrupted
    obtain ⟨w, -, rfl⟩ := h.of_mem hc
    exact decide_eq_false (of_decide_eq_true hinterrupted)
  · exact h.ordered.latest
  · intro htaken c hc
    obtain ⟨w, hw, rfl⟩ := h.of_mem hc
    exact decide_eq_true (signal_of_taken hw.waits htaken).symm
  · exact h.ordered.stop_sent
  · exact h.ordered.begun_first
  · intro e he hneeds
    obtain ⟨w, hw, hclosed⟩ := hended e he
    exact hclosed (retires_of h hw hneeds)
  · exact ends s

end Phases

/-! ## A job that is stopped, and one that finishes before -/

def task : Task := ⟨⟨"job", "worker", 1, "running", ""⟩, true⟩

def logged (actions : List Action) : Option (List Event) :=
  (run task initial actions).map State.log

theorem run_of_logged {actions : List Action} {log : List Event}
    (h : logged actions = some log) : ∃ s, run task initial actions = some s ∧ s.log = log :=
  Option.map_eq_some_iff.mp h

/-- An interrupt and then a Stop come while the backend runs, and the process does not close. -/
def stopping : List Action :=
  [.poll [], .poll [], .poll [.done, .done, .done, .done, .done, .done], .send .interrupt,
    .send .stop, .poll [], .cancelled, .interrupted, .give_up, .close true true, .note,
    .complete false]

theorem run_task_settles_stopped : ∃ s, run task initial stopping = some s ∧
    s.log = [.begun, .sent .interrupt, .sent .stop, .taken .stop, .closed false, .noted,
      .recorded "job" 1 ⟨.error ⟨.cancelled, "worker_interrupted", ""⟩, [], true, true, false⟩] ∧
    Settles task s := by
  have hlogged : logged stopping = some [.begun, .sent .interrupt, .sent .stop, .taken .stop,
      .closed false, .noted, .recorded "job" 1
        ⟨.error ⟨.cancelled, "worker_interrupted", ""⟩, [], true, true, false⟩] := by decide +kernel
  obtain ⟨s, hrun, hlog⟩ := run_of_logged hlogged
  exact ⟨s, hrun, hlog, run_task_settles hrun⟩

/-- The three branches are polled once; the operation goes through to the end of the run. -/
def finish : List Action :=
  [.poll [], .poll [], .poll [.done, .done, .done, .done, .done, .done, .outcome ⟨"done", [], ""⟩,
    .artifacts (.ok [])]]

/-- The Stop comes when the job is done already, and before its completion is recorded. -/
theorem finished_before_stop : ∃ (t : Task) (actions : List Action) (s : State),
    run t initial actions = some s ∧ ¬ StopsMarked s.log := by
  have hlogged : logged (finish ++ [.send .stop, .cancelled, .close true false, .complete false]) =
      some [.begun, .finished, .sent .stop, .closed true,
        .recorded "job" 1 ⟨.ok ⟨"done", [], ""⟩, [], false, false, true⟩] := by decide +kernel
  obtain ⟨s, hrun, hlog⟩ := run_of_logged hlogged
  refine ⟨task, _, s, hrun, fun hmarked => ?_⟩
  have hstopped := hmarked [.begun, .finished, .sent .stop, .closed true] _ _ _ [] hlog (by simp)
  cases hstopped

end Fridica.Workers.RunTask
