import Fridica.Threads.Service.Spec
import Mathlib.Data.List.Induction

/-!
# How the service ends

What is asked in which order, and which failure a run reports.
-/

open Fridica.Ask

namespace Fridica.Threads.Service

variable {σ : Type}

abbrev Trace (σ : Type) := List (Event (Query σ) Answer)

/-! ## What a run shows -/

/-- What an answer reports of its question. -/
def reported : Event (Query σ) Answer → Outcome σ
  | ⟨.previous_slack_status, status⟩ => committed status.isSome
  | ⟨.transact _, done⟩ => committed done
  | ⟨.start, .started (.error failure)⟩ => .error failure
  | ⟨.start, _⟩ => .ok ()
  | ⟨.serve, served⟩ => served.outcome
  | ⟨.stop_socket, outcome⟩ => closed outcome
  | ⟨.stop_host, outcome⟩ => outcome
  | ⟨.close, done⟩ => if done then .ok () else .error .shutdown

/-- A unit of work that is not committed. -/
def lost : Event (Query σ) Answer → Bool
  | ⟨.previous_slack_status, status⟩ => status.isNone
  | ⟨.transact _, done⟩ => !done
  | _ => false

/-- The first failure counts, but a lost unit of work more than any. -/
def weigh (result : Outcome σ) (e : Event (Query σ) Answer) : Outcome σ :=
  if lost e then .error .storage else result.bind fun () => reported e

def verdict (started : Option RuntimeStart) (l : Trace σ) : Outcome σ :=
  l.foldl weigh (if started.isSome then .ok () else .error .configuration)

/-- The kind of the note that a failed cleanup calls for. -/
def note_of : Query σ → Option String
  | .stop_socket => some "service_socket_shutdown_failed"
  | .stop_host => some "service_host_shutdown_failed"
  | .close => some "service_worker_shutdown_failed"
  | _ => none

def fault (e : Event (Query σ) Answer) : Option (String × Failure σ) :=
  match note_of e.question, reported e with
  | some kind, .error failure => some (kind, failure)
  | _, _ => none

/-- The note that the last answer calls for. -/
def due (l : Trace σ) : Option (String × Failure σ) := l.getLast?.bind fault

inductive Part
  | host
  | workers
  | runtime
deriving DecidableEq

def Write.stops : Write σ → Bool
  | .stop_runtime => true
  | _ => false

def stops : Event (Query σ) Answer → Option Part
  | ⟨.stop_host, _⟩ => some .host
  | ⟨.close, _⟩ => some .workers
  | ⟨.transact writes, _⟩ => if writes.any Write.stops then some .runtime else none
  | _ => none

def stopped (l : Trace σ) : List Part := l.filterMap stops

/-- The socket was not opened, or it ended. -/
def SocketOver (l : Trace σ) : Prop :=
  ∀ served, ⟨.serve, served⟩ ∈ l → served.socket_done = true ∨ ∃ r, ⟨.stop_socket, r⟩ ∈ l

/-- The units of work of a run where no note is due. -/
inductive Transacts (started : Option RuntimeStart) (l : Trace σ) : List (Write σ) → Prop
  | begins {start : RuntimeStart} {previous : Option String} : started = some start →
    l = [⟨.previous_slack_status, some previous⟩] → Transacts started l (beginning previous start)
  | advertises {path : Option String} : l.getLast? = some ⟨.start, .started (.ok path)⟩ →
    stopped l = [] → Transacts started l [.advertise_control (path.getD "")]
  | withdraws : stopped l = [.host] → Transacts started l [.advertise_control ""]
  | ends : stopped l = [.host, .workers] →
    Transacts started l (ending (error_of (verdict started l)))

/-- The runtime is recorded with its start, and nothing else was asked. -/
def Begun (started : Option RuntimeStart) (l : Trace σ) : Prop :=
  ∃ start previous, started = some start ∧
    l = [⟨.previous_slack_status, some previous⟩, ⟨.transact (beginning previous start), true⟩]

/-- What may be asked next where no note is due. -/
def Next (started : Option RuntimeStart) (l : Trace σ) : Query σ → Prop
  | .previous_slack_status => l = [] ∧ started.isSome = true
  | .transact writes => Transacts started l writes
  | .start => Begun started l
  | .serve => verdict started l = .ok () ∧
    ∃ path, l.getLast? = some ⟨.transact [.advertise_control path], true⟩ ∧ stopped l = []
  | .stop_socket => ∃ served, l.getLast? = some ⟨.serve, served⟩ ∧ served.socket_done = false
  | .stop_host => SocketOver l ∧ stopped l = []
  | .close =>
    ∃ done, l.getLast? = some ⟨.transact [.advertise_control ""], done⟩ ∧ stopped l = [.host]

/-- A failed cleanup is noted at once. -/
def InOrder (started : Option RuntimeStart) (l : Trace σ) (q : Query σ) : Prop :=
  match due l with
  | some (kind, failure) => q = .transact [.note kind (.failure failure)]
  | none => Next started l q

/-- What calls for a note after `l`. -/
inductive CallsFor (started : Option RuntimeStart) (l : Trace σ) : String → Detail σ → Prop
  | interrupted {status : String} : status ≠ "stopped" →
    l = [⟨.previous_slack_status, some (some status)⟩] →
    CallsFor started l "service_interrupted" (.previous (some status))
  | cleanup {kind : String} {failure : Failure σ} : due l = some (kind, failure) →
    CallsFor started l kind (.failure failure)
  | failed {failure : Failure σ} : stopped l = [.host, .workers] →
    verdict started l = .error failure →
    CallsFor started l "service_failed" (.ended (some failure))

abbrev rules (started : Option RuntimeStart) : Protocol (Query σ) Answer (Trace σ) :=
  Protocol.history (InOrder started)

/-! ## Growing traces -/

section Growing

variable {started : Option RuntimeStart} {l : Trace σ} {e : Event (Query σ) Answer}

@[simp] theorem verdict_nil : verdict started ([] : Trace σ) =
    if started.isSome then .ok () else .error .configuration := rfl

@[simp] theorem verdict_append : verdict started (l ++ [e]) = weigh (verdict started l) e := by
  simp [verdict]

@[simp] theorem due_nil : due ([] : Trace σ) = none := rfl

@[simp] theorem due_append : due (l ++ [e]) = fault e := by simp [due]

@[simp] theorem stopped_nil : stopped ([] : Trace σ) = [] := rfl

@[simp] theorem stopped_append : stopped (l ++ [e]) = stopped l ++ (stops e).toList := by
  unfold stopped
  rw [List.filterMap_append]
  cases h : stops e <;> simp [h]

theorem socketOver_append (h : SocketOver l) (he : e.question ≠ .serve) :
    SocketOver (l ++ [e]) := by
  intro served hmem
  rcases List.mem_append.mp hmem with hmem | hmem
  · exact (h served hmem).imp_right fun ⟨r, hr⟩ => ⟨r, List.mem_append_left _ hr⟩
  · exact absurd (congrArg Event.question (List.mem_singleton.mp hmem)).symm he

theorem inOrder_of_next {q : Query σ} (hdue : due l = none) (h : Next started l q) :
    InOrder started l q := by
  unfold InOrder
  rw [hdue]
  exact h

theorem inOrder_note {kind : String} {failure : Failure σ} (hdue : due l = some (kind, failure)) :
    InOrder started l (.transact [.note kind (.failure failure)]) := by
  unfold InOrder
  rw [hdue]

@[simp] theorem stops_beginning {previous : Option String} {start : RuntimeStart} {done : Bool} :
    stops (σ := σ) ⟨.transact (beginning previous start), done⟩ = none := by
  cases hi : previous.any (· != "stopped") <;> simp [stops, beginning, interrupted, hi, Write.stops]

end Growing

/-! ## What is noted -/

section Noted

variable {started : Option RuntimeStart} {l : Trace σ} {kind : String} {detail : Detail σ}

theorem transacts_calls {writes : List (Write σ)} (h : Transacts started l writes)
    (hnote : .note kind detail ∈ writes) : CallsFor started l kind detail := by
  cases h with
  | @begins start previous _ hl =>
    match previous with
    | none => simp [beginning, interrupted] at hnote
    | some status =>
      by_cases hs : status = "stopped"
      · simp [beginning, interrupted, hs] at hnote
      · have hnote : kind = "service_interrupted" ∧ detail = .previous (some status) := by
          simpa [beginning, interrupted, hs] using hnote
        obtain ⟨rfl, rfl⟩ := hnote
        exact .interrupted hs hl
  | advertises => simp at hnote
  | withdraws => simp at hnote
  | ends hstopped =>
    cases hv : verdict started l with
    | ok _ => simp [ending, error_of, hv] at hnote
    | error failure =>
      have hnote : kind = "service_failed" ∧ detail = .ended (some failure) := by
        simpa [ending, error_of, hv] using hnote
      obtain ⟨rfl, rfl⟩ := hnote
      exact .failed hstopped hv

theorem inOrder_calls {writes : List (Write σ)} (h : InOrder started l (.transact writes))
    (hnote : .note kind detail ∈ writes) : CallsFor started l kind detail := by
  unfold InOrder at h
  split at h
  next called failure hdue =>
    cases h
    have hnote : kind = called ∧ detail = .failure failure := by simpa using hnote
    obtain ⟨rfl, rfl⟩ := hnote
    exact .cleanup hdue
  next => exact transacts_calls h hnote

end Noted

/-! ## One function at a time -/

section Functions

variable {started : Option RuntimeStart} {l : Trace σ} {result : Outcome σ} {parts : List Part}
  {err : Failure σ → Trace σ → Prop}

/-- Nothing is due, and the parts that were stopped are `parts`. -/
structure At (started : Option RuntimeStart) (parts : List Part) (result : Outcome σ)
    (l : Trace σ) : Prop where
  verdict : verdict started l = result
  due : due l = none
  stopped : stopped l = parts
  socket : SocketOver l

theorem weigh_ok {e : Event (Query σ) Answer} (hlost : lost e = false)
    (hreported : reported e = .ok ()) : weigh result e = result := by
  unfold weigh
  rw [hlost, hreported]
  cases result <;> rfl

theorem weigh_committed {e : Event (Query σ) Answer} {done : Bool} (hlost : lost e = !done)
    (hreported : reported e = committed done) :
    weigh result e = (committed done).bind fun () => result := by
  cases done with
  | false => simp [weigh, hlost, committed, Except.bind]
  | true => exact weigh_ok hlost hreported

theorem transact_ok {writes : List (Write σ)} {post : Outcome σ → Trace σ → Prop}
    (horder : InOrder started l (.transact writes))
    (hpost : ∀ done, post (committed done) (l ++ [⟨.transact writes, done⟩])) :
    wp (rules started) (transact writes) post err l := by
  unfold transact
  rw [wp_bind, wp_ask]
  exact ⟨horder, hpost⟩

theorem cleanup_ok (err : Failure σ → Trace σ → Prop) {e : Event (Query σ) Answer}
    {kind : String} {outcome : Outcome σ}
    (hverdict : verdict started l = result) (hkind : note_of e.question = some kind)
    (hlost : lost e = false) (houtcome : reported e = outcome) (hsocket : SocketOver (l ++ [e])) :
    wp (rules started) (cleanup kind outcome result) (At started (stopped (l ++ [e]))) err
      (l ++ [e]) := by
  cases outcome with
  | ok _ =>
    have hdue : due (l ++ [e]) = none := by simp [fault, hkind, houtcome]
    exact ⟨by rw [verdict_append, hverdict, weigh_ok hlost houtcome], hdue, rfl, hsocket⟩
  | error failure =>
    have hdue : due (l ++ [e]) = some (kind, failure) := by simp [fault, hkind, houtcome]
    have hbefore : verdict started (l ++ [e]) = result.bind fun () => .error failure := by
      rw [verdict_append, hverdict, weigh, hlost, houtcome]
      rfl
    unfold cleanup health
    rw [wp_bind]
    refine transact_ok (inOrder_note hdue) fun recorded => ?_
    have hat : At started (stopped (l ++ [e]))
        ((committed recorded).bind fun () => result.bind fun () => .error failure)
        (l ++ [e] ++ [⟨.transact [.note kind (.failure failure)], recorded⟩]) := by
      refine ⟨?_, due_append, ?_, socketOver_append hsocket (by simp)⟩
      · rw [verdict_append, hbefore, weigh_committed rfl rfl]
      · rw [stopped_append]
        exact List.append_nil _
    cases recorded with
    | false => exact hat
    | true => exact hat

theorem serve_ok (h : At started [] (.ok ()) l)
    (hlast : ∃ path, l.getLast? = some ⟨.transact [.advertise_control path], true⟩)
    (hnew : ∀ served, (⟨.serve, served⟩ : Event (Query σ) Answer) ∉ l) :
    wp (rules started) serve (At started []) err l := by
  unfold serve
  rw [wp_bind, wp_ask]
  refine ⟨inOrder_of_next h.due ⟨h.verdict, hlast.imp fun _ hl => ⟨hl, h.stopped⟩⟩, ?_⟩
  intro (served : Served σ)
  have hverdict : verdict started (l ++ [⟨.serve, served⟩]) = served.outcome := by
    rw [verdict_append, h.verdict]
    rfl
  have hstopped : stopped (l ++ [⟨.serve, served⟩]) = [] := by simp [h.stopped, stops]
  have hdue : due (l ++ [⟨.serve, served⟩]) = none := due_append
  rw [wp_ite]
  refine ⟨fun hdone => ⟨hverdict, hdue, hstopped, ?_⟩, fun hdone => ?_⟩
  · intro served' hmem
    rcases List.mem_append.mp hmem with hmem | hmem
    · exact absurd hmem (hnew served')
    · cases List.mem_singleton.mp hmem
      exact .inl hdone
  · rw [wp_bind, wp_ask]
    refine ⟨inOrder_of_next hdue ⟨served, List.getLast?_concat, by simpa using hdone⟩, ?_⟩
    intro (outcome : Option (Except σ Unit))
    have hclean := cleanup_ok err (e := ⟨.stop_socket, outcome⟩) hverdict rfl rfl rfl
      fun _ _ => .inr ⟨outcome, by simp⟩
    rwa [stopped_append, hstopped] at hclean

theorem At.next {e : Event (Query σ) Answer} (h : At started parts result l)
    (hfault : fault e = none) (hserve : e.question ≠ .serve) :
    At started (parts ++ (stops e).toList) (weigh result e) (l ++ [e]) where
  verdict := by rw [verdict_append, h.verdict]
  due := by rw [due_append, hfault]
  stopped := by rw [stopped_append, h.stopped]
  socket := socketOver_append h.socket hserve

theorem begin_ok : wp (rules started) (begin_ (σ := σ) started)
    (fun outcome t => At started [] outcome t ∧ (outcome = .ok () → Begun started t)) err [] := by
  have hnil : ∀ {r : Outcome σ}, verdict started [] = r → At started [] r [] :=
    fun hr => ⟨hr, rfl, rfl, fun _ h => nomatch h⟩
  unfold begin_
  cases started with
  | none => exact ⟨hnil rfl, fun h => nomatch h⟩
  | some runtime =>
    have hfirst : InOrder (σ := σ) (some runtime) [] .previous_slack_status :=
      inOrder_of_next due_nil ⟨rfl, rfl⟩
    rw [wp_bind, wp_ask]
    refine ⟨hfirst, ?_⟩
    intro (status : Option (Option String))
    have hread := (hnil rfl).next (e := ⟨.previous_slack_status, status⟩) rfl (by simp)
    match status with
    | none => exact ⟨hread, fun h => nomatch h⟩
    | some previous =>
      refine transact_ok (inOrder_of_next hread.due (.begins rfl rfl)) fun done => ?_
      have hbegun := hread.next (e := ⟨.transact (beginning previous runtime), done⟩) rfl (by simp)
      rw [stops_beginning] at hbegun
      cases done with
      | false => exact ⟨hbegun, fun h => nomatch h⟩
      | true => exact ⟨hbegun, fun _ => ⟨runtime, previous, rfl, rfl⟩⟩

/-- The service was started, and runs where its endpoint is known. -/
def Ready (started : Option RuntimeStart) (outcome : Outcome σ × Bool) (l : Trace σ) : Prop :=
  At started [] outcome.1 l ∧ (outcome = (.ok (), true) →
    (∃ path, l.getLast? = some ⟨.transact [.advertise_control path], true⟩) ∧
      ∀ served, (⟨.serve, served⟩ : Event (Query σ) Answer) ∉ l)

theorem start_ok :
    wp (rules started) (start (σ := σ) started) (Ready started) err [] := by
  unfold start
  rw [wp_bind]
  refine wp_mono begin_ok (fun outcome t ht => ?_) fun _ _ => id
  obtain ⟨hat, hbegun⟩ := ht
  match outcome with
  | .error failure => exact ⟨hat, fun h => nomatch h⟩
  | .ok () =>
    refine wp_bind.mpr (wp_ask.mpr ⟨inOrder_of_next hat.due (hbegun rfl), ?_⟩)
    intro (host : Started σ)
    have hhost := hat.next (e := ⟨.start, host⟩) rfl (by simp)
    match host with
    | .stopped => exact ⟨hhost, fun h => nomatch h⟩
    | .started (.error failure) => exact ⟨hhost, fun h => nomatch h⟩
    | .started (.ok path) =>
      refine wp_bind.mpr (transact_ok (inOrder_of_next hhost.due ?_) fun done => ?_)
      · exact .advertises List.getLast?_concat hhost.stopped
      · have hknown := hhost.next (e := ⟨.transact [.advertise_control (path.getD "")], done⟩)
          rfl (by simp)
        cases done with
        | false => exact ⟨hknown, fun h => nomatch h⟩
        | true =>
          refine ⟨hknown, fun _ => ⟨⟨_, List.getLast?_concat⟩, fun served hmem => ?_⟩⟩
          obtain ⟨runtime, previous, -, rfl⟩ := hbegun rfl
          simp [Protocol.history] at hmem

theorem work_ok {run : Bool} (h : Ready started (result, run) l) :
    wp (rules started) (work result run) (At started []) err l := by
  unfold work
  match result, run with
  | .error failure, _ => exact h.1
  | .ok (), false => exact h.1
  | .ok (), true => exact serve_ok h.1 (h.2 rfl).1 (h.2 rfl).2

theorem stop_ok (h : At started [] result l) :
    wp (rules started) (stop result) (At started [.host, .workers]) err l := by
  unfold stop
  rw [wp_bind, wp_ask]
  refine ⟨inOrder_of_next h.due ⟨h.socket, h.stopped⟩, ?_⟩
  intro (host : Outcome σ)
  rw [wp_bind]
  have hhost := cleanup_ok err (e := ⟨.stop_host, host⟩) h.verdict rfl rfl rfl
    (socketOver_append h.socket (by simp))
  rw [stopped_append, h.stopped] at hhost
  refine wp_mono hhost (fun result t ht => ?_) fun _ _ => id
  rw [wp_bind]
  refine transact_ok (inOrder_of_next ht.due (.withdraws ht.stopped)) fun done => ?_
  have hwithdrawn := ht.next (e := ⟨.transact [.advertise_control ""], done⟩) rfl (by simp)
  rw [weigh_committed rfl rfl] at hwithdrawn
  rw [wp_bind, wp_ask]
  refine ⟨inOrder_of_next hwithdrawn.due ⟨done, List.getLast?_concat, hwithdrawn.stopped⟩, ?_⟩
  intro (ended : Bool)
  have hended := cleanup_ok err (e := ⟨.close, ended⟩) hwithdrawn.verdict rfl rfl rfl
    (socketOver_append hwithdrawn.socket (by simp))
  rw [stopped_append, hwithdrawn.stopped] at hended
  exact hended

/-- Every part was stopped, the runtime as the last. -/
def Finished (started : Option RuntimeStart) (result : Outcome σ) (l : Trace σ) : Prop :=
  verdict started l = result ∧ stopped l = [.host, .workers, .runtime] ∧
    ∃ failure done, l.getLast? = some ⟨.transact (ending failure), done⟩

theorem end_ok (h : At started [.host, .workers] result l) :
    wp (rules started) (end_ result) (fun _ => Finished started (.ok ()))
      (fun failure => Finished started (.error failure)) l := by
  have horder : InOrder started l (.transact (ending (error_of result))) :=
    inOrder_of_next h.due (h.verdict ▸ .ends h.stopped)
  unfold end_
  rw [wp_bind, wp_unit]
  refine transact_ok horder fun done => ?_
  have hend := h.next (e := ⟨.transact (ending (error_of result)), done⟩) rfl (by simp)
  rw [weigh_committed rfl rfl] at hend
  have hfinished : Finished started ((committed done).bind fun () => result)
      (l ++ [⟨.transact (ending (error_of result)), done⟩]) :=
    ⟨hend.verdict, hend.stopped, _, _, List.getLast?_concat⟩
  cases done with
  | false => exact hfinished
  | true =>
    change wp _ (unit (pure result)) _ _ _
    rw [wp_unit, wp_pure]
    cases result with
    | ok _ => exact hfinished
    | error failure => exact hfinished

theorem coordinate_ok :
    wp (rules started) (coordinate (σ := σ) started) (fun _ => Finished started (.ok ()))
      (fun failure => Finished started (.error failure)) [] := by
  unfold coordinate
  rw [wp_bind]
  refine wp_mono start_ok (fun outcome t ht => ?_) fun _ _ => id
  obtain ⟨result, run⟩ := outcome
  rw [wp_bind]
  refine wp_mono (work_ok ht) (fun result t ht => ?_) fun _ _ => id
  rw [wp_bind]
  refine wp_mono (stop_ok ht) (fun result t ht => ?_) fun _ _ => id
  exact end_ok ht

end Functions

theorem weigh_ok_iff {result : Outcome σ} {e : Event (Query σ) Answer} :
    weigh result e = .ok () ↔ result = .ok () ∧ reported e = .ok () := by
  unfold weigh
  cases hlost : lost e with
  | false => cases result <;> simp [Except.bind]
  | true =>
    have hreported : reported e = .error .storage := by
      obtain ⟨question, answer⟩ := e
      cases question <;> simp_all [lost, reported, committed]
    simp [hreported]

theorem verdict_ok_iff {started : Option RuntimeStart} {l : Trace σ} :
    verdict started l = .ok () ↔ started.isSome = true ∧ ∀ e ∈ l, reported e = .ok () := by
  induction l using List.reverseRecOn with
  | nil => cases started <;> simp
  | append_singleton l e ih =>
    rw [verdict_append, weigh_ok_iff, ih, and_assoc]
    simp [or_imp, forall_and]

/-- However a run of the service goes, it stops the host's services, its workers and the runtime,
each once and in this order, and asks and writes everything in order. It notes a failed cleanup, its
own failure and a service before it that was not stopped, and nothing else. It fails with the first
failure it met, or with a lost unit of work, and succeeds only where nothing failed. -/
theorem shuts_down {started : Option RuntimeStart} {l : Trace σ} {r : Outcome σ}
    (hrun : Run (coordinate started).run l r) :
    r = verdict started l ∧
      (r = .ok () ↔ started.isSome = true ∧ ∀ e ∈ l, reported e = .ok ()) ∧
      stopped l = [.host, .workers, .runtime] ∧
      (∃ failure done, l.getLast? = some ⟨.transact (ending failure), done⟩) ∧
      (∀ past e rest, l = past ++ e :: rest → InOrder started past e.question) ∧
      ∀ past writes done rest kind detail, l = past ++ ⟨.transact writes, done⟩ :: rest →
        .note kind detail ∈ writes → CallsFor started past kind detail := by
  obtain ⟨horder, hend⟩ := wp_history coordinate_ok hrun
  have hfinished : Finished started r l := by
    match r, hend with
    | .ok (), hend => exact hend
    | .error _, hend => exact hend
  obtain ⟨rfl, hstopped, hlast⟩ := hfinished
  refine ⟨rfl, verdict_ok_iff, hstopped, hlast, horder, ?_⟩
  intro past writes done rest kind detail hl hnote
  exact inOrder_calls (horder past _ rest hl) hnote

/-! ## A runtime that fails, and a socket that does not close -/

def runtime : RuntimeStart := ⟨7, 100, false, "abc"⟩

def answers (_ : Trace String) : (q : Query String) → Answer q
  | .previous_slack_status => some (some "connected")
  | .transact _ => true
  | .start => .started (.ok (some "/run/control.sock"))
  | .serve => .loop (.error .runtime)
  | .stop_socket => none
  | .stop_host => .ok ()
  | .close => true

def failing : Trace String × Outcome String := play answers [] (coordinate (some runtime)).run

def noted (l : Trace σ) : List String := l.flatMap fun e =>
  match e.question with
  | .transact writes => writes.filterMap fun
    | .note kind _ => some kind
    | _ => none
  | _ => []

theorem shuts_down_failing :
    (∀ past e rest, failing.1 = past ++ e :: rest → InOrder (some runtime) past e.question) ∧
      stopped failing.1 = [.host, .workers, .runtime] ∧
      noted failing.1 =
        ["service_interrupted", "service_socket_shutdown_failed", "service_failed"] ∧
      failing.2 = .error .runtime := by
  obtain ⟨-, -, hstopped, -, horder, -⟩ := shuts_down (play_run answers [] _)
  exact ⟨horder, hstopped, by rfl, by rfl⟩

end Fridica.Threads.Service
