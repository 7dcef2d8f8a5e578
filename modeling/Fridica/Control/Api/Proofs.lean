import Fridica.Control.Api.Spec

/-!
# What a request may change

Every operation that a request leads to is the one that its path and its body name, asked for by the
owner, alone, and after the request was recorded. What is answered was recorded before.
-/

open Fridica.Ask
open Fridica.Json (Value)
open Fridica.Threads.Controls (Authority Control)

namespace Fridica.Control.Api

abbrev Trace := List (Event Query Answer)

/-! ## What a run shows -/

def recorded : Event Query Answer → Option Int
  | ⟨.control_request _ _ _, .ok call⟩ => some call
  | _ => none

def changed : Event Query Answer → Option Operation
  | ⟨.operate op _, _⟩ => some op
  | _ => none

def answered : Event Query Answer → Option (Int × Response)
  | ⟨.control_response call _ response, .ok ()⟩ => some (call, response)
  | _ => none

namespace Trace

variable (l : Trace)

def call : Option Int := l.findSome? recorded

def changes : List Operation := l.filterMap changed

def response : Option (Int × Response) := l.findSome? answered

end Trace

/-! ## What a path and a body name -/

/-- The parts of the path, the thread's name resolved as the daemon answered. -/
def Resolved (l : Trace) (raw parts : List String) : Prop :=
  match named_thread raw with
  | none => parts = raw
  | some reference => ∃ id, ⟨.look (.resolve reference), .ok (some id)⟩ ∈ l ∧ parts = raw.set 1 id

/-- The operation that a request names. -/
def Names (o : Outside) (l : Trace) (request : Request) (parts : List String) : Operation → Prop
  | .close_obligation id reason => request.method = "POST" ∧ parts = ["obligations", id, "close"] ∧
    request.body.get "reason" = some (.string reason)
  | .revive_thread thread => request.method = "POST" ∧ parts = ["archive", "restore"] ∧
    request.body.get "thread" = some (.string thread)
  | .backfill r => request.method = "POST" ∧ parts = ["obligations", "backfill"] ∧
    backfill_body request.body = some r ∧ ∃ now, ⟨.now, now⟩ ∈ l ∧ r.valid now = true
  | .instruct thread text client_id => request.method = "POST" ∧
    instruction_of request.body = some (text, client_id) ∧
    (parts = ["threads", thread, "instruct"] ∨
      ∃ channel name, parts = ["channels", channel, "instruct"] ∧
        ⟨.look (.latest_thread channel), .ok (.ok (name, thread))⟩ ∈ l)
  | .delegate thread r => request.method = "POST" ∧ parts = ["threads", thread, "delegate"] ∧
    delegate_body request.body = .ok r
  | .post (.thread id) r => request.method = "POST" ∧ parts = ["threads", id, "post"] ∧
    post_body request.body false = .ok r
  | .post (.channel channel) r => request.method = "POST" ∧ parts = ["channels", channel, "post"] ∧
    post_body request.body true = .ok r
  | .set_thread_driver thread driver => request.method = "POST" ∧
    parts = ["threads", thread, "driver"] ∧ request.body.field "driver" = .string driver ∧
    driver ∈ ["parent", "external"]
  | .worker_control worker stop => request.method = "POST" ∧
    (parts = ["workers", worker, if stop then "stop" else "interrupt"] ∨
      ∃ thread, parts = ["threads", thread, "workers", worker, "stop"] ∧
        mode_of request.body = some stop ∧ ⟨.look (.thread_worker thread worker), .ok true⟩ ∈ l)
  | .write_owner_notes thread data expected => request.method = "POST" ∧
    parts = ["threads", thread, "notes"] ∧ request.body.field "data" = .object data ∧
    expected_of request.body = some expected
  | .control thread control => request.method = "POST" ∧ ∃ action,
    parts = ["threads", thread, action] ∧ action ∈ thread_actions ∧
    action ∉ ["instruct", "notes"] ∧ control_of action request.body = some control
  | .decide id decision => request.method = "POST" ∧ parts = ["approvals", id] ∧
    decision_of request.body = some decision
  | .retry_post id => request.method = "POST" ∧ ∃ v, parts = ["outbox", v, "retry"] ∧
    parse_i64 v = some id
  | .update_configuration part patch => request.method = "PATCH" ∧ parts = ["config", part] ∧
    part ∈ ["parent", "limits"] ∧ patch = request.body ∧ o.valid_patch part request.body = true

/-- A request that was recorded and is being routed. Nothing has changed yet. -/
structure Routing (o : Outside) (request : Request) (l : Trace) (call : Int)
    (parts : List String) : Prop where
  call : l.call = some call
  unchanged : l.changes = []
  unanswered : l.response = none
  target : ∃ raw query, target o request.target = some (raw, query) ∧ Resolved l raw parts

/-! ## The rules of a request -/

def InOrder (o : Outside) (request : Request) (authority : Authority) (l : Trace) : Query → Prop
  | .operate op by_ => authority = .owner ∧ by_ = .owner ∧ ∃ call parts,
    Routing o request l call parts ∧ Names o l request parts op
  | .control_request _ r a => r = request ∧ a = authority ∧ l.call = none ∧ l.changes = []
  | .control_response call _ _ => l.call = some call ∧ l.response = none
  | _ => True

abbrev rules (o : Outside) (request : Request) (authority : Authority) :
    Protocol Query Answer Trace :=
  Protocol.history (InOrder o request authority)

/-- What is left when a request was routed. -/
def Routed (l : Trace) (call : Int) : Prop := l.call = some call ∧ l.response = none

/-- The request was routed, and what came of it could not be recorded. -/
def Unrecorded (l : Trace) (call : Int) : Prop :=
  l.response = none ∧ ∃ now routed e, l.getLast? = some ⟨.control_response call now routed, .error e⟩

/-- A response that was recorded, one that says that this failed, or one to a request that was not
routed. -/
def Answered (l : Trace) (response : Response) : Prop :=
  match l.call with
  | none => l.changes = [] ∧ response.status ≠ 200
  | some call => l.response = some (call, response) ∨
    response = .error 500 "control_outcome_unrecorded" ∧ Unrecorded l call

section Growing

variable {l : Trace} {e : Event Query Answer}

theorem call_append {call : Int} (h : l.call = some call) : Trace.call (l ++ [e]) = some call := by
  unfold Trace.call at h ⊢
  rw [List.findSome?_append, h]
  rfl

theorem call_none (h : l.call = none) : Trace.call (l ++ [e]) = recorded e := by
  unfold Trace.call at h ⊢
  rw [List.findSome?_append, h, List.findSome?_singleton]
  rfl

theorem changes_append : Trace.changes (l ++ [e]) = l.changes ++ (changed e).toList := by
  unfold Trace.changes
  rw [List.filterMap_append]
  cases h : changed e <;> simp [h]

theorem response_none (h : l.response = none) : Trace.response (l ++ [e]) = answered e := by
  unfold Trace.response at h ⊢
  rw [List.findSome?_append, h, List.findSome?_singleton]
  rfl

theorem Resolved.next {raw parts : List String} (h : Resolved l raw parts) :
    Resolved (l ++ [e]) raw parts := by
  unfold Resolved at h ⊢
  split
  · next hnone => simpa [hnone] using h
  · next reference hsome =>
    simp only [hsome] at h
    obtain ⟨id, hid, hparts⟩ := h
    exact ⟨id, List.mem_append_left _ hid, hparts⟩

end Growing

/-! ## One function after another -/

section Functions

variable {o : Outside} {request : Request} {authority : Authority} {l : Trace} {call : Int}
  {parts : List String} {α : Type}

theorem Routing.routed (h : Routing o request l call parts) : Routed l call :=
  ⟨h.call, h.unanswered⟩

theorem Routing.next (h : Routing o request l call parts) {e : Event Query Answer}
    (hchanged : changed e = none) (hanswered : answered e = none) :
    Routing o request (l ++ [e]) call parts where
  call := call_append h.call
  unchanged := by rw [changes_append, h.unchanged, hchanged]; rfl
  unanswered := by rw [response_none h.unanswered, hanswered]
  target := by
    obtain ⟨raw, query, htarget, hresolved⟩ := h.target
    exact ⟨raw, query, htarget, hresolved.next⟩

theorem Routed.next (h : Routed l call) {e : Event Query Answer} (hanswered : answered e = none) :
    Routed (l ++ [e]) call :=
  ⟨call_append h.1, by rw [response_none h.2, hanswered]⟩

theorem Answered.of_call {response : Response} (h : l.call = some call)
    (hrecorded : l.response = some (call, response) ∨
      response = .error 500 "control_outcome_unrecorded" ∧ Unrecorded l call) :
    Answered l response := by
  unfold Answered
  rw [h]
  exact hrecorded

theorem wp_clock {post : Option ℚ → Trace → Prop} {err : Response → Trace → Prop} :
    wp (rules o request authority) clock post err l ↔ ∀ t, post t (l ++ [⟨.now, t⟩]) := by
  unfold clock
  rw [wp_ask]
  exact and_iff_right trivial

/-- Whatever a function of a route asks is in order, and it leaves the request to be answered. -/
structure Routes (o : Outside) (request : Request) (authority : Authority) (call : Int)
    (m : Act α) (l : Trace) : Prop where
  ends : wp (rules o request authority) m (fun _ t => Routed t call) (fun _ t => Routed t call) l

namespace Routes

theorem pure {a : α} (h : Routed l call) :
    Routes o request authority call (Pure.pure a : Act α) l := ⟨h⟩

theorem throw {response : Response} (h : Routed l call) :
    Routes o request authority call (MonadExcept.throw response : Act α) l := ⟨h⟩

theorem refuse {status : Nat} {code : String} (h : Routed l call) :
    Routes o request authority call (refuse status code : Act α) l := ⟨h⟩

theorem ite {c : Prop} [Decidable c] {m m' : Act α}
    (h : c → Routes o request authority call m l)
    (h' : ¬ c → Routes o request authority call m' l) :
    Routes o request authority call (if c then m else m') l := by
  split
  · next hc => exact h hc
  · next hc => exact h' hc

theorem refuse_if {c : Bool} {status : Nat} {code : String} {f : Unit → Act α} (h : Routed l call)
    (hf : c = false → Routes o request authority call (f ()) l) :
    Routes o request authority call (refuse_if c status code >>= f) l := by
  refine ⟨?_⟩
  unfold Api.refuse_if
  rw [wp_bind, wp_ite]
  exact ⟨fun _ => h, fun hc => (hf (Bool.eq_false_iff.mpr hc)).ends⟩

theorem owner {f : Unit → Act α} (h : Routed l call)
    (hf : authority = .owner → Routes o request authority call (f ()) l) :
    Routes o request authority call (owner authority >>= f) l :=
  refuse_if h fun hc => hf (by simpa using hc)

theorem look {lookup : Lookup} {f : Found lookup → Act α} (h : Routing o request l call parts)
    (hf : ∀ r, Routing o request (l ++ [⟨.look lookup, r⟩]) call parts →
      Routes o request authority call (f r) (l ++ [⟨.look lookup, r⟩])) :
    Routes o request authority call (look lookup >>= f) l := by
  refine ⟨?_⟩
  rw [wp_bind]
  exact ⟨trivial, fun r => (hf r (h.next rfl rfl)).ends⟩

theorem operate {op : Operation} {f : Outcome op → Act α} (h : Routing o request l call parts)
    (howner : authority = .owner) (hnames : Names o l request parts op)
    (hf : ∀ r t, Routed t call → Routes o request authority call (f r) t) :
    Routes o request authority call (operate op authority >>= f) l := by
  refine ⟨?_⟩
  rw [wp_bind]
  exact ⟨⟨howner, howner, call, parts, h, hnames⟩, fun r => (hf r _ (h.routed.next rfl)).ends⟩

end Routes

/-! ## Reads -/

theorem read_events_ok {after : Option Nat} {limit : Nat} (h : Routing o request l call parts) :
    Routes o request authority call (read_events after limit) l := by
  unfold read_events
  refine .look h fun r hr => ?_
  rcases r with e | value
  · exact .refuse hr.routed
  · exact .pure hr.routed

theorem events_ok {query : List (String × String)} (h : Routing o request l call parts) :
    Routes o request authority call (events authority query) l := by
  unfold events
  refine .owner h.routed fun _ => ?_
  split
  · exact read_events_ok h
  · split
    · exact .refuse h.routed
    · exact read_events_ok h

theorem download_ok {a : Slack.Files.Attachment} (h : Routing o request l call parts) :
    Routes o request authority call (download o a) l := by
  unfold download
  refine .refuse_if h.routed fun _ => .refuse_if h.routed fun _ => .look h fun d hd => ?_
  rcases d with failure | d
  · cases failure with
    | recording => exact .refuse hd.routed
    | timeout => exact .pure hd.routed
    | other code => exact .pure hd.routed
  · exact .refuse_if hd.routed fun _ => .pure hd.routed

theorem file_ok {id : String} (h : Routing o request l call parts) :
    Routes o request authority call (file o id) l := by
  unfold file
  refine .refuse_if h.routed fun _ => .look h fun r hr => ?_
  rcases r with e | _ | a
  · exact .refuse hr.routed
  · exact .refuse hr.routed
  · exact download_ok hr

theorem files_ok {names : List String} {query : List (String × String)}
    (h : Routing o request l call parts) :
    Routes o request authority call (files o authority names query) l := by
  unfold files
  refine .owner h.routed fun _ => ?_
  split
  · split
    · refine .look h fun r hr => ?_
      rcases r with e | _ | rows
      · exact .refuse hr.routed
      · exact .refuse hr.routed
      · exact .pure hr.routed
    · exact .refuse h.routed
  · exact file_ok h
  · exact .refuse h.routed

theorem view_ok {query : List (String × String)} {processes : Option Value}
    (h : Routing o request l call parts) :
    Routes o request authority call (view parts query processes) l := by
  unfold view
  refine .look h fun r hr => ?_
  rcases r with e | _ | value
  · exact .refuse hr.routed
  · exact .refuse hr.routed
  · exact .pure hr.routed

theorem get_ok {query : List (String × String)} (h : Routing o request l call parts) :
    Routes o request authority call (get o authority request parts query) l := by
  unfold get
  refine .refuse_if h.routed fun _ => ?_
  refine .ite (fun _ => files_ok h) fun _ => .ite (fun _ => events_ok h) fun _ => ?_
  refine .ite (fun _ => ?_) fun _ => view_ok h
  exact .look h fun processes hr => view_ok hr

/-! ## Changes -/

theorem control_worker_ok {worker : String} {stop : Bool} (h : Routing o request l call parts)
    (howner : authority = .owner) (hnames : Names o l request parts (.worker_control worker stop)) :
    Routes o request authority call (control_worker authority worker stop) l := by
  unfold control_worker
  refine .operate h howner hnames fun r t ht => ?_
  rcases r with e | value
  · exact .throw ht
  · exact .pure ht

theorem patch_ok (h : Routing o request l call parts) (hmethod : request.method = "PATCH")
    (hconfig : parts.head? = some "config") :
    Routes o request authority call (patch authority parts request.body
      ((parts[1]?).any fun part => o.valid_patch part request.body)) l := by
  unfold patch
  refine .owner h.routed fun howner => ?_
  split
  · next first part =>
    obtain rfl : first = "config" := Option.some.inj hconfig
    refine .refuse_if h.routed fun hpart => .refuse_if h.routed fun hvalid => ?_
    refine .look h fun editable hr => .refuse_if hr.routed fun _ => ?_
    refine .operate hr howner ⟨hmethod, rfl, ?_, rfl, by simpa using hvalid⟩ fun r t ht => ?_
    · have hpart : part ≠ "parent" → part = "limits" := by simpa using hpart
      simpa [or_iff_not_imp_left] using hpart
    · rcases r with (_ | _) | shown
      · exact .refuse ht
      · exact .refuse ht
      · exact .pure ht
  · exact .refuse h.routed

theorem filter_str {v : Option Value} {p : String → Bool} {s : String}
    (h : (v.bind Value.as_str).filter p = some s) : v = some (.string s) := by
  obtain ⟨hs, -⟩ := Option.filter_eq_some_iff.mp h
  obtain ⟨v, rfl, hv⟩ := Option.bind_eq_some_iff.mp hs
  cases v <;> cases hv
  rfl

theorem close_obligation_ok {id : String} (hmethod : request.method = "POST")
    (h : Routing o request l call ["obligations", id, "close"]) :
    Routes o request authority call (close_obligation authority id request.body) l := by
  unfold close_obligation
  refine .owner h.routed fun howner => ?_
  split
  · exact .refuse h.routed
  · next reason hreason =>
    refine .refuse_if h.routed fun _ => ?_
    refine .operate h howner ⟨hmethod, rfl, filter_str hreason⟩ fun r t ht => ?_
    rcases r with e | _
    · exact .refuse ht
    · exact .pure ht

theorem restore_archived_ok (hmethod : request.method = "POST")
    (h : Routing o request l call ["archive", "restore"]) :
    Routes o request authority call (restore_archived authority request.body) l := by
  unfold restore_archived
  refine .owner h.routed fun howner => ?_
  split
  · exact .refuse h.routed
  · next thread hthread =>
    refine .refuse_if h.routed fun _ => ?_
    refine .operate h howner ⟨hmethod, rfl, filter_str hthread⟩ fun r t ht => ?_
    rcases r with e | _ | _
    · exact .refuse ht
    · exact .refuse ht
    · exact .pure ht

theorem backfill_ok {now : Option ℚ} (hmethod : request.method = "POST") (hnow : ⟨.now, now⟩ ∈ l)
    (h : Routing o request l call ["obligations", "backfill"]) :
    Routes o request authority call (backfill authority now request.body) l := by
  unfold backfill
  refine .owner h.routed fun howner => ?_
  split
  · exact .refuse h.routed
  · next r hr =>
    obtain ⟨hbody, hvalid⟩ := Option.filter_eq_some_iff.mp hr
    refine .operate h howner ⟨hmethod, rfl, hbody, now, hnow, hvalid⟩ fun r t ht => ?_
    rcases r with e | _
    · exact .refuse ht
    · exact .pure ht

theorem instruct_channel_ok {channel : String} (hmethod : request.method = "POST")
    (h : Routing o request l call ["channels", channel, "instruct"]) :
    Routes o request authority call (instruct_channel authority channel request.body) l := by
  unfold instruct_channel
  refine .owner h.routed fun howner => .refuse_if h.routed fun _ => .look h fun r hr => ?_
  rcases r with e | code | ⟨name, thread⟩
  · exact .refuse hr.routed
  · exact .refuse hr.routed
  · dsimp only
    split
    · exact .refuse hr.routed
    · next text client_id hbody =>
      have hfound := List.mem_append_right l (List.mem_singleton_self
        (⟨.look (.latest_thread channel), .ok (.ok (name, thread))⟩ : Event Query Answer))
      refine .operate hr howner ⟨hmethod, hbody, .inr ⟨channel, name, rfl, hfound⟩⟩ fun r t ht => ?_
      rcases r with e | id
      · exact .throw ht
      · exact .pure ht

theorem check_ok {α β : Type} {r : Except String α} {f : α → Act β} (h : Routed l call)
    (hf : ∀ a, r = .ok a → Routes o request authority call (f a) l) :
    Routes o request authority call (check r >>= f) l := by
  cases r with
  | error code => exact .refuse h
  | ok a => exact hf a rfl

theorem delegate_ok {thread : String} (hmethod : request.method = "POST")
    (h : Routing o request l call ["threads", thread, "delegate"]) :
    Routes o request authority call (delegate authority thread request.body) l := by
  unfold delegate
  refine .owner h.routed fun howner => check_ok h.routed fun r hr => ?_
  exact .operate h howner ⟨hmethod, rfl, hr⟩ fun r t ht => .pure ht

theorem post_thread_ok {thread : String} (hmethod : request.method = "POST")
    (h : Routing o request l call ["threads", thread, "post"]) :
    Routes o request authority call (post authority (.thread thread) false request.body) l := by
  unfold post
  refine .owner h.routed fun howner => check_ok h.routed fun r hr => ?_
  exact .operate h howner ⟨hmethod, rfl, hr⟩ fun r t ht => .pure ht

theorem post_channel_ok {channel : String} (hmethod : request.method = "POST")
    (h : Routing o request l call ["channels", channel, "post"]) :
    Routes o request authority call (post authority (.channel channel) true request.body) l := by
  unfold post
  refine .owner h.routed fun howner => check_ok h.routed fun r hr => ?_
  exact .operate h howner ⟨hmethod, rfl, hr⟩ fun r t ht => .pure ht

theorem set_driver_ok {thread : String} (hmethod : request.method = "POST")
    (h : Routing o request l call ["threads", thread, "driver"]) :
    Routes o request authority call (set_driver authority thread request.body) l := by
  unfold set_driver
  refine .owner h.routed fun howner => .refuse_if h.routed fun _ => ?_
  split
  · exact .refuse h.routed
  · next driver hdriver =>
    have hfield : some (request.body.field "driver") = some (.string driver) := filter_str hdriver
    have hknown : driver ∈ ["parent", "external"] :=
      of_decide_eq_true (Option.filter_eq_some_iff.mp hdriver).2
    refine .operate h howner ⟨hmethod, rfl, Option.some.inj hfield, hknown⟩ fun r t ht => ?_
    rcases r with e | _ | _
    · exact .throw ht
    · exact .refuse ht
    · exact .pure ht

theorem stop_thread_worker_ok {thread worker : String} (hmethod : request.method = "POST")
    (h : Routing o request l call ["threads", thread, "workers", worker, "stop"]) :
    Routes o request authority call
      (stop_thread_worker authority thread worker request.body) l := by
  unfold stop_thread_worker
  refine .owner h.routed fun howner => .refuse_if h.routed fun _ => ?_
  split
  · exact .refuse h.routed
  · next stop hmode =>
    refine .look h fun r hr => ?_
    rcases r with e | _ | _
    · exact .throw hr.routed
    · exact .refuse hr.routed
    · have hfound := List.mem_append_right l (List.mem_singleton_self
        (⟨.look (.thread_worker thread worker), .ok true⟩ : Event Query Answer))
      exact control_worker_ok hr howner ⟨hmethod, .inr ⟨thread, rfl, hmode, hfound⟩⟩

theorem instruct_thread_ok {thread : String} (hmethod : request.method = "POST")
    (howner : authority = .owner) (h : Routing o request l call ["threads", thread, "instruct"]) :
    Routes o request authority call (instruct_thread authority thread request.body) l := by
  unfold instruct_thread
  split
  · exact .refuse h.routed
  · next text client_id hbody =>
    refine .look h fun name hr => ?_
    refine .operate hr howner ⟨hmethod, hbody, .inl rfl⟩ fun r t ht => ?_
    rcases r with e | id
    · exact .throw ht
    · exact .pure ht

theorem write_notes_ok {thread : String} (hmethod : request.method = "POST")
    (howner : authority = .owner) (h : Routing o request l call ["threads", thread, "notes"]) :
    Routes o request authority call (write_notes authority thread request.body) l := by
  unfold write_notes
  refine .refuse_if h.routed fun hdata => ?_
  split
  · exact .refuse h.routed
  · next expected hexpected =>
    refine .operate h howner ⟨hmethod, rfl, ?_, hexpected⟩ fun r t ht => ?_
    · revert hdata
      cases request.body.field "data" <;> simp [Value.is_object, fields_of]
    · rcases r with e | id
      · exact .throw ht
      · exact .pure ht

theorem thread_action_ok {thread action : String} (hmethod : request.method = "POST")
    (h : Routing o request l call ["threads", thread, action]) :
    Routes o request authority call (thread_action authority thread action request.body) l := by
  unfold thread_action
  refine .owner h.routed fun howner => .refuse_if h.routed fun _ => ?_
  refine .refuse_if h.routed fun hknown => .look h fun r hr => ?_
  rcases r with e | _ | _
  · exact .refuse hr.routed
  · exact .refuse hr.routed
  · refine .ite (fun haction => ?_) fun hinstruct => .ite (fun haction => ?_) fun hnotes => ?_
    · subst haction
      exact instruct_thread_ok hmethod howner hr
    · subst haction
      exact write_notes_ok hmethod howner hr
    · split
      · exact .refuse hr.routed
      · next control hcontrol =>
        refine .operate hr howner ⟨hmethod, action, rfl, by simpa using hknown,
          by simp [hinstruct, hnotes], hcontrol⟩ fun r t ht => ?_
        rcases r with e | _
        · exact .throw ht
        · exact .pure ht

theorem worker_operation_ok {worker op : String} (hmethod : request.method = "POST")
    (h : Routing o request l call ["workers", worker, op]) :
    Routes o request authority call (worker_operation authority worker op request.body) l := by
  unfold worker_operation
  refine .owner h.routed fun howner => .refuse_if h.routed fun hop => ?_
  refine .refuse_if h.routed fun _ => .look h fun r hr => ?_
  rcases r with e | _
  · exact .throw hr.routed
  · refine control_worker_ok hr howner ⟨hmethod, .inl ?_⟩
    by_cases hstop : op = "stop"
    · simp [hstop]
    · have hop : op = "interrupt" := by simpa [hstop] using hop
      simp [hop]

theorem decide_approval_ok {id : String} (hmethod : request.method = "POST")
    (h : Routing o request l call ["approvals", id]) :
    Routes o request authority call (decide_approval authority id request.body) l := by
  unfold decide_approval
  refine .owner h.routed fun howner => .refuse_if h.routed fun _ => ?_
  split
  · exact .refuse h.routed
  · next decision hdecision =>
    refine .look h fun r hr => ?_
    rcases r with e | _ | _
    · exact .refuse hr.routed
    · exact .refuse hr.routed
    · refine .operate hr howner ⟨hmethod, rfl, hdecision⟩ fun r t ht => ?_
      rcases r with e | _ | _
      · exact .throw ht
      · exact .refuse ht
      · exact .pure ht

theorem retry_post_ok {v : String} (hmethod : request.method = "POST")
    (h : Routing o request l call ["outbox", v, "retry"]) :
    Routes o request authority call (retry_post authority v request.body) l := by
  unfold retry_post
  refine .owner h.routed fun howner => .refuse_if h.routed fun _ => ?_
  split
  · exact .refuse h.routed
  · next id hid =>
    refine .operate h howner ⟨hmethod, v, rfl, hid⟩ fun r t ht => ?_
    rcases r with e | _ | _
    · exact .throw ht
    · exact .refuse ht
    · exact .pure ht

/-! ## Routes -/

theorem change_ok {now : Option ℚ} (hmethod : request.method = "POST") (hnow : ⟨.now, now⟩ ∈ l)
    (h : Routing o request l call parts) :
    Routes o request authority call (change authority now parts request.body) l := by
  unfold change
  split
  · exact close_obligation_ok hmethod h
  · exact restore_archived_ok hmethod h
  · exact backfill_ok hmethod hnow h
  · exact instruct_channel_ok hmethod h
  · exact delegate_ok hmethod h
  · exact post_thread_ok hmethod h
  · exact post_channel_ok hmethod h
  · exact set_driver_ok hmethod h
  · exact stop_thread_worker_ok hmethod h
  · exact thread_action_ok hmethod h
  · exact worker_operation_ok hmethod h
  · exact decide_approval_ok hmethod h
  · exact retry_post_ok hmethod h
  · exact .refuse h.routed

theorem route_ok {query : List (String × String)} (h : Routing o request l call parts) :
    Routes o request authority call (route o request authority parts query) l := by
  unfold route
  refine ⟨?_⟩
  rw [wp_bind, wp_clock]
  intro now
  refine Routes.ends ?_
  replace h := h.next (e := ⟨.now, now⟩) rfl rfl
  have hnow : ⟨.now, now⟩ ∈ l ++ [⟨.now, now⟩] := by simp
  refine .ite (fun _ => get_ok h) fun _ => ?_
  refine .refuse_if h.routed fun _ => .refuse_if h.routed fun _ => ?_
  refine .ite (fun hconfig => patch_ok h hconfig.1 hconfig.2) fun _ => ?_
  exact .refuse_if h.routed fun hmethod => change_ok (by simpa using hmethod) hnow h

/-! ## The request -/

/-- A request that is not recorded yet. -/
structure Unrouted (l : Trace) : Prop where
  call : l.call = none
  unchanged : l.changes = []
  unanswered : l.response = none

theorem Unrouted.next (h : Unrouted l) {e : Event Query Answer} (hrecorded : recorded e = none)
    (hchanged : changed e = none) (hanswered : answered e = none) : Unrouted (l ++ [e]) where
  call := by rw [call_none h.call, hrecorded]
  unchanged := by rw [changes_append, h.unchanged, hchanged]; rfl
  unanswered := by rw [response_none h.unanswered, hanswered]

theorem Unrouted.answered (h : Unrouted l) {response : Response} (hstatus : response.status ≠ 200) :
    Answered l response := by
  unfold Answered
  rw [h.call]
  exact ⟨h.unchanged, hstatus⟩

theorem resolved_ok {raw : List String} (h : Unrouted l) :
    wp (rules o request authority) (resolved raw)
      (fun parts t => Unrouted t ∧ Resolved t raw parts) (fun response t => Answered t response)
      l := by
  unfold resolved
  cases hnamed : named_thread raw with
  | none => exact ⟨h, by unfold Resolved; rw [hnamed]⟩
  | some reference =>
    refine ⟨trivial, fun r => ?_⟩
    have hr := h.next (e := ⟨.look (.resolve reference), r⟩) rfl rfl rfl
    rcases r with e | _ | id
    · exact hr.answered (by decide)
    · exact hr.answered (by decide)
    · refine ⟨hr, ?_⟩
      unfold Resolved
      rw [hnamed]
      exact ⟨id, List.mem_append_right _ (List.mem_singleton_self _), rfl⟩

/-- How a request is answered. -/
abbrev Handled (o : Outside) (request : Request) (authority : Authority) (m : Act Response)
    (l : Trace) : Prop :=
  wp (rules o request authority) m (fun response t => Answered t response)
    (fun response t => Answered t response) l

theorem conclude_ok {response : Response} (h : Routed l call) :
    Handled o request authority (conclude call response) l := by
  unfold conclude Handled
  rw [wp_bind, wp_clock]
  intro now
  replace h := h.next (e := ⟨.now, now⟩) rfl
  rw [wp_bind, wp_ask]
  refine ⟨h, fun r => ?_⟩
  have hcall := call_append (e := ⟨.control_response call now response, r⟩) h.1
  rcases r with e | _
  · exact Answered.of_call hcall
      (.inr ⟨rfl, response_none h.2, now, response, e, List.getLast?_concat⟩)
  · exact Answered.of_call hcall (.inl (response_none h.2))

theorem record_ok {query : List (String × String)} {now : ℚ} (h : Unrouted l)
    (htarget : ∃ raw query, target o request.target = some (raw, query) ∧ Resolved l raw parts) :
    Handled o request authority (record o request authority parts query now) l := by
  unfold record Handled
  rw [wp_bind, wp_ask]
  refine ⟨⟨rfl, rfl, h.call, h.unchanged⟩, fun r => ?_⟩
  rcases r with e | call
  · exact (h.next (e := ⟨.control_request now request authority, .error e⟩) rfl rfl rfl).answered
      (by decide)
  have hrouting : Routing o request (l ++ [⟨.control_request now request authority, .ok call⟩]) call
      parts :=
    { call := call_none h.call
      unchanged := by rw [changes_append, h.unchanged]; rfl
      unanswered := response_none h.unanswered
      target := by
        obtain ⟨raw, query, htarget, hresolved⟩ := htarget
        exact ⟨raw, query, htarget, hresolved.next⟩ }
  dsimp only
  rw [wp_bind, wp_attempt]
  exact wp_mono (route_ok hrouting).ends (fun response t ht => conclude_ok ht)
    fun response t ht => conclude_ok ht

theorem handle_ok : Handled o request authority (handle o request authority) [] := by
  have h : Unrouted [] := ⟨rfl, rfl, rfl⟩
  unfold handle Handled
  rw [wp_bind]
  unfold refuse_if
  rw [wp_ite, wp_pure]
  refine ⟨fun _ => h.answered (by decide), fun _ => ?_⟩
  cases htarget : target o request.target with
  | none => exact h.answered (by decide)
  | some found =>
    obtain ⟨raw, query⟩ := found
    dsimp only
    rw [wp_bind]
    refine wp_mono (resolved_ok h) ?_ fun _ _ he => he
    rintro parts l ⟨h, hparts⟩
    rw [wp_bind, wp_clock]
    intro now
    replace h := h.next (e := ⟨.now, now⟩) rfl rfl rfl
    cases now with
    | none => exact h.answered (by decide)
    | some now => exact record_ok h ⟨raw, query, htarget, hparts.next⟩

end Functions

/-! ## Whole runs -/

section Runs

variable {o : Outside} {request : Request} {authority : Authority} {l : Trace}

/-- A request changes at most one thing. -/
theorem legal_changes (h : (rules o request authority).Legal [] l) : l.changes.length ≤ 1 := by
  induction l using List.reverseRecOn with
  | nil => exact Nat.zero_le _
  | append_singleton l e ih =>
    obtain ⟨hlegal, hin⟩ := Protocol.legal_concat h
    rw [changes_append, List.length_append]
    obtain ⟨question, answer⟩ := e
    cases question with
    | operate op by_ =>
      obtain ⟨-, -, call, parts, hrouting, -⟩ := hin
      rw [hrouting.unchanged]
      exact Nat.le_refl 1
    | now => exact ih hlegal
    | look lookup => exact ih hlegal
    | control_request now r a => cases answer <;> exact ih hlegal
    | control_response call now r => cases answer <;> exact ih hlegal

theorem run_changes {r : Except Response Response}
    (hrun : Run (handle o request authority).run l r) : l.changes.length ≤ 1 :=
  legal_changes (wp_run handle_ok hrun).1

theorem run_in_order {r : Except Response Response}
    (hrun : Run (handle o request authority).run l r) {past rest : Trace}
    {e : Event Query Answer} (hl : l = past ++ e :: rest) :
    InOrder o request authority past e.question :=
  (wp_history handle_ok hrun).1 past e rest hl

theorem run_answered {r : Except Response Response}
    (hrun : Run (handle o request authority).run l r) :
    Ends (fun response t => Answered t response) (fun response t => Answered t response) r l :=
  (wp_history handle_ok hrun).2

end Runs

end Fridica.Control.Api
