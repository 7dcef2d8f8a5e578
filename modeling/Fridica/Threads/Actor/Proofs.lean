import Fridica.Threads.Actor.Rules

/-!
# A turn keeps its rules

Each function of the turn asks only what the rules allow where it asks, whatever the store, the
clock and the parent answer, and leaves its item released once or not at all.
-/

open Fridica.Ask
open Fridica.Json (Value)
open Fridica.Attention (Capacity Trigger)

namespace Fridica.Threads.Turns

section Functions

variable {o : Outside} {a : Actor} {α : Type} {l : Trace}

theorem wp_tx {op : StoreOp} {post : Reply op → Trace → Prop} {err : String → Trace → Prop} :
    wp (rules o a) (tx op) post err l ↔ InOrder o a l (.tx op) ∧
      (∀ r, post r (l ++ [⟨.tx op, .ok r⟩])) ∧ ∀ e, err e (l ++ [⟨.tx op, .error e⟩]) := by
  unfold tx
  rw [wp_unit, wp_ask]
  refine and_congr_right fun _ => ⟨fun h => ⟨fun r => h (.ok r), fun e => h (.error e)⟩, ?_⟩
  rintro ⟨hok, herr⟩ (e | r)
  · exact herr e
  · exact hok r

theorem wp_clock {post : ℚ → Trace → Prop} {err : String → Trace → Prop} :
    wp (rules o a) clock post err l ↔ ∀ t, post t (l ++ [⟨.now, t⟩]) := by
  unfold clock
  rw [wp_ask]
  exact and_iff_right trivial

/-- The item is claimed and its turn loaded, and nothing has become of it yet. -/
structure Turning (l : Trace) (id : Int) (kind : Kind) (request : Loaded) (external : Bool)
    (asked : List (CallKind × ParentAnswer)) (reserved : Bool) : Prop where
  item : l.item = some (id, kind)
  request : l.request = some request
  external : l.external = external
  asked : l.asked = asked
  reserved : l.reserved = reserved
  unreleased : l.released = 0

/-- The turn ended: one unit of work decided what becomes of its item, or the item was gone. -/
def Over (l : Trace) (id : Int) (kind : Kind) : Prop :=
  l.item = some (id, kind) ∧ (l.released = 1 ∨ l.released = 0 ∧ l.getLast?.any gone = true)

/-- The turn failed before anything became of its item. -/
def Undone (l : Trace) (id : Int) (kind : Kind) : Prop := l.item = some (id, kind) ∧ l.released = 0

variable {id : Int} {kind : Kind} {request : Loaded} {external : Bool}
  {asked : List (CallKind × ParentAnswer)} {reserved : Bool}

theorem Turning.undone (h : Turning l id kind request external asked reserved) :
    Undone l id kind := ⟨h.item, h.unreleased⟩

theorem Turning.fenced (h : Turning l id kind request external asked reserved) :
    Fenced l id request.session.version :=
  ⟨h.unreleased, kind, request, h.item, h.request, rfl⟩

theorem Turning.calls (h : Turning l id kind request external asked reserved) :
    l.calls = asked.map Prod.fst := congrArg (List.map Prod.fst) h.asked

theorem Turning.next (h : Turning l id kind request external asked reserved)
    {e : Event Query Answer} (hreleases : releases e = false) (hdriven : driven e = false)
    (hanswered : answered e = none) (hgranted : granted e = false) :
    Turning (l ++ [e]) id kind request external asked reserved where
  item := item_append h.item
  request := request_append h.request
  external := by rw [external_append, h.external, hdriven, Bool.or_false]
  asked := by rw [asked_append, h.asked, hanswered, Option.toList_none, List.append_nil]
  reserved := by rw [reserved_append, h.reserved, hgranted, Bool.or_false]
  unreleased := by rw [released_append, h.unreleased, hreleases]; rfl

theorem Turning.granted (h : Turning l id kind request external asked false) (trigger : Trigger)
    (now : ℚ) : Turning (l ++ [⟨.tx (.reserve id trigger now), .ok .reserved⟩]) id kind request
      external asked true where
  item := item_append h.item
  request := request_append h.request
  external := external_append.trans (by rw [h.external]; exact Bool.or_false _)
  asked := asked_append.trans (by rw [h.asked]; exact List.append_nil _)
  reserved := reserved_append.trans (Bool.or_true _)
  unreleased := released_append.trans (by rw [h.unreleased]; rfl)

theorem Undone.over (h : Undone l id kind) {e : Event Query Answer}
    (hreleases : releases e = true) : Over (l ++ [e]) id kind :=
  ⟨item_append h.1, .inl (by rw [released_append, h.2, hreleases]; rfl)⟩

theorem Undone.gone (h : Undone l id kind) {e : Event Query Answer} (hreleases : releases e = false)
    (hgone : Turns.gone e = true) : Over (l ++ [e]) id kind :=
  ⟨item_append h.1, .inr ⟨by rw [released_append, h.2, hreleases]; rfl, by simpa using hgone⟩⟩

theorem Undone.next (h : Undone l id kind) {e : Event Query Answer}
    (hreleases : releases e = false) : Undone (l ++ [e]) id kind :=
  ⟨item_append h.1, by rw [released_append, h.2, hreleases]; rfl⟩

/-- How a function of a turn ends. -/
abbrev Ended (id : Int) (kind : Kind) (m : Act α) (l : Trace) (o : Outside) (a : Actor) : Prop :=
  wp (rules o a) m (fun _ t => Over t id kind) (fun _ t => Undone t id kind) l

theorem settlement_ok {verdict : String} {limit : Option ℚ}
    {post : Settlement → Trace → Prop}
    (h : Turning l id kind request external asked reserved)
    (hpost : ∀ s, s.id = id → request.session.version = some s.version → post s l) :
    wp (rules o a) (settlement id request verdict limit) post (fun _ t => Undone t id kind) l := by
  unfold settlement
  cases request.session.id with
  | none => exact h.undone
  | some session =>
    cases hversion : request.session.version with
    | none => exact h.undone
    | some version => exact hpost _ rfl hversion

theorem settle_ok {verdict : String} {limit : Option ℚ}
    (h : Turning l id kind request external asked reserved) :
    Ended id kind (settle id request verdict limit) l o a := by
  unfold settle Ended
  rw [wp_bind]
  refine settlement_ok h fun s hid hversion => ?_
  rw [wp_bind, wp_tx]
  refine ⟨?_, fun r => ?_, fun e => h.undone.next rfl⟩
  · rw [InOrder, hid, ← hversion]
    exact h.fenced
  · exact h.undone.over rfl

theorem settle_external_ok (h : Turning l id kind request true [] reserved) :
    Ended id kind (settle_external id request) l o a := by
  unfold settle_external Ended
  rw [wp_bind]
  refine settlement_ok h fun s hid hversion => ?_
  rw [wp_bind, wp_tx]
  refine ⟨⟨?_, h.external, h.calls⟩, fun r => h.undone.over rfl, fun e => h.undone.next rfl⟩
  rw [hid, ← hversion]
  exact h.fenced

theorem settle_triage_ok {verdict : String} {calls : List Call} {answer : ParentAnswer}
    (h : Turning l id kind request external [(.triage, answer)] false) :
    Ended id kind (settle_triage id request verdict calls) l o a := by
  unfold settle_triage Ended
  rw [wp_bind, wp_clock]
  intro now
  replace h := h.next (e := ⟨.now, now⟩) rfl rfl rfl rfl
  rw [wp_bind, wp_tx]
  exact ⟨⟨h.fenced, h.calls, h.reserved⟩, fun r => h.undone.over rfl, fun e => h.undone.next rfl⟩

theorem retry_later_ok {calls : List Call} {code : String} {delay : ℚ}
    (h : Turning l id kind request external asked reserved) (hasked : asked ≠ []) :
    Ended id kind (retry_later id request calls code delay) l o a := by
  unfold retry_later Ended
  rw [wp_bind, wp_clock]
  intro now
  replace h := h.next (e := ⟨.now, now⟩) rfl rfl rfl rfl
  rw [wp_bind, wp_tx]
  refine ⟨⟨h.fenced, ?_⟩, fun r => h.undone.over rfl, fun e => h.undone.next rfl⟩
  rw [h.calls]
  simpa using hasked

/-- The trace ends where the answer was recorded. -/
def Recorded (l : Trace) (answer : ParentAnswer) : Prop :=
  ∃ past seq now, l = past ++ [⟨.tx (.record_result seq answer now), .ok ()⟩]

theorem Recorded.checked {answer : ParentAnswer} (h : Recorded l answer) (now : ℚ) :
    CheckedAt (l ++ [⟨.now, now⟩]) answer now := by
  obtain ⟨past, seq, recorded, rfl⟩ := h
  exact ⟨past, seq, recorded, [], by simp, List.forall_mem_nil _⟩

/-- A call that may be made now leaves its answer, and nothing else that the rules speak of. -/
theorem call_ok {k : CallKind} {previous : Option Value} {errors : List String}
    {post : Call → Trace → Prop} (h : Turning l id kind request external asked reserved)
    (hmay : ∀ t, Turning t id kind request external asked reserved → Quiet l t →
      MayCall o a t k previous errors)
    (hpost : ∀ c t answer, Turning t id kind request external (asked ++ [(k, answer)]) reserved →
      Recorded t answer → c.kind = k → c.response = answer.response →
      c.failure = answer.failure → post c t) :
    wp (rules o a) (call o k previous errors) post (fun _ t => Undone t id kind) l := by
  unfold call
  rw [wp_bind, wp_clock]
  intro started
  replace h := h.next (e := ⟨.now, started⟩) rfl rfl rfl rfl
  rw [wp_bind, wp_tx]
  refine ⟨trivial, fun seq => ?_, fun e => h.undone.next rfl⟩
  replace h := h.next (e := ⟨.tx (.record_call k started), .ok seq⟩) rfl rfl rfl rfl
  rw [wp_bind, wp_ask]
  refine ⟨hmay _ h ⟨[⟨.now, started⟩, ⟨.tx (.record_call k started), .ok seq⟩], by simp, ?_⟩,
    fun answer => ?_⟩
  · simp [answered]
  have hcalled : Turning (rules o a |>.next _ (.decide k previous errors) answer) id kind request
      external (asked ++ [(k, answer)]) reserved :=
    { item := item_append h.item
      request := request_append h.request
      external := external_append.trans (by rw [h.external]; exact Bool.or_false _)
      asked := asked_append.trans (by rw [h.asked]; rfl)
      reserved := reserved_append.trans (by rw [h.reserved]; exact Bool.or_false _)
      unreleased := released_append.trans (by rw [h.unreleased]; rfl) }
  rw [wp_bind, wp_clock]
  intro now
  replace h := hcalled.next (e := ⟨.now, now⟩) rfl rfl rfl rfl
  rw [wp_bind, wp_tx]
  refine ⟨trivial, fun u => ?_, fun e => h.undone.next rfl⟩
  replace h := h.next (e := ⟨.tx (.record_result seq answer now), .ok u⟩) rfl rfl rfl rfl
  dsimp only
  rw [wp_ite]
  constructor
  · intro _
    rw [wp_bind]
    exact h.undone
  · intro _
    exact hpost _ _ answer h ⟨_, seq, now, rfl⟩ rfl rfl rfl

theorem Kept.nil : Kept [] [] := rfl

theorem Kept.concat {calls : List Call} {c : Call} {k : CallKind} {answer : ParentAnswer}
    (h : Kept calls asked) (hkind : c.kind = k) (hresponse : c.response = answer.response)
    (hfailure : c.failure = answer.failure) : Kept (calls ++ [c]) (asked ++ [(k, answer)]) := by
  unfold Kept at h ⊢
  simp [h, recorded, hkind, hresponse, hfailure]

/-! ## Whether a turn replies -/

/-- The turn may act on its thread. -/
structure Acting (a : Actor) (kind : Kind) (request : Loaded) (external : Bool) : Prop where
  acts : a.observe_only = false
  active : request.control = some "active"
  driver : external = true → for_driver kind request = false
  replies : kind ≠ .debrief

/-- The calls that a turn brings to its reply. -/
def Before (asked : List (CallKind × ParentAnswer)) : Prop :=
  asked = [] ∨ ∃ answer, asked = [(.triage, answer)]

/-- How the admission of a turn ends: the turn is over, or it goes on to a reply. -/
def Admission (id : Int) (kind : Kind) (request : Loaded) (external : Bool) :
    Step ⊕ Admitted → Trace → Prop
  | .inl _, t => Over t id kind
  | .inr admitted, t => ∃ asked, Turning t id kind request external asked false ∧ Before asked ∧
    (kind.worker_result? = true → asked = []) ∧ Kept admitted.calls asked

theorem triage_ok {gate : Gate} {turns : Nat} (hacting : Acting a kind request external)
    (hkind : kind = .message) (h : Turning l id kind request external [] false) :
    wp (rules o a) (triage o id request gate turns) (Admission id kind request external)
      (fun _ t => Undone t id kind) l := by
  unfold triage
  rw [wp_bind]
  refine call_ok h (fun t ht _ => ?_) fun c t answer ht _ hc hresponse hfailure => ?_
  · exact
      { acts := hacting.acts
        unreleased := ht.unreleased
        request := ⟨id, kind, request, ht.item, ht.request, hacting.active,
          fun hext => hacting.driver (ht.external ▸ hext), fun _ => hkind, by simp [hkind]⟩
        reserved := by simp [ht.reserved]
        order := ht.calls
        repair := ⟨rfl, rfl⟩ }
  · dsimp only
    split
    · rw [wp_bind]
      exact retry_later_ok ht (by simp)
    rw [wp_ite]
    constructor
    · intro _
      rw [wp_bind]
      exact settle_triage_ok ht
    intro _
    rw [wp_bind, wp_tx]
    refine ⟨trivial, fun live => ?_, fun e => ht.undone.next rfl⟩
    replace ht := ht.next (e := ⟨.tx (.turn_live request.session.version), .ok live⟩)
      rfl rfl rfl rfl
    rw [wp_ite]
    constructor
    · intro _
      rw [wp_bind]
      exact settle_triage_ok ht
    · intro _
      exact ⟨_, ht, .inr ⟨answer, rfl⟩, by simp [hkind, Kind.worker_result?],
        Kept.nil.concat hc hresponse hfailure⟩

theorem enter_message_ok (hacting : Acting a kind request external) (hkind : kind = .message)
    (h : Turning l id kind request external [] false) :
    wp (rules o a) (enter_message o a id request) (Admission id kind request external)
      (fun _ t => Undone t id kind) l := by
  unfold enter_message
  rw [wp_bind, wp_unit, wp_pure]
  cases request.message_ts with
  | error e => exact h.undone
  | ok ts =>
    change wp (rules o a) (clock >>= _) _ _ l
    rw [wp_bind, wp_clock]
    intro now
    replace h := h.next (e := ⟨.now, now⟩) rfl rfl rfl rfl
    dsimp only
    rw [wp_ite]
    constructor
    · intro _
      rw [wp_bind]
      exact settle_ok h
    intro _
    rw [wp_ite]
    constructor
    · exact fun _ => triage_ok hacting hkind h
    · intro _
      exact ⟨[], h, .inl rfl, fun _ => rfl, rfl⟩

theorem enter_ok (hacting : Acting a kind request external)
    (h : Turning l id kind request external [] false) :
    wp (rules o a) (enter o a id kind request) (Admission id kind request external)
      (fun _ t => Undone t id kind) l := by
  unfold enter
  dsimp only
  rw [wp_ite, wp_ite]
  refine ⟨fun _ => ?_, fun _ => ⟨fun hkind => enter_message_ok hacting hkind h, fun _ => ?_⟩⟩
  · exact ⟨[], h, .inl rfl, fun _ => rfl, rfl⟩
  · exact ⟨[], h, .inl rfl, fun _ => rfl, rfl⟩

/-! ## The decision -/

theorem response_some {answer : ParentAnswer} {raw : Value} (h : answer.response = some raw) :
    answer = .value raw := by
  cases answer with
  | value v => exact congrArg _ (Option.some.inj h)
  | failed code => cases h
  | timeout => cases h

theorem Lawful.next {r : Loaded} {d : Decision} (h : Lawful o a l kind r d) {e : Event Query Answer}
    (hdriven : driven e = false) (hanswered : answered e = none) :
    Lawful o a (l ++ [e]) kind r d := by
  have hasked : Trace.asked (l ++ [e]) = l.asked := by
    rw [asked_append, hanswered, Option.toList_none, List.append_nil]
  have hexternal : Trace.external (l ++ [e]) = l.external := by
    rw [external_append, hdriven, Bool.or_false]
  have hquiet : Quiet l (l ++ [e]) :=
    ⟨[e], rfl, fun f hf => (List.mem_singleton.mp hf).symm ▸ hanswered⟩
  cases h with
  | direct hkind hnone hdirect => exact .direct hkind (hasked.trans hnone) hdirect
  | accepted hk hlast hread haccept =>
    exact .accepted hk (hasked ▸ hlast) (hread.quiet hquiet) (hexternal ▸ haccept)
  | unavailable hk hlast hresponse => exact .unavailable hk (hasked ▸ hlast) hresponse
  | invalid hlast hread hrefused =>
    exact .invalid (hasked ▸ hlast) (hread.quiet hquiet) (hexternal ▸ hrefused)

/-- How the rounds of a decision end. -/
def Decided (o : Outside) (a : Actor) (id : Int) (kind : Kind) (request : Loaded)
    (external : Bool) : Rounds → Trace → Prop
  | .temporary _ _ _, t => ∃ asked, Turning t id kind request external asked true ∧ asked ≠ []
  | .decided d calls, t => ∃ asked, Turning t id kind request external asked true ∧
    Lawful o a t kind request d ∧ Kept calls asked

/-- One round, given what its call may be and what follows an answer that is refused. -/
theorem round_ok {k : CallKind} {later : List CallKind} {previous : Option Value}
    {errors : List String} {calls : List Call} (hk : k = .decide ∨ k = .repair)
    (hlast : later = [] → k = .repair) (hkept : Kept calls asked)
    (h : Turning l id kind request external asked true)
    (hmay : ∀ t, Turning t id kind request external asked true → Quiet l t →
      MayCall o a t k previous errors)
    (hnext : later ≠ [] → ∀ t raw now e calls, Kept calls (asked ++ [(k, .value raw)]) →
      Turning t id kind request external (asked ++ [(k, .value raw)]) true →
      CheckedAt t (.value raw) now →
      accept o (delegation_scope a external request) request raw now = .error e →
      wp (rules o a) (rounds o (delegation_scope a external request) request later (some raw) [e]
        calls) (Decided o a id kind request external) (fun _ t => Undone t id kind) t) :
    wp (rules o a) (rounds o (delegation_scope a external request) request (k :: later) previous
      errors calls) (Decided o a id kind request external) (fun _ t => Undone t id kind) l := by
  unfold rounds
  rw [wp_bind]
  refine call_ok h hmay fun c t answer ht hrecorded hc hresponse hfailure => ?_
  rw [wp_bind, wp_clock]
  intro now
  replace ht := ht.next (e := ⟨.now, now⟩) rfl rfl rfl rfl
  have hread := hrecorded.checked now
  split
  · exact ⟨_, ht, by simp⟩
  have hasked : Trace.asked (t ++ [⟨.now, now⟩]) = asked ++ [(k, answer)] := ht.asked
  split
  · next hnone =>
    exact ⟨_, ht, .unavailable hk (by rw [hasked, List.getLast?_concat]) (hresponse ▸ hnone),
      hkept.concat hc hresponse hfailure⟩
  · next raw hsome =>
    obtain rfl := response_some (hresponse ▸ hsome)
    have hanswer : (Trace.asked (t ++ [⟨.now, now⟩])).getLast? = some (k, .value raw) := by
      rw [hasked, List.getLast?_concat]
    split
    · next d haccept =>
      exact ⟨_, ht, .accepted hk hanswer hread (ht.external.symm ▸ haccept),
        hkept.concat hc hresponse hfailure⟩
    · next e hrefused =>
      by_cases hlater : later = []
      · obtain rfl := hlast hlater
        simp only [hlater, if_true]
        exact ⟨_, ht, .invalid hanswer hread (ht.external.symm ▸ hrefused),
          hkept.concat hc hresponse hfailure⟩
      · simp only [hlater, if_false]
        exact hnext hlater _ raw now e _ (hkept.concat hc hresponse hfailure) ht hread hrefused

theorem rounds_ok {calls : List Call} (hacting : Acting a kind request external)
    (hbefore : Before asked) (hkept : Kept calls asked)
    (h : Turning l id kind request external asked true) :
    wp (rules o a) (rounds o (delegation_scope a external request) request [.decide, .repair] none
      [] calls) (Decided o a id kind request external) (fun _ t => Undone t id kind) l := by
  have hrequest {k : CallKind} (t : Trace) (hk : k = .decide ∨ k = .repair)
      {asked : List (CallKind × ParentAnswer)}
      (ht : Turning t id kind request external asked true) : ∃ id k' r, t.item = some (id, k') ∧
        t.request = some r ∧ r.control = some "active" ∧
        (t.external = true → for_driver k' r = false) ∧ (k = .triage → k' = .message) ∧
        (k = .debrief ↔ k' = .debrief) :=
    ⟨id, kind, request, ht.item, ht.request, hacting.active,
      fun hext => hacting.driver (ht.external ▸ hext), by rcases hk with rfl | rfl <;> simp,
      by rcases hk with rfl | rfl <;> simp [hacting.replies]⟩
  refine round_ok (.inl rfl) (by simp) hkept h (fun t ht _ => ?_)
    fun _ t raw now e calls hkept ht hread hbad => ?_
  · exact
      { acts := hacting.acts
        unreleased := ht.unreleased
        request := hrequest t (.inl rfl) ht
        reserved := by simp [ht.reserved]
        order := by
          rw [ht.calls]
          obtain rfl | ⟨answer, rfl⟩ := hbefore
          · exact .inl rfl
          · exact .inr rfl
        repair := ⟨rfl, rfl⟩ }
  · refine round_ok (.inr rfl) (fun _ => rfl) hkept ht (fun t' ht' hquiet => ?_)
      fun h => absurd rfl h
    exact
      { acts := hacting.acts
        unreleased := ht'.unreleased
        request := hrequest t' (.inr rfl) ht'
        reserved := by simp [ht'.reserved]
        order := by
          rw [ht'.calls]
          obtain rfl | ⟨answer, rfl⟩ := hbefore
          · exact .inl rfl
          · exact .inr rfl
        repair := ⟨request, raw, now, e, ht'.request, by rw [ht'.asked, List.getLast?_concat],
          hread.quiet hquiet, ht'.external.symm ▸ hbad, rfl, rfl⟩ }

theorem commit_turn_ok {turn : Turn} {calls : List Call} (hacting : Acting a kind request external)
    (h : Turning l id kind request external asked true) (hid : turn.id = id)
    (hrequest : turn.request = request.toParentRequest)
    (hlawful : Lawful o a l kind request turn.decision) (hkept : Kept calls asked)
    (hwork : o.prepare turn.decision request (delegation_scope a external request) true =
      .ok turn.work) :
    Ended id kind (commit_turn o turn calls) l o a := by
  unfold commit_turn Ended
  rw [wp_bind, wp_tx]
  refine ⟨trivial, fun reads => ?_, fun e => h.undone.next rfl⟩
  replace h := h.next (e := ⟨.tx .commit_reads, .ok reads⟩) rfl rfl rfl rfl
  replace hlawful := hlawful.next (e := ⟨.tx .commit_reads, .ok reads⟩) rfl rfl
  rw [wp_bind, wp_unit, wp_pure]
  cases hcommit : commit o.toCore turn reads with
  | error e => exact h.undone
  | ok result =>
    obtain ⟨outcome, effects⟩ := result
    change wp (rules o a) (tx (.commit turn effects (calls.map parent_turn)) >>= _) _ _ _
    rw [wp_bind, wp_tx]
    refine ⟨?_, fun u => h.undone.over rfl, fun e => h.undone.next rfl⟩
    exact
      { acts := hacting.acts
        unreleased := h.unreleased
        reserved := h.reserved
        decided := ⟨kind, request, hid ▸ h.item, h.request, hacting.active, hrequest, hlawful,
          h.external.symm ▸ hwork⟩
        effects := ⟨reads, outcome, List.getLast?_concat, hcommit⟩
        kept := ⟨calls, h.asked.symm ▸ hkept, rfl⟩ }

theorem decision_ok {calls : List Call} {direct : Option Decision}
    (hacting : Acting a kind request external) (hbefore : Before asked) (hkept : Kept calls asked)
    (h : Turning l id kind request external asked true)
    (hdirect : ∀ d, direct = some d → Lawful o a l kind request d) :
    wp (rules o a) (decision o a external request calls direct)
      (Decided o a id kind request external) (fun _ t => Undone t id kind) l := by
  unfold decision
  cases direct with
  | some d => exact ⟨asked, h, hdirect d rfl, hkept⟩
  | none =>
    dsimp only
    rw [wp_ite]
    refine ⟨fun _ => ?_, fun _ => rounds_ok hacting hbefore hkept h⟩
    rw [wp_bind, wp_tx]
    refine ⟨trivial, fun u => ?_, fun e => h.undone.next rfl⟩
    exact rounds_ok hacting hbefore hkept (h.next rfl rfl rfl rfl)

theorem conclude_ok {session : String} {admitted : Admitted} {decided : Rounds}
    (hacting : Acting a kind request external)
    (h : Decided o a id kind request external decided l) :
    Ended id kind (conclude o a id session external request admitted decided) l o a := by
  unfold conclude
  cases decided with
  | temporary calls code delay =>
    obtain ⟨asked, h, hasked⟩ := h
    exact retry_later_ok h hasked
  | decided d calls =>
    obtain ⟨asked, h, hlawful, hkept⟩ := h
    unfold Ended
    dsimp only
    rw [wp_bind, wp_unit, wp_pure]
    cases hwork : o.prepare d request (delegation_scope a external request) true with
    | error e => exact h.undone
    | ok work =>
      change wp (rules o a) (clock >>= _) _ _ _
      rw [wp_bind, wp_clock]
      intro now
      replace h := h.next (e := ⟨.now, now⟩) rfl rfl rfl rfl
      exact commit_turn_ok hacting h rfl rfl (hlawful.next rfl rfl) hkept hwork

theorem respond_ok {session : String} {admitted : Admitted}
    (hacting : Acting a kind request external) (hbefore : Before asked)
    (hresult : kind.worker_result? = true → asked = []) (hkept : Kept admitted.calls asked)
    (h : Turning l id kind request external asked false) :
    Ended id kind (respond o a id kind session external request admitted) l o a := by
  unfold respond Ended
  rw [wp_bind, wp_clock]
  intro now
  replace h := h.next (e := ⟨.now, now⟩) rfl rfl rfl rfl
  rw [wp_bind, wp_tx]
  refine ⟨⟨h.unreleased, h.reserved, kind, h.item⟩, fun capacity => ?_, fun e => h.undone.next rfl⟩
  cases capacity with
  | deferred limit => exact h.undone.over rfl
  | reserved =>
    replace h := h.granted (reply_class request.trigger) now
    rw [wp_bind, wp_unit, wp_pure]
    generalize hdirect : (if kind.worker_result? = true then _ else _ :
      Except String (Option Decision)) = direct
    cases direct with
    | error e => exact h.undone
    | ok direct =>
      change wp (rules o a) (decision o a external request admitted.calls direct >>= _) _ _ _
      rw [wp_bind]
      refine wp_mono (decision_ok hacting hbefore hkept h fun d hd => ?_)
        (fun decided t ht => conclude_ok hacting ht) fun _ _ he => he
      subst hd
      split at hdirect
      · next hkind => exact .direct hkind (h.asked.trans (hresult hkind)) hdirect
      · cases hdirect

/-! ## Debriefs and progress notes -/

theorem debrief_write_ok {write : DebriefWrite} {now : ℚ} {step : Step} {answer : ParentAnswer}
    {turn : Int} {reads : DebriefReads}
    (h : Turning l id kind request external [(.debrief, answer)] true)
    (hlast : l.getLast? = some ⟨.tx (.debrief_reads request.session.version turn), .ok reads⟩)
    (hdue : write ≠ .stale → reads.due = true) :
    Ended id kind (do tx (.debrief_write write now); return step) l o a := by
  unfold Ended
  rw [wp_bind, wp_tx]
  exact ⟨⟨h.unreleased, h.reserved, h.calls, id, kind, request, turn, reads, h.item, h.request,
    hlast, hdue⟩, fun u => h.undone.over rfl, fun e => h.undone.next rfl⟩

theorem debrief_ok (hacts : a.observe_only = false) (hactive : request.control = some "active")
    (hkind : kind = .debrief) (h : Turning l id kind request external [] false) :
    Ended id kind (debrief o a id request) l o a := by
  unfold debrief Ended
  split
  swap
  · exact h.undone
  dsimp only
  rw [wp_ite]
  refine ⟨fun _ => settle_ok h, fun _ => ?_⟩
  cases debrief_class request with
  | none => exact h.undone
  | some trigger =>
  dsimp only
  rw [wp_bind, wp_clock]
  intro now
  replace h := h.next (e := ⟨.now, now⟩) rfl rfl rfl rfl
  rw [wp_bind, wp_tx]
  refine ⟨⟨h.unreleased, h.reserved, kind, h.item⟩, fun capacity => ?_, fun e => h.undone.next rfl⟩
  cases capacity with
  | deferred limit => exact h.undone.over rfl
  | reserved =>
    replace h := h.granted trigger now
    dsimp only
    rw [wp_bind]
    refine call_ok h (fun t ht _ => ?_) fun c t answer ht _ _ _ _ => ?_
    · exact
        { acts := hacts
          unreleased := ht.unreleased
          request := ⟨id, kind, request, ht.item, ht.request, hactive,
            fun _ => by simp [hkind, for_driver, Kind.worker_result?], by simp, by simp [hkind]⟩
          reserved := by simp [ht.reserved]
          order := ht.calls
          repair := ⟨rfl, rfl⟩ }
    split
    · rw [wp_bind, wp_clock]
      intro now
      exact settle_ok (ht.next rfl rfl rfl rfl)
    rw [wp_bind, wp_clock]
    intro now
    replace ht := ht.next (e := ⟨.now, now⟩) rfl rfl rfl rfl
    rw [wp_bind, wp_tx]
    refine ⟨trivial, fun reads => ?_, fun e => ht.undone.next rfl⟩
    generalize hread : (⟨.tx (.debrief_reads _ _), .ok reads⟩ : Event Query Answer) = read
    replace ht := ht.next (e := read) (hread ▸ rfl) (hread ▸ rfl) (hread ▸ rfl) (hread ▸ rfl)
    rw [wp_ite]
    have hlast : (t ++ [⟨.now, now⟩] ++ [read] : Trace).getLast? = some _ :=
      List.getLast?_concat.trans (congrArg some hread.symm)
    refine ⟨fun _ => debrief_write_ok ht hlast fun hwrite => absurd rfl hwrite, fun hcurrent => ?_⟩
    rw [not_or] at hcurrent
    have hdue : reads.due = true := by simpa using hcurrent.1
    split
    · cases request.session.channel with
      | none => exact ht.undone
      | some channel =>
        cases request.debrief.after with
        | none => exact ht.undone
        | some after => exact debrief_write_ok ht hlast fun _ => hdue
    · exact debrief_write_ok ht hlast fun _ => hdue

theorem progress_ok (h : Turning l id kind request external [] reserved) :
    Ended id kind (progress id request) l o a := by
  unfold progress Ended
  split
  swap
  · exact h.undone
  split
  swap
  · exact h.undone
  split
  swap
  · exact h.undone
  dsimp only
  rw [wp_bind, wp_clock]
  intro now
  replace h := h.next (e := ⟨.now, now⟩) rfl rfl rfl rfl
  rw [wp_bind, wp_tx]
  refine ⟨trivial, fun reads => ?_, fun e => h.undone.next rfl⟩
  rw [wp_ite]
  refine ⟨fun hgone => h.undone.gone rfl hgone, fun hthere => ?_⟩
  have hthere : reads.processing = true := by simpa using hthere
  generalize hread : (⟨.tx (.progress_reads _ _ _), .ok reads⟩ : Event Query Answer) = read
  replace h := h.next (e := read) (hread ▸ rfl) (hread ▸ rfl) (hread ▸ rfl) (hread ▸ rfl)
  split <;> rw [wp_bind, wp_tx]
  all_goals
    exact ⟨⟨h.unreleased, h.calls, id, kind, request, reads, h.item, h.request, hthere,
      List.getLast?_concat.trans (congrArg some hread.symm)⟩,
      fun u => h.undone.over rfl, fun e => h.undone.next rfl⟩

/-! ## The turn -/

theorem reply_ok {session : String} (hacting : Acting a kind request external)
    (h : Turning l id kind request external [] false) :
    Ended id kind (reply o a id kind session external request) l o a := by
  unfold reply Ended
  rw [wp_bind]
  refine wp_mono (enter_ok hacting h) (fun admitted t ht => ?_) fun _ _ he => he
  cases admitted with
  | inl step => exact ht
  | inr admitted =>
    obtain ⟨asked, ht, hbefore, hresult, hkept⟩ := ht
    exact respond_ok hacting hbefore hresult hkept ht

theorem attend_ok {session : String} (hacting : Acting a kind request external)
    (h : Turning l id kind request external [] false) :
    Ended id kind (attend o a id kind session external request) l o a := by
  unfold attend Ended
  dsimp only
  rw [wp_ite]
  refine ⟨fun _ => ?_, fun _ => reply_ok hacting h⟩
  rw [wp_bind, wp_clock]
  intro now
  replace h := h.next (e := ⟨.now, now⟩) rfl rfl rfl rfl
  rw [wp_ite]
  refine ⟨fun _ => settle_ok h, fun _ => ?_⟩
  rw [wp_ite]
  refine ⟨fun _ => ?_, fun _ => reply_ok hacting h⟩
  rw [wp_bind, wp_clock]
  intro now
  exact settle_ok (h.next rfl rfl rfl rfl)

/-- Nothing of the turn has happened yet, but perhaps the claim of its item. -/
structure Fresh (l : Trace) : Prop where
  request : l.request = none
  external : l.external = false
  asked : l.asked = []
  reserved : l.reserved = false
  unreleased : l.released = 0

theorem Fresh.next (h : Fresh l) {e : Event Query Answer} (hloaded : loaded e = none)
    (hreleases : releases e = false) (hdriven : driven e = false) (hanswered : answered e = none)
    (hgranted : granted e = false) : Fresh (l ++ [e]) where
  request := by
    have hrequest := h.request
    unfold Trace.request at hrequest ⊢
    simp [hrequest, hloaded]
  external := by rw [external_append, h.external, hdriven, Bool.or_false]
  asked := by rw [asked_append, h.asked, hanswered, Option.toList_none, List.append_nil]
  reserved := by rw [reserved_append, h.reserved, hgranted, Bool.or_false]
  unreleased := by rw [released_append, h.unreleased, hreleases]; rfl

theorem Fresh.load (h : Fresh l) (hitem : l.item = some (id, kind)) (request : Loaded) :
    Turning (l ++ [⟨.tx (.load id), .ok request⟩]) id kind request false [] false where
  item := item_append hitem
  request := by
    have hrequest := h.request
    unfold Trace.request at hrequest ⊢
    rw [List.findSome?_append, hrequest]
    rfl
  external := external_append.trans (by rw [h.external]; rfl)
  asked := asked_append.trans (by rw [h.asked]; rfl)
  reserved := reserved_append.trans (by rw [h.reserved]; rfl)
  unreleased := released_append.trans (by rw [h.unreleased]; rfl)

theorem Turning.drive (h : Turning l id kind request false asked reserved) (driver : String) :
    Turning (l ++ [⟨.tx .thread_driver, .ok driver⟩]) id kind request (driver = "external") asked
      reserved where
  item := item_append h.item
  request := request_append h.request
  external := external_append.trans (by rw [h.external]; rfl)
  asked := asked_append.trans (by rw [h.asked]; exact List.append_nil _)
  reserved := reserved_append.trans (by rw [h.reserved]; exact Bool.or_false _)
  unreleased := released_append.trans (by rw [h.unreleased]; rfl)

theorem handle_ok {session : String} (hitem : l.item = some (id, kind)) (hfresh : Fresh l) :
    Ended id kind (handle o a id kind session) l o a := by
  unfold handle Ended
  rw [wp_bind, wp_tx]
  refine ⟨trivial, fun request => ?_, fun e => Undone.next ⟨hitem, hfresh.unreleased⟩ rfl⟩
  have h := hfresh.load hitem request
  dsimp only
  rw [wp_ite]
  refine ⟨fun _ => ?_, fun _ => ?_⟩
  · rw [wp_bind]
    exact h.undone
  rw [wp_bind, wp_tx]
  refine ⟨trivial, fun driver => ?_, fun e => h.undone.next rfl⟩
  replace h := h.drive driver
  rw [wp_ite]
  refine ⟨fun _ => ?_, fun hactive => ?_⟩
  · rw [wp_ite]
    refine ⟨fun _ => ?_, fun _ => settle_ok h⟩
    rw [wp_bind, wp_clock]
    intro now
    exact settle_ok (h.next rfl rfl rfl rfl)
  have hacts : a.observe_only = false := by simp at hactive; exact hactive.1
  have hcontrol : request.control = some "active" := by simp at hactive; exact hactive.2
  rw [wp_ite]
  refine ⟨fun hkind => debrief_ok hacts hcontrol hkind h, fun hreplies => ?_⟩
  rw [wp_ite]
  refine ⟨fun _ => progress_ok h, fun _ => ?_⟩
  rw [wp_ite]
  refine ⟨fun hexternal => ?_, fun hdriver => ?_⟩
  · exact settle_external_ok (decide_eq_true hexternal.1 ▸ h)
  have hacting : Acting a kind request (driver = "external") :=
    { acts := hacts
      active := hcontrol
      driver := fun hext => by simpa [of_decide_eq_true hext] using hdriver
      replies := hreplies }
  rw [wp_ite]
  refine ⟨fun _ => settle_ok h, fun _ => ?_⟩
  rw [wp_ite]
  refine ⟨fun _ => ?_, fun _ => attend_ok hacting h⟩
  rw [wp_bind, wp_clock]
  intro now
  rw [wp_bind]
  exact settle_ok (h.next rfl rfl rfl rfl)

theorem failed_ok (h : Undone l id kind) : wp (rules o a) (failed id) (fun _ t => Over t id kind)
    (fun _ t => Undone t id kind) l := by
  unfold failed
  rw [wp_bind, wp_clock]
  intro now
  replace h := h.next (e := ⟨.now, now⟩) rfl
  rw [wp_bind, wp_tx]
  refine ⟨trivial, ?_, fun e => h.next rfl⟩
  rintro ⟨attempts, state⟩
  rw [wp_ite]
  refine ⟨fun hstate => h.gone rfl (decide_eq_true hstate), fun hstate => ?_⟩
  obtain rfl := not_not.mp hstate
  replace h := h.next (e := ⟨.tx (.inbox_attempts id), .ok (attempts, "processing")⟩) rfl
  rw [wp_bind, wp_tx]
  exact ⟨⟨h.2, attempts, kind, h.1, List.getLast?_concat, rfl⟩, fun u => h.over rfl,
    fun e => h.next rfl⟩

/-- How a step leaves its item. -/
def Finished (l : Trace) : Prop :=
  l.item = none ∧ l.released = 0 ∨ ∃ id kind, Over l id kind

theorem next_turn_ok {session : String} (hitem : l.item = none) (hfresh : Fresh l) :
    wp (rules o a) (next_turn o a session) (fun _ => Finished) (fun _ t => t.released = 0) l := by
  unfold next_turn
  rw [wp_bind, wp_clock]
  intro now
  have hnow : Trace.item (l ++ [⟨.now, now⟩]) = none := item_claim hitem
  replace hfresh := hfresh.next (e := ⟨.now, now⟩) rfl rfl rfl rfl rfl
  rw [wp_bind, wp_tx]
  refine ⟨trivial, fun claim => ?_, fun e => (hfresh.next rfl rfl rfl rfl rfl).unreleased⟩
  have hclaimed := item_claim hnow (e := ⟨.tx (.claim_due now), .ok claim⟩)
  replace hfresh := hfresh.next (e := ⟨.tx (.claim_due now), .ok claim⟩) rfl rfl rfl rfl rfl
  cases claim with
  | none => exact .inl ⟨hclaimed, hfresh.unreleased⟩
  | some claim =>
    obtain ⟨id, kind⟩ := claim
    dsimp only
    rw [wp_bind, wp_attempt]
    refine wp_mono (handle_ok hclaimed hfresh) (fun step t ht => .inr ⟨id, kind, ht⟩)
      fun e t ht => wp_mono (failed_ok ht) (fun step t ht => .inr ⟨id, kind, ht⟩)
        fun e t ht => ht.2

theorem step_ok {session : String} : wp (rules o a) (step o a session)
    (fun _ => Finished) (fun _ t => t.released = 0) [] := by
  unfold step
  have hfresh : Fresh [] := ⟨rfl, rfl, rfl, rfl, rfl⟩
  dsimp only
  rw [wp_ite]
  refine ⟨fun _ => ?_, fun _ => next_turn_ok rfl hfresh⟩
  rw [wp_bind, wp_tx]
  refine ⟨trivial, fun pending => ?_, fun e => rfl⟩
  rw [wp_ite]
  refine ⟨fun _ => .inl ⟨rfl, rfl⟩, fun _ => ?_⟩
  exact next_turn_ok rfl (hfresh.next rfl rfl rfl rfl rfl)

end Functions

end Fridica.Threads.Turns
