import Fridica.Threads.Validate.Spec
import Mathlib.Data.List.Nodup

/-!
# What a valid decision may do

The checks that a decision passes are one after the other, over one set of addressed obligations.
-/

open Fridica.Checked Fridica.Text

namespace Fridica.Threads

/-! ## The claim on a decision -/

/-- An obligation that still needs an answer. -/
def Obligation.Owed (o : Obligation) : Prop :=
  o.state = some "open" ∨ o.state = some "deferred" ∨
    o.state = some "awaiting_delivery" ∧
      ∃ deliveries, o.deliveries = some deliveries ∧ deliveries ≠ [] ∧
        ∀ delivery ∈ deliveries, delivery = some "failed"

/-- The obligations that a decision addresses: in its reply, its dispositions and its hand-offs. -/
def Decision.addresses (d : Decision) : List String :=
  (d.reply.toList.flatMap Reply.answers ++ d.dispositions.map Disposition.id) ++
    d.handoffs.flatMap Handoff.answers

/-- What a decision from the answer `raw` keeps to. -/
structure Lawful (whitespace : Char → Bool) (raw : Decision) (request : ParentRequest) (now : ℚ)
    (d : Decision) : Prop where
  distinct : d.addresses.Nodup
  owed : ∀ id ∈ d.addresses, ∃ o ∈ request.obligations, o.id = some id ∧ o.Owed
  unsent : ∀ r, raw.reply = some r → (normalize whitespace r).send = false →
    r.answers = [] ∧ d.reply = none
  blocked : ∀ r, d.reply = some r → r.status = .blocked → r.answers = []
  reopened : ∀ r, d.reply = some r → r.status ≠ .blocked →
    request.session.status = some "blocked" → d.reopen_blocked ∧
      (raw.reopen_blocked ∨ request.session.parent_review_required ∧ hold_clears request d)
  few : d.handoffs.length ≤ 3
  targets : (d.handoffs.map Handoff.thread).Nodup
  active : ∀ h ∈ d.handoffs, ∃ t ∈ request.session.linked_threads,
    t.thread = some h.thread ∧ t.control = some "active"
  forward : ∀ h ∈ d.handoffs, came_from request ≠ some h.thread
  future : ∀ id reason limit, .deferred id reason limit ∈ d.dispositions → now < limit
  kept : ∀ r, d.reply = some r → (r.text ≠ "" ∨ r.details ≠ "") ∧
    r.text.length ≤ 40000 ∧ r.details.length ≤ 40000

/-! ## Obligations -/

theorem mem_known_obligations {request : ParentRequest} {id : String} :
    id ∈ known_obligations request ↔ ∃ o ∈ request.obligations, o.id = some id ∧ o.Owed := by
  have howed : ∀ o : Obligation, (o.state = some "open" ∨ o.state = some "deferred" ∨
      (o.state = some "awaiting_delivery" ∧
        o.deliveries.any fun d => !d.isEmpty && d.all fun p => p = some "failed")) ↔ o.Owed := by
    intro o
    unfold Obligation.Owed
    simp [Option.any_eq_true]
  unfold known_obligations
  simp only [List.mem_filterMap, List.mem_filter, decide_eq_true_eq, howed]
  constructor
  · rintro ⟨o, ⟨ho, hstate⟩, hid⟩
    exact ⟨o, ho, hid, hstate⟩
  · rintro ⟨o, ho, hid, hstate⟩
    exact ⟨o, ⟨ho, hstate⟩, hid⟩

/-- From `acc` to `acc'`, the loops took `ids` of the known ones, each of them once. -/
structure Takes (known acc ids acc' : List String) : Prop where
  taken : acc' = ids.reverse ++ acc
  known : ∀ id ∈ ids, id ∈ known
  distinct : acc.Nodup → acc'.Nodup

theorem Takes.nil (known acc : List String) : Takes known acc [] acc :=
  ⟨rfl, by simp, id⟩

theorem Takes.append {known : List String} (s t u k m : List String) (h : Takes known s k t)
    (h' : Takes known t m u) : Takes known s (k ++ m) u where
  taken := by rw [h'.taken, h.taken, List.reverse_append, List.append_assoc]
  known id hid := (List.mem_append.mp hid).elim (h.known id) (h'.known id)
  distinct hs := h'.distinct (h.distinct hs)

theorem Takes.nodup {known ids acc : List String} (h : Takes known [] ids acc) : ids.Nodup := by
  have hdistinct := h.distinct List.nodup_nil
  rwa [h.taken, List.append_nil, List.nodup_reverse] at hdistinct

theorem address_takes {known acc acc' : List String} {error id : String}
    (h : address known error acc id = .ok acc') : Takes known acc [id] acc' := by
  simp only [address, bind_ok, refuse_ok, pure_ok, not_or, not_not] at h
  obtain ⟨-, ⟨hknown, hnew⟩, rfl⟩ := h
  constructor
  · rfl
  · rintro i (_ | ⟨_, hi⟩)
    · exact hknown
    · cases hi
  · exact fun hacc => List.nodup_cons.mpr ⟨hnew, hacc⟩

theorem addresses_takes {known acc acc' ids : List String} {error : String}
    (h : ids.foldlM (address known error) acc = .ok acc') : Takes known acc ids acc' := by
  have htakes := foldlM_collects (fun id : String => [id]) (Takes.nil known) Takes.append
    (fun a x b => address_takes) h
  rwa [List.flatMap_singleton'] at htakes

/-! ## The parts of a decision -/

theorem validate_effects_ok {d e : Decision} (h : validate_effects d = .ok e) :
    e.reply = d.reply ∧ e.reopen_blocked = d.reopen_blocked := by
  simp only [validate_effects, bind_ok, pure_ok] at h
  obtain ⟨-, -, -, -, -, -, -, -, -, -, -, -, -, -, -, -, -, -, -, -, -, -, rfl⟩ := h
  exact ⟨rfl, rfl⟩

@[simp] theorem reopen_reply (request : ParentRequest) (d : Decision) :
    (reopen request d).reply = d.reply := by
  unfold reopen
  split <;> rfl

theorem hold_clears_congr {request : ParentRequest} {d e : Decision} (h : d.reply = e.reply) :
    hold_clears request d = hold_clears request e := by
  unfold hold_clears
  rw [h]

theorem reopen_blocked {request : ParentRequest} {d : Decision}
    (h : (reopen request d).reopen_blocked) : d.reopen_blocked ∨
      request.session.parent_review_required ∧ hold_clears request d := by
  unfold reopen at h
  split at h
  next hclears =>
    refine .inr ⟨?_, hclears.1⟩
    have hclears := hclears.1
    unfold hold_clears at hclears
    exact (Bool.and_eq_true_iff.mp hclears).1
  next => exact .inl h

theorem drop_unsent_ok {reply kept : Option Reply} (h : drop_unsent reply = .ok kept) :
    (∀ r, kept = some r → reply = some r ∧ r.send) ∧
      ∀ r, reply = some r → r.send = false → r.answers = [] ∧ kept = none := by
  cases reply with
  | none =>
    rw [drop_unsent, pure_ok] at h
    subst h
    constructor <;> intro r hr <;> cases hr
  | some r =>
    unfold drop_unsent at h
    dsimp only at h
    split at h
    next hsend =>
      rw [pure_ok] at h
      subst h
      refine ⟨?_, ?_⟩
      · rintro _ ⟨⟩
        exact ⟨rfl, hsend⟩
      · rintro _ ⟨⟩ hunsent
        rw [hsend] at hunsent
        cases hunsent
    next hunsent =>
      simp only [bind_ok, refuse_ok, not_not, pure_ok] at h
      obtain ⟨-, hanswers, rfl⟩ := h
      constructor
      · intro r hr
        cases hr
      · rintro _ ⟨⟩ -
        exact ⟨hanswers, rfl⟩

@[simp] theorem normalize_answers (whitespace : Char → Bool) (r : Reply) :
    (normalize whitespace r).answers = r.answers := by
  unfold normalize
  rfl

@[simp] theorem normalize_status (whitespace : Char → Bool) (r : Reply) :
    (normalize whitespace r).status = r.status := by
  unfold normalize
  rfl

theorem normalize_send {whitespace : Char → Bool} {r : Reply}
    (h : (normalize whitespace r).send) :
    (normalize whitespace r).text ≠ "" ∨ (normalize whitespace r).details ≠ "" := by
  unfold normalize at h ⊢
  dsimp only at h ⊢
  split at h
  next => cases h
  next hsome => exact not_and_or.mp hsome

theorem validate_reply_ok {request : ParentRequest} {d : Decision} {known acc : List String}
    (h : validate_reply request d known = .ok acc) :
    Takes known [] (d.reply.toList.flatMap Reply.answers) acc ∧
      ∀ r, d.reply = some r → (r.status = .blocked → r.answers = []) ∧
        (r.status ≠ .blocked → request.session.status = some "blocked" → d.reopen_blocked) ∧
        r.text.length ≤ 40000 ∧ r.details.length ≤ 40000 := by
  unfold validate_reply at h
  cases hreply : d.reply with
  | none =>
    simp only [hreply, pure_ok] at h
    subst h
    refine ⟨Takes.nil _ _, ?_⟩
    intro r hr
    cases hr
  | some r =>
    simp only [hreply, bind_ok, refuse_ok] at h
    obtain ⟨-, hopen, -, hbounds, -, hblocked, hloop⟩ := h
    constructor
    · have htakes := addresses_takes hloop
      rwa [Option.toList_some, List.flatMap_singleton]
    · rintro _ ⟨⟩
      refine ⟨?_, ?_, ?_⟩
      · intro hstatus
        by_contra hanswers
        exact hblocked ⟨.inl hstatus, hanswers⟩
      · intro hstatus hthread
        by_contra hclosed
        exact hopen ⟨hthread, by simpa using hclosed, hstatus⟩
      · rw [not_or, not_lt, not_lt] at hbounds
        exact hbounds

theorem validate_disposition_ok {known acc acc' : List String} {now : ℚ} {x : Disposition}
    (h : validate_disposition known now acc x = .ok acc') :
    Takes known acc [x.id] acc' ∧ ∀ id reason limit, x = .deferred id reason limit → now < limit := by
  simp only [validate_disposition, bind_ok] at h
  obtain ⟨acc'', haddress, h⟩ := h
  have htakes := address_takes haddress
  cases x with
  | declined id reason =>
    simp only [bind_ok, pure_ok] at h
    obtain ⟨-, -, rfl⟩ := h
    refine ⟨htakes, ?_⟩
    intro _ _ _ hx
    cases hx
  | deferred id reason limit =>
    dsimp only at h
    split at h
    · cases h
    · simp only [bind_ok, refuse_ok, pure_ok, not_le] at h
      obtain ⟨-, hfuture, rfl⟩ := h
      refine ⟨htakes, ?_⟩
      rintro _ _ _ ⟨⟩
      exact hfuture

theorem validate_handoff_ok {request : ParentRequest} {known : List String} {a b : Handed}
    {x : Handoff} (h : validate_handoff request known a x = .ok b) :
    Takes known a.addressed x.answers b.addressed ∧
      Takes (linked request) a.targets [x.thread] b.targets ∧
        came_from request ≠ some x.thread := by
  simp only [validate_handoff, bind_ok, refuse_ok, pure_ok, not_or, not_not] at h
  obtain ⟨-, ⟨hlinked, hnew⟩, -, hback, -, -, -, -, addressed, hloop, rfl⟩ := h
  refine ⟨addresses_takes hloop, ⟨rfl, ?_, ?_⟩, hback⟩
  · rintro t (_ | ⟨_, ht⟩)
    · exact hlinked
    · cases ht
  · exact fun ha => List.nodup_cons.mpr ⟨hnew, ha⟩

theorem validate_handoffs_takes {request : ParentRequest} {handoffs : List Handoff}
    {known addressed : List String} {handed : Handed}
    (h : validate_handoffs request handoffs known addressed = .ok handed) :
    (handoffs.length ≤ 3 ∧ (handoffs ≠ [] → handoff_hop request < MAX_HANDOFF_HOPS)) ∧
      Takes known addressed (handoffs.flatMap Handoff.answers) handed.addressed ∧
        Takes (linked request) [] (handoffs.map Handoff.thread) handed.targets ∧
          ∀ x ∈ handoffs, came_from request ≠ some x.thread := by
  simp only [validate_handoffs, bind_ok, refuse_ok, not_lt] at h
  obtain ⟨-, hfew, -, hhop, hloop⟩ := h
  refine ⟨⟨hfew, fun hne => not_le.mp fun hge => hhop ⟨hne, hge⟩⟩, ?_, ?_, ?_⟩
  · exact foldlM_collects (R := fun a ids b => Takes known a.addressed ids b.addressed)
      Handoff.answers (fun _ => Takes.nil _ _) (fun _ _ _ _ _ => Takes.append _ _ _ _ _)
      (fun _ _ _ hx => (validate_handoff_ok hx).1) hloop
  · rw [List.map_eq_flatMap]
    exact foldlM_collects (R := fun a ids b => Takes (linked request) a.targets ids b.targets)
      (fun x => [x.thread]) (fun _ => Takes.nil _ _) (fun _ _ _ _ _ => Takes.append _ _ _ _ _)
      (fun _ _ _ hx => (validate_handoff_ok hx).2.1) hloop
  · intro x hx
    obtain ⟨a, b, hcheck⟩ := foldlM_ok hloop x hx
    exact (validate_handoff_ok hcheck).2.2

/-! ## The whole decision -/

/-- **Whatever the parent answered, a decision that is valid is lawful.** -/
theorem validate_lawful {whitespace : Char → Bool} {raw : Option Decision}
    {request : ParentRequest} {now : ℚ} {d : Decision}
    (h : validate whitespace raw request now = .ok d) :
    ∃ answer, raw = some answer ∧ Lawful whitespace answer request now d := by
  cases raw with
  | none => cases h
  | some answer =>
    refine ⟨answer, rfl, ?_⟩
    simp only [validate, bind_ok, pure_ok] at h
    obtain ⟨e, he, reply, hdrop, acc, hreply, acc', hdispositions, -, -, handed, hhandoffs, hd⟩ := h
    obtain ⟨hereply, hereopen⟩ := validate_effects_ok he
    rw [hereply] at hdrop
    rw [hd] at hreply hdispositions hhandoffs
    have hkeeps : d.reply = reply := by rw [← hd, reopen_reply]
    obtain ⟨hkept, hunsent⟩ := drop_unsent_ok hdrop
    obtain ⟨hanswers, hallowed⟩ := validate_reply_ok hreply
    obtain ⟨⟨hfew, -⟩, hgiven, htargets, hforward⟩ := validate_handoffs_takes hhandoffs
    have hdisposed : Takes (known_obligations request) acc (d.dispositions.map Disposition.id)
        acc' := by
      rw [List.map_eq_flatMap]
      exact foldlM_collects (fun x : Disposition => [x.id]) (Takes.nil _) Takes.append
        (fun _ _ _ hx => (validate_disposition_ok hx).1) hdispositions
    have htakes := (hanswers.append _ _ _ _ _ hdisposed).append _ _ _ _ _ hgiven
    constructor
    · exact htakes.nodup
    · exact fun id hid => mem_known_obligations.mp (htakes.known id hid)
    · intro r hr hsend
      rw [hr, Option.map_some] at hunsent
      rw [hkeeps, ← normalize_answers whitespace r]
      exact hunsent _ rfl hsend
    · exact fun r hr => (hallowed r hr).1
    · intro r hr hstatus hthread
      have hreopened := (hallowed r hr).2.1 hstatus hthread
      refine ⟨hreopened, ?_⟩
      rw [← hd] at hreopened
      rcases reopen_blocked hreopened with hexplicit | ⟨hreview, hclears⟩
      · exact .inl (hereopen ▸ hexplicit)
      · exact .inr ⟨hreview, (hold_clears_congr hkeeps).trans hclears⟩
    · exact hfew
    · exact htargets.nodup
    · intro x hx
      have hlinked := htargets.known x.thread (List.mem_map_of_mem hx)
      obtain ⟨t, ht, hthread⟩ := List.mem_filterMap.mp hlinked
      obtain ⟨ht, hactive⟩ := List.mem_filter.mp ht
      exact ⟨t, ht, hthread, of_decide_eq_true hactive⟩
    · exact hforward
    · intro id reason limit hmem
      obtain ⟨a, b, hcheck⟩ := foldlM_ok hdispositions _ hmem
      exact (validate_disposition_ok hcheck).2 id reason limit rfl
    · intro r hr
      obtain ⟨-, -, hlengths⟩ := hallowed r hr
      refine ⟨?_, hlengths⟩
      rw [hkeeps] at hr
      obtain ⟨hnormal, hsend⟩ := hkept r hr
      obtain ⟨r', -, rfl⟩ := Option.map_eq_some_iff.mp hnormal
      exact normalize_send hsend

/-- A thread that a failed parent call left blocked, with one linked thread. -/
def held_request : ParentRequest where
  inbox_id := 1
  session :=
    { id := some "T:C:1.0", workspace := some "T", channel := some "C", root_ts := some "1.0"
      status := some "blocked", version := some 1, parent_review_required := true
      linked_threads := [⟨some "2.0", some "active"⟩]
      notes_revision := none, wait_streak := none, no_progress := none, last_reply_hash := none }
  trigger := ⟨.message, "m", .empty, none, none, none, none⟩
  history := []
  obligations := [⟨some "answered", some "open", none⟩, ⟨some "put off", some "deferred", none⟩,
    ⟨some "handed on", some "awaiting_delivery", some [some "failed"]⟩]

def held_answer : Decision :=
  { Decision.empty with
    reply := some ⟨" Done ", "", .complete, ["answered"], .ongoing, true⟩
    dispositions := [.deferred "put off" "Later" 5]
    handoffs := [⟨"2.0", .post, "Please post", ["handed on"]⟩] }

theorem validate_lawful_held : ∃ d answer, some held_answer = some answer ∧
    Lawful whitespace answer held_request 4 d := by
  have hvalid : (validate whitespace (some held_answer) held_request 4).toOption.isSome := by
    decide +kernel
  cases h : validate whitespace (some held_answer) held_request 4 with
  | error e =>
    rw [h] at hvalid
    cases hvalid
  | ok d => exact ⟨d, validate_lawful h⟩

end Fridica.Threads
