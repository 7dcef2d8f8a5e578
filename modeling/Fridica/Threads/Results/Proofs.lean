import Fridica.Threads.Results.Spec
import Mathlib.Data.List.Nodup
import Mathlib.Data.List.Perm.Subperm

/-! # The class of a worker result -/

open Fridica.Attention (Trigger)

namespace Fridica.Threads.Results

/-! ## The walk ends -/

theorem walk_isSome {u : Queries} {ids : List Int}
    (hids : ∀ id, (u.inbox_entry id).isSome → id ∈ ids) (fuel : Nat) (visited : List Int)
    (start : Option Int) (hnodup : visited.Nodup) (hsub : visited ⊆ ids)
    (hfuel : ids.length < visited.length + fuel) : (walk u fuel visited start).isSome := by
  induction fuel generalizing visited start with
  | zero =>
    -- More ids were visited than there are rows.
    have hle := (List.Nodup.subperm hnodup hsub).length_le
    omega
  | succ fuel ih =>
    cases start with
    | none => rfl
    | some id =>
      unfold walk
      split
      · rfl
      · rename_i hnew
        cases hentry : u.inbox_entry id with
        | none => rfl
        | some entry =>
          have hmem : id ∈ ids := hids id (by rw [hentry]; rfl)
          simp only
          split
          · rfl
          · split
            · split <;> rfl
            · split
              · rfl
              · refine ih _ _ (List.nodup_cons.mpr ⟨hnew, hnodup⟩) ?_ ?_
                · exact List.cons_subset.mpr ⟨hmem, hsub⟩
                · rw [List.length_cons]
                  omega

theorem load_isSome {u : Queries} (hu : u.Finite) (reference : String) :
    (load u reference).isSome := by
  obtain ⟨ids, hlen, hids⟩ := hu
  unfold load
  cases u.job_group reference with
  | none => rfl
  | some group =>
    rw [Option.isSome_map]
    apply walk_isSome hids
    · exact List.nodup_nil
    · exact List.nil_subset ids
    · rw [List.length_nil]
      omega

/-! ## What holds in every history -/

/-- The group and the inbox item of a job. -/
def State.job (s : State) (r : String) : Option (String × Int) :=
  (s.jobs.find? fun j => j.id = r).map fun j => (j.group, j.inbox_id)

/-- The trigger of an item that is no worker result. -/
def own_trigger (s : State) (item : Item) : TurnTrigger :=
  ⟨item.entry.kind, item.entry.reference, item.entry.payload,
    if item.entry.kind = .message then s.messages item.entry.reference else none,
    item.from_peer, none, item.refused_event⟩

/-- The walk stops at this item with a class. -/
def known (s : State) (id : Int) : Bool :=
  (s.inbox id).any fun item => item.entry.kind = .message ∨ item.entry.kind = .owner_instruction

/-- The class that the walk from a delegation finds. -/
def seen_class (s : State) (d : Delegation) : Trigger :=
  if known s d.first then d.first_class else .human

/-- How a delegation goes back to its first turn. -/
def Linked (s : State) (d : Delegation) (item : Item) : Prop :=
  if item.entry.kind.worker_result? then
    ∃ d' ∈ s.delegations, s.job item.entry.reference = some (d'.group, d'.inbox) ∧
      d.first = d'.first ∧ d.first_class = d'.first_class ∧ d.class_ = seen_class s d
  else d.first = d.inbox ∧ d.first_class = d.class_ ∧ d.class_ = reply_class (own_trigger s item)

structure Inv (s : State) : Prop where
  pos : 0 < s.next
  ids : ∀ id item, s.inbox id = some item → 0 < id ∧ id < s.next
  owner : ∀ id item, s.inbox id = some item → item.entry.payload.owner_trigger →
    item.entry.kind = .message
  messages : ∀ id item, s.inbox id = some item → item.entry.kind = .message →
    (s.messages item.entry.reference).isSome
  jobs : ∀ j ∈ s.jobs, ∃ d ∈ s.delegations, d.group = j.group ∧ d.inbox = j.inbox_id
  groups : ∀ d ∈ s.delegations, ∀ d' ∈ s.delegations, d.group = d'.group → d = d'
  results : ∀ id item, s.inbox id = some item → item.entry.kind.worker_result? →
    ∃ g i, s.job item.entry.reference = some (g, i) ∧ i < id
  linked : ∀ d ∈ s.delegations, ∃ item, s.inbox d.inbox = some item ∧
    item.entry.kind.supported ∧ Linked s d item ∧ ∃ d' ∈ s.delegations, d.first = d'.inbox

theorem State.job_eq_some {s : State} {r : String} {x : String × Int} (h : s.job r = some x) :
    ∃ j ∈ s.jobs, j.id = r ∧ (j.group, j.inbox_id) = x := by
  unfold State.job at h
  rw [Option.map_eq_some_iff] at h
  obtain ⟨j, hj, rfl⟩ := h
  exact ⟨j, List.mem_of_find?_eq_some hj, by simpa using List.find?_some hj, rfl⟩

theorem State.job_of_mem {s : State} {j : Job} (h : j ∈ s.jobs) :
    ∃ k ∈ s.jobs, k.id = j.id ∧ s.job j.id = some (k.group, k.inbox_id) := by
  have hsome : (s.jobs.find? fun k => k.id = j.id).isSome := by
    rw [List.find?_isSome]
    exact ⟨j, h, by simp⟩
  obtain ⟨k, hk⟩ := Option.isSome_iff_exists.mp hsome
  refine ⟨k, List.mem_of_find?_eq_some hk, by simpa using List.find?_some hk, ?_⟩
  rw [State.job, hk, Option.map_some]

theorem Inv.delegation_of_job {s : State} (h : Inv s) {r : String} {g : String} {i : Int}
    (hjob : s.job r = some (g, i)) : ∃ d ∈ s.delegations, d.group = g ∧ d.inbox = i := by
  obtain ⟨j, hj, -, heq⟩ := State.job_eq_some hjob
  obtain ⟨rfl, rfl⟩ := Prod.mk.inj heq
  exact h.jobs j hj

/-! ## What the walk finds -/

theorem known_iff {s : State} {id : Int} {item : Item} (h : s.inbox id = some item) :
    known s id = true ↔
      item.entry.kind = .message ∨ item.entry.kind = .owner_instruction := by
  simp [known, h]

/-- The walk from a delegation finds the class of its first turn, if it can tell it. -/
theorem walk_delegation {view : State → Queries} (hview : Contract view) {s : State} (hs : Inv s)
    (fuel : Nat) (visited : List Int) {d : Delegation} (hd : d ∈ s.delegations)
    (hvisited : ∀ v ∈ visited, d.inbox < v) {origin : Origin}
    (hwalk : walk (view s) fuel visited (some d.inbox) = some origin) :
    origin.class_.getD .human = seen_class s d := by
  induction fuel generalizing visited d with
  | zero => simp [walk] at hwalk
  | succ fuel ih =>
    obtain ⟨item, hitem, hsupported, hlinked, -⟩ := hs.linked d hd
    have hnew : d.inbox ∉ visited := fun hmem => lt_irrefl _ (hvisited _ hmem)
    have hentry : (view s).inbox_entry d.inbox = some item.entry := by
      rw [hview.inbox_entry, hitem, Option.map_some]
    unfold walk at hwalk
    simp only [hnew, if_false, hentry] at hwalk
    unfold Linked at hlinked
    by_cases hresult : item.entry.kind.worker_result? = true
    · -- The walk goes on to the turn that delegated this result's job.
      rw [if_pos hresult] at hlinked
      obtain ⟨d', hd', hjob, hfirst, hclass, -⟩ := hlinked
      have hkind : item.entry.kind ≠ .owner_instruction ∧ item.entry.kind ≠ .message := by
        constructor <;> intro hk <;> rw [hk] at hresult <;> simp [Kind.worker_result?] at hresult
      have howner : item.entry.payload.owner_trigger = false := by
        by_contra ho
        exact hkind.2 (hs.owner _ _ hitem (by simpa using ho))
      have hnext : (view s).job_inbox item.entry.reference = some d'.inbox := by
        rw [hview.job_inbox]
        unfold State.job at hjob
        cases hfind : s.jobs.find? fun j => j.id = item.entry.reference with
        | none => simp [hfind] at hjob
        | some j =>
          rw [hfind, Option.map_some, Option.some.injEq] at hjob
          rw [Option.map_some, ← (Prod.mk.inj hjob).2]
      obtain ⟨g, i, hjob', hlt⟩ := hs.results _ _ hitem hresult
      rw [hjob] at hjob'
      simp only [Option.some.injEq, Prod.mk.injEq] at hjob'
      simp only [hkind.1, hkind.2, howner, hresult, hnext, or_self, not_true_eq_false,
        Bool.false_eq_true, if_false] at hwalk
      have hbelow : ∀ v ∈ d.inbox :: visited, d'.inbox < v := by
        intro v hv
        rcases List.mem_cons.mp hv with rfl | hv
        · omega
        · have := hvisited v hv
          omega
      rw [ih (d.inbox :: visited) hd' hbelow hwalk, seen_class, seen_class, hfirst, hclass]
    · -- The walk ends at the first turn of the chain.
      rw [if_neg hresult] at hlinked
      obtain ⟨hfirst, hclass, hown⟩ := hlinked
      rw [seen_class, hfirst, hclass, hown]
      have hknown := known_iff hitem
      cases hkind : item.entry.kind with
      | message =>
        obtain ⟨m, hm⟩ := Option.isSome_iff_exists.mp (hs.messages _ _ hitem hkind)
        rw [if_pos (hknown.mpr (.inl hkind))]
        simp only [hkind, hview.message_origin, hm, Option.map_some] at hwalk
        by_cases howner : item.entry.payload.owner_trigger = true
        · simp only [howner, or_true, if_true, Option.some.injEq] at hwalk
          simp [← hwalk, reply_class, own_trigger, hkind, howner, Kind.worker_result?]
        · simp only [howner, or_false, reduceCtorEq, if_false, if_true, Option.some.injEq] at hwalk
          simp [← hwalk, reply_class, own_trigger, hkind, howner, Kind.worker_result?, hm]
      | owner_instruction =>
        rw [if_pos (hknown.mpr (.inr hkind))]
        simp only [hkind, true_or, if_true, Option.some.injEq] at hwalk
        simp [← hwalk, reply_class, own_trigger, hkind, Kind.worker_result?]
      | worker_result => simp [hkind, Kind.worker_result?] at hresult
      | worker_interrupted => simp [hkind, Kind.worker_result?] at hresult
      | debrief => simp [hkind, Kind.supported] at hsupported
      | worker_progress => simp [hkind, Kind.supported] at hsupported
      | other name => simp [hkind, Kind.supported] at hsupported
      | obligation_due | handoff | post_refused =>
        have howner : item.entry.payload.owner_trigger = false := by
          by_contra ho
          have := hs.owner _ _ hitem (by simpa using ho)
          simp [hkind] at this
        rw [if_neg (by rw [hknown, hkind]; simp)]
        simp only [hkind, howner, reduceCtorEq, Bool.false_eq_true, or_self, if_false,
          Kind.worker_result?, decide_false, not_false_eq_true, if_true, Option.some.injEq] at hwalk
        rw [← hwalk]
        rfl

/-! ## The turn of a result -/

theorem load_trigger_entry {view : State → Queries} (hview : Contract view) {s : State} {id : Int}
    {item : Item} (hitem : s.inbox id = some item) {trigger : TurnTrigger}
    (h : load_trigger (view s) id = some trigger) : trigger.kind = item.entry.kind ∧
      (item.entry.kind.worker_result? = false → trigger = own_trigger s item) ∧
      (item.entry.kind.worker_result? →
        load (view s) item.entry.reference = trigger.snapshot) := by
  simp only [load_trigger, hview.turn_input, hitem, Option.map_some] at h
  split at h
  · rename_i hresult
    rw [Option.map_eq_some_iff] at h
    obtain ⟨snapshot, hload, rfl⟩ := h
    exact ⟨rfl, fun hne => by simp [hresult] at hne, fun _ => hload⟩
  · rename_i hresult
    cases h
    exact ⟨rfl, fun _ => rfl, fun hr => absurd hr hresult⟩

theorem class_of_result {view : State → Queries} (hview : Contract view) {s : State} (hs : Inv s)
    {id : Int} {item : Item} (hitem : s.inbox id = some item)
    (hresult : item.entry.kind.worker_result?) {d : Delegation} (hd : d ∈ s.delegations)
    (hjob : s.job item.entry.reference = some (d.group, d.inbox)) {trigger : TurnTrigger}
    (htrigger : load_trigger (view s) id = some trigger) (hready : ready trigger) :
    reply_class trigger = seen_class s d := by
  obtain ⟨hkind, -, hload⟩ := load_trigger_entry hview hitem htrigger
  have hload := hload hresult
  rw [← hkind] at hresult
  have hgroup : (view s).job_group item.entry.reference = some d.group := by
    rw [hview.job_group]
    rw [State.job, Option.map_eq_some_iff] at hjob
    obtain ⟨j, hfind, heq⟩ := hjob
    rw [hfind, Option.map_some, (Prod.mk.inj heq).1]
  -- The turn is past the early return, so some row is unreported.
  simp only [ready, hresult, Bool.not_true, Bool.false_or, Bool.and_eq_true, Option.any_eq_true]
    at hready
  obtain ⟨-, snapshot, hsnapshot, hrows⟩ := hready
  simp only [load, hgroup, hsnapshot, Option.map_eq_some_iff] at hload
  obtain ⟨origin, hwalk, rfl⟩ := hload
  simp only [Bool.not_eq_eq_eq_not, Bool.not_true] at hrows
  obtain ⟨row, rest, hcons⟩ : ∃ row rest,
      ((view s).group_results d.group item.entry.reference).filter (fun r => !r.reported) =
        row :: rest := by
    apply List.exists_cons_of_ne_nil
    simpa using hrows.2
  have hrow : row ∈ (view s).group_results d.group item.entry.reference :=
    (List.mem_filter.mp (hcons ▸ List.mem_cons_self)).1
  obtain ⟨j, hj, hg, rfl⟩ := (hview.group_results _ _ _ _).mp hrow
  obtain ⟨d', hd', hg', hinbox⟩ := hs.jobs j hj
  have hsame : d' = d := hs.groups d' hd' d hd (hg'.trans hg)
  subst hsame
  rw [hcons] at hwalk
  simp only [List.head?_cons, Option.bind_some, Job.row, ← hinbox] at hwalk
  rw [reply_class, if_pos hresult, TurnTrigger.origin_class, hsnapshot, Option.bind_some]
  exact walk_delegation hview hs _ [] hd (by simp) hwalk

/-! ## One step -/

/-- What a step leaves as it was. -/
structure Extends (s t : State) : Prop where
  jobs : ∀ r x, s.job r = some x → t.job r = some x
  delegations : s.delegations ⊆ t.delegations
  messages : ∀ r m, s.messages r = some m → t.messages r = some m
  settled : ∀ d ∈ s.delegations, t.inbox d.inbox = s.inbox d.inbox

theorem Extends.known {s t : State} (h : Extends s t) {d : Delegation} (hd : d ∈ s.delegations) :
    known t d.inbox = known s d.inbox := by
  rw [Results.known, Results.known, h.settled d hd]

theorem Extends.linked {s t : State} (h : Extends s t) (hs : Inv s) {d : Delegation}
    (hd : d ∈ s.delegations) : ∃ item, t.inbox d.inbox = some item ∧
      item.entry.kind.supported ∧ Linked t d item ∧ ∃ d' ∈ t.delegations, d.first = d'.inbox := by
  obtain ⟨item, hitem, hsupported, hlinked, d₀, hd₀, hfirst₀⟩ := hs.linked d hd
  refine ⟨item, (h.settled d hd).trans hitem, hsupported, ?_, d₀, h.delegations hd₀, hfirst₀⟩
  unfold Linked at hlinked ⊢
  split at hlinked
  · rename_i hresult
    rw [if_pos hresult]
    obtain ⟨d', hd', hjob, hfirst, hclass, hseen⟩ := hlinked
    refine ⟨d', h.delegations hd', h.jobs _ _ hjob, hfirst, hclass, ?_⟩
    rw [hseen, seen_class, seen_class, hfirst₀, h.known hd₀]
  · rename_i hresult
    rw [if_neg hresult]
    obtain ⟨hfirst, hclass, hown⟩ := hlinked
    refine ⟨hfirst, hclass, hown.trans ?_⟩
    congr 1
    unfold own_trigger
    by_cases hkind : item.entry.kind = .message
    · obtain ⟨m, hm⟩ := Option.isSome_iff_exists.mp (hs.messages _ _ hitem hkind)
      rw [if_pos hkind, if_pos hkind, hm, h.messages _ _ hm]
    · rw [if_neg hkind, if_neg hkind]

theorem job_append {s t : State} {jobs : List Job} (h : t.jobs = s.jobs ++ jobs) {r : String}
    {x : String × Int} (hx : s.job r = some x) : t.job r = some x := by
  rw [State.job, Option.map_eq_some_iff] at hx
  obtain ⟨j, hfind, rfl⟩ := hx
  rw [State.job, h, List.find?_append, hfind]
  rfl

theorem inv_empty : Inv empty where
  pos := by decide
  ids _ _ h := by cases h
  owner _ _ h := by cases h
  messages _ _ h := by cases h
  jobs _ h := by cases h
  groups _ h := by cases h
  results _ _ h := by cases h
  linked _ h := by cases h

theorem inv_arrive {s : State} (hs : Inv s) {id : Int} (hid : s.next ≤ id) {item : Item}
    {messages : String → Option Message}
    (hkept : ∀ r m, s.messages r = some m → messages r = some m)
    (howner : item.entry.payload.owner_trigger → item.entry.kind = .message)
    (hmessage : item.entry.kind = .message → (messages item.entry.reference).isSome)
    (hresult : item.entry.kind.worker_result? → (s.job item.entry.reference).isSome) :
    Inv { s.arrive id item with messages := messages } := by
  have hpos := hs.pos
  have hold : ∀ k, k < s.next → Function.update s.inbox id (some item) k = s.inbox k :=
    fun k hk => Function.update_of_ne (by omega) _ _
  have hext : Extends s { s.arrive id item with messages := messages } :=
    { jobs := fun _ _ h => h
      delegations := fun _ h => h
      messages := hkept
      settled := by
        intro d hd
        obtain ⟨k, hk, -⟩ := hs.linked d hd
        exact hold _ (hs.ids _ _ hk).2 }
  -- Every item is the new one or an old one.
  have hcases : ∀ k it, Function.update s.inbox id (some item) k = some it →
      (k = id ∧ it = item) ∨ s.inbox k = some it := by
    intro k it hk
    by_cases heq : k = id
    · subst heq
      rw [Function.update_self] at hk
      exact .inl ⟨rfl, (Option.some.inj hk).symm⟩
    · rw [Function.update_of_ne heq] at hk
      exact .inr hk
  constructor
  · show 0 < id + 1
    omega
  · intro k it hk
    show 0 < k ∧ k < id + 1
    rcases hcases k it hk with ⟨rfl, -⟩ | hk
    · omega
    · have := hs.ids k it hk
      omega
  · intro k it hk ho
    rcases hcases k it hk with ⟨-, rfl⟩ | hk
    · exact howner ho
    · exact hs.owner k it hk ho
  · intro k it hk hm
    rcases hcases k it hk with ⟨-, rfl⟩ | hk
    · exact hmessage hm
    · obtain ⟨m, hm⟩ := Option.isSome_iff_exists.mp (hs.messages k it hk hm)
      exact Option.isSome_iff_exists.mpr ⟨m, hkept _ _ hm⟩
  · exact hs.jobs
  · exact hs.groups
  · intro k it hk hr
    rcases hcases k it hk with ⟨rfl, rfl⟩ | hk
    · obtain ⟨⟨g, i⟩, hjob⟩ := Option.isSome_iff_exists.mp (hresult hr)
      obtain ⟨d, hd, -, rfl⟩ := hs.delegation_of_job hjob
      obtain ⟨it', hit', -⟩ := hs.linked d hd
      have := hs.ids _ _ hit'
      exact ⟨g, d.inbox, hjob, by omega⟩
    · exact hs.results k it hk hr
  · exact fun d hd => hext.linked hs hd

theorem inv_resume {s : State} (hs : Inv s) {id : Int} {item : Item} {owner : Bool}
    (hitem : s.inbox id = some item) (hkind : item.entry.kind = .message)
    (hfree : ∀ d ∈ s.delegations, d.inbox ≠ id) :
    Inv { s with inbox := Function.update s.inbox id (some (item.resume owner)) } := by
  have hext : Extends s { s with inbox := Function.update s.inbox id (some (item.resume owner)) } :=
    { jobs := fun _ _ h => h
      delegations := fun _ h => h
      messages := fun _ _ h => h
      settled := fun d hd => Function.update_of_ne (hfree d hd) _ _ }
  have hcases : ∀ k it, Function.update s.inbox id (some (item.resume owner)) k = some it →
      (k = id ∧ it = item.resume owner) ∨ s.inbox k = some it := by
    intro k it hk
    by_cases heq : k = id
    · subst heq
      rw [Function.update_self] at hk
      exact .inl ⟨rfl, (Option.some.inj hk).symm⟩
    · rw [Function.update_of_ne heq] at hk
      exact .inr hk
  constructor
  · exact hs.pos
  · intro k it hk
    rcases hcases k it hk with ⟨rfl, -⟩ | hk
    · exact hs.ids _ _ hitem
    · exact hs.ids k it hk
  · intro k it hk ho
    rcases hcases k it hk with ⟨-, rfl⟩ | hk
    · exact hkind
    · exact hs.owner k it hk ho
  · intro k it hk hm
    rcases hcases k it hk with ⟨-, rfl⟩ | hk
    · have hstored := hs.messages _ _ hitem hkind
      exact hstored
    · exact hs.messages k it hk hm
  · exact hs.jobs
  · exact hs.groups
  · intro k it hk hr
    rcases hcases k it hk with ⟨-, rfl⟩ | hk
    · simp [Item.resume, hkind, Kind.worker_result?] at hr
    · exact hs.results k it hk hr
  · exact fun d hd => hext.linked hs hd

theorem inv_progress {s : State} (hs : Inv s) {f : Job → Job}
    (hf : ∀ j, (f j).id = j.id ∧ (f j).group = j.group ∧ (f j).inbox_id = j.inbox_id) :
    Inv { s with jobs := s.jobs.map f } := by
  have hjob : ∀ r, State.job { s with jobs := s.jobs.map f } r = s.job r := by
    intro r
    have hp : ((fun j : Job => decide (j.id = r)) ∘ f) = fun j => decide (j.id = r) := by
      funext j
      simp [(hf j).1]
    simp only [State.job, List.find?_map, hp, Option.map_map]
    congr 1
    funext j
    simp [(hf j).2]
  have hext : Extends s { s with jobs := s.jobs.map f } :=
    { jobs := fun r x h => (hjob r).trans h
      delegations := fun _ h => h
      messages := fun _ _ h => h
      settled := fun _ _ => rfl }
  constructor
  · exact hs.pos
  · exact hs.ids
  · exact hs.owner
  · exact hs.messages
  · intro j hj
    obtain ⟨k, hk, rfl⟩ := List.mem_map.mp hj
    rw [(hf k).2.1, (hf k).2.2]
    exact hs.jobs k hk
  · exact hs.groups
  · intro k it hk hr
    rw [hjob]
    exact hs.results k it hk hr
  · exact fun d hd => hext.linked hs hd

theorem first_of_result {s : State} (hs : Inv s) (id : Int) {item : Item}
    (hresult : item.entry.kind.worker_result?) (class_ : Trigger) {d : Delegation}
    (hd : d ∈ s.delegations) (hjob : s.job item.entry.reference = some (d.group, d.inbox)) :
    first_of s id item class_ = (d.first, d.first_class) := by
  rw [State.job, Option.map_eq_some_iff] at hjob
  obtain ⟨j, hfind, heq⟩ := hjob
  have hgroup : j.group = d.group := (Prod.mk.inj heq).1
  obtain ⟨d', hd'⟩ : ∃ d', s.delegations.find? (fun d => d.group = j.group) = some d' := by
    rw [← Option.isSome_iff_exists, List.find?_isSome]
    exact ⟨d, hd, by simp [hgroup]⟩
  have hsame : d' = d := by
    refine hs.groups d' (List.mem_of_find?_eq_some hd') d hd ?_
    have := List.find?_some hd'
    simp only [decide_eq_true_eq] at this
    rw [this, hgroup]
  rw [first_of, if_pos hresult, hfind]
  simp only [hd', hsame]

theorem inv_delegate {view : State → Queries} (hview : Contract view) {s : State} (hs : Inv s)
    {id : Int} {item : Item} {trigger : TurnTrigger} {group : String} {jobs : List Job}
    (hitem : s.inbox id = some item) (htrigger : load_trigger (view s) id = some trigger)
    (hready : ready trigger) (hfresh : ∀ d ∈ s.delegations, d.group ≠ group)
    (hjobs : ∀ j ∈ jobs, j.group = group ∧ j.inbox_id = id) :
    Inv (s.delegate id item (reply_class trigger) group jobs) := by
  set t := s.delegate id item (reply_class trigger) group jobs with ht
  have hext : Extends s t :=
    { jobs := fun _ _ h => job_append rfl h
      delegations := List.subset_append_left _ _
      messages := fun _ _ h => h
      settled := fun _ _ => rfl }
  obtain ⟨hkind, hown, -⟩ := load_trigger_entry hview hitem htrigger
  have hsupported : item.entry.kind.supported := by
    rw [← hkind]
    simp only [ready, Bool.and_eq_true] at hready
    exact hready.1
  have hnew : (⟨group, id, reply_class trigger, (first_of s id item (reply_class trigger)).1,
      (first_of s id item (reply_class trigger)).2⟩ : Delegation) ∈ t.delegations :=
    List.mem_append_right _ (List.mem_singleton.mpr rfl)
  constructor
  · exact hs.pos
  · exact hs.ids
  · exact hs.owner
  · exact hs.messages
  · intro j hj
    rcases List.mem_append.mp hj with hj | hj
    · obtain ⟨d, hd, hdj⟩ := hs.jobs j hj
      exact ⟨d, hext.delegations hd, hdj⟩
    · obtain ⟨hg, hi⟩ := hjobs j hj
      exact ⟨_, hnew, hg.symm, hi.symm⟩
  · intro d hd d' hd' heq
    rcases List.mem_append.mp hd with hd | hd <;> rcases List.mem_append.mp hd' with hd' | hd'
    · exact hs.groups d hd d' hd' heq
    · rw [List.mem_singleton.mp hd'] at heq
      exact absurd heq (hfresh d hd)
    · rw [List.mem_singleton.mp hd] at heq
      exact absurd heq.symm (hfresh d' hd')
    · rw [List.mem_singleton.mp hd, List.mem_singleton.mp hd']
  · intro k it hk hr
    obtain ⟨g, i, hjob, hlt⟩ := hs.results k it hk hr
    exact ⟨g, i, hext.jobs _ _ hjob, hlt⟩
  · intro d hd
    rcases List.mem_append.mp hd with hd | hd
    · exact hext.linked hs hd
    · rw [List.mem_singleton.mp hd]
      refine ⟨item, hitem, hsupported, ?_⟩
      unfold Linked
      by_cases hresult : item.entry.kind.worker_result? = true
      · rw [if_pos hresult]
        obtain ⟨g, i, hjob, -⟩ := hs.results _ _ hitem hresult
        obtain ⟨d', hd', rfl, rfl⟩ := hs.delegation_of_job hjob
        obtain ⟨-, -, -, -, d₀, hd₀, hfirst₀⟩ := hs.linked d' hd'
        have hfirst := first_of_result hs id hresult (reply_class trigger) hd' hjob
        rw [hfirst]
        refine ⟨⟨d', hext.delegations hd', hext.jobs _ _ hjob, rfl, rfl, ?_⟩, d₀,
          hext.delegations hd₀, hfirst₀⟩
        show reply_class trigger = seen_class t _
        rw [class_of_result hview hs hitem hresult hd' hjob htrigger hready, seen_class, seen_class,
          hfirst₀, hext.known hd₀]
      · rw [if_neg hresult]
        have hfirst : first_of s id item (reply_class trigger) = (id, reply_class trigger) := by
          rw [first_of, if_neg hresult]
        rw [hfirst]
        refine ⟨⟨rfl, rfl, ?_⟩, _, hnew, rfl⟩
        show reply_class trigger = reply_class (own_trigger s item)
        rw [hown (by simpa using hresult)]

theorem inv_step {view : State → Queries} (hview : Contract view) {s t : State} (hs : Inv s)
    (h : Step view s t) : Inv t := by
  cases h with
  | @message id item m hid hkind hstored =>
    refine inv_arrive hs hid ?_ (fun _ => hkind) (fun _ => by simp) ?_
    · intro r m' hr
      by_cases heq : r = item.entry.reference
      · subst heq
        rcases hstored with hnone | hsome
        · rw [hnone] at hr
          cases hr
        · rw [hsome] at hr
          rw [Function.update_self]
          exact hr
      · rw [Function.update_of_ne heq]
        exact hr
    · intro hr
      simp [hkind, Kind.worker_result?] at hr
  | other hid hkind hresult howner =>
    exact inv_arrive hs hid (fun _ _ h => h) (fun h => by simp [howner] at h)
      (fun h => absurd h hkind) (fun h => by simp [hresult] at h)
  | @result id item j hid hresult howner hj href =>
    refine inv_arrive hs hid (fun _ _ h => h) (fun h => by simp [howner] at h) ?_ ?_
    · intro hkind
      simp [hkind, Kind.worker_result?] at hresult
    · intro _
      obtain ⟨k, -, -, hk⟩ := State.job_of_mem hj
      rw [← href, hk]
      rfl
  | resume hitem hkind hfree => exact inv_resume hs hitem hkind hfree
  | delegate hitem htrigger hready _ hfresh hjobs _ =>
    exact inv_delegate hview hs hitem htrigger hready hfresh hjobs
  | progress hf => exact inv_progress hs hf

theorem reach_inv {view : State → Queries} (hview : Contract view) {s : State}
    (h : Reach view s) : Inv s :=
  h.invariant (fun _ hs => hs ▸ inv_empty) fun _ _ _ hs hstep => inv_step hview hs hstep

/-! ## The whole chain -/

/-- The first turn of a chain is no worker result, and reserved under its own class. -/
theorem first_turn {s : State} (hs : Inv s) {d : Delegation} (hd : d ∈ s.delegations) :
    ∃ first, s.inbox d.first = some first ∧ first.entry.kind.supported ∧
      first.entry.kind.worker_result? = false ∧
      d.first_class = reply_class (own_trigger s first) := by
  obtain ⟨n, hn⟩ : ∃ n : Nat, d.inbox < n := ⟨d.inbox.toNat + 1, by omega⟩
  induction n generalizing d with
  | zero =>
    obtain ⟨item, hitem, -⟩ := hs.linked d hd
    have := hs.ids _ _ hitem
    omega
  | succ n ih =>
    obtain ⟨item, hitem, hsupported, hlinked, -⟩ := hs.linked d hd
    unfold Linked at hlinked
    split at hlinked
    · rename_i hresult
      obtain ⟨d', hd', hjob, hfirst, hclass, -⟩ := hlinked
      obtain ⟨g, i, hjob', hlt⟩ := hs.results _ _ hitem hresult
      rw [hjob] at hjob'
      simp only [Option.some.injEq, Prod.mk.injEq] at hjob'
      rw [hfirst, hclass]
      exact ih hd' (by omega)
    · rename_i hresult
      obtain ⟨hfirst, hclass, hown⟩ := hlinked
      rw [hfirst, hclass, hown]
      exact ⟨item, hitem, hsupported, by simpa using hresult, rfl⟩

theorem told_iff {s : State} {item : Item} (hsupported : item.entry.kind.supported)
    (hresult : item.entry.kind.worker_result? = false) :
    Told item ↔ (item.entry.kind = .message ∨ item.entry.kind = .owner_instruction) ∨
      reply_class (own_trigger s item) = .human := by
  unfold Told reply_class own_trigger
  cases hkind : item.entry.kind with
  | message | owner_instruction => simp
  | obligation_due =>
    simp only [Kind.worker_result?, reduceCtorEq, or_self, decide_false, Bool.false_eq_true,
      if_false, if_true, false_or]
    split <;> simp_all
  | handoff | post_refused =>
    simp only [Kind.worker_result?, reduceCtorEq, or_self, decide_false, Bool.false_eq_true,
      if_false, true_or, or_true, if_true, false_or]
    split
    · simp_all
    · split <;> simp_all
  | worker_result | worker_interrupted => simp [hkind, Kind.worker_result?] at hresult
  | debrief | worker_progress | other => simp [hkind, Kind.supported] at hsupported

/-- **The walk ends in every store, and in every history the class of a worker result is that of
the turns before it exactly when the walk can tell the class of the first one.** -/
theorem result_class_iff (u : Queries) (view : State → Queries) :
    (u.Finite → ∀ reference, (load u reference).isSome) ∧
    (Contract view → ∀ s, Reach view s → ∀ id item d, s.inbox id = some item →
      item.entry.kind.worker_result? → d ∈ s.delegations →
      s.job item.entry.reference = some (d.group, d.inbox) →
      (∃ trigger, load_trigger (view s) id = some trigger ∧ ready trigger) →
      (Carries view s id d ↔ ∃ first, s.inbox d.first = some first ∧ Told first)) := by
  refine ⟨fun hu reference => load_isSome hu reference, ?_⟩
  rintro hview s hreach id item d hitem hresult hd hjob ⟨trigger, htrigger, hready⟩
  have hs := reach_inv hview hreach
  obtain ⟨first, hfirst, hsupported, hplain, hclass⟩ := first_turn hs hd
  have hseen := class_of_result hview hs hitem hresult hd hjob htrigger hready
  have htold : Told first ↔ seen_class s d = d.first_class := by
    rw [told_iff hsupported hplain, ← hclass, ← known_iff hfirst, seen_class]
    by_cases hknown : known s d.first = true
    · simp [hknown]
    · simp only [hknown, Bool.false_eq_true, false_or, if_false]
      exact eq_comm
  constructor
  · intro hcarries
    refine ⟨first, hfirst, htold.mpr ?_⟩
    rw [← hseen]
    exact (hcarries trigger htrigger).2
  · rintro ⟨first', hfirst', htold'⟩ trigger' htrigger'
    rw [htrigger] at htrigger'
    cases htrigger'
    rw [hfirst] at hfirst'
    cases hfirst'
    have hsame := htold.mp htold'
    refine ⟨?_, hseen.trans hsame⟩
    obtain ⟨own, -, -, hlinked, -⟩ := hs.linked d hd
    unfold Linked at hlinked
    split at hlinked
    · obtain ⟨d', -, -, -, -, hown⟩ := hlinked
      rw [hseen, hown]
    · rw [hseen, hsame, hlinked.2.1]

/-! ## A store of plain rows -/

def rowsView (s : State) : Queries where
  rows := s.next.toNat
  turn_input id := (s.inbox id).map fun item =>
    ⟨item.entry, if item.entry.kind = .message then s.messages item.entry.reference else none,
      item.from_peer, item.refused_event⟩
  inbox_entry id := (s.inbox id).map Item.entry
  message_origin r := (s.messages r).map fun m => (m.event_id, m.meta_.isSome)
  job_group r := (s.jobs.find? fun j => j.id = r).map Job.group
  group_results g _ := (s.jobs.filter fun j => j.group = g).map Job.row
  job_inbox r := (s.jobs.find? fun j => j.id = r).map Job.inbox_id

theorem rowsView_contract : Contract rowsView where
  finite s h := by
    refine ⟨(List.range s.next.toNat).map Int.ofNat, by simp [rowsView], ?_⟩
    intro id hid
    obtain ⟨hpos, hlt⟩ := h id (by simpa [rowsView] using hid)
    rw [List.mem_map]
    exact ⟨id.toNat, by rw [List.mem_range]; omega, by simp; omega⟩
  turn_input _ _ := rfl
  inbox_entry _ _ := rfl
  message_origin _ _ := rfl
  job_group _ _ := rfl
  group_results s g r row := by simp [rowsView, and_assoc]
  job_inbox _ _ := rfl

section Example

/-- A turn that was handed over under this class. -/
def handed (class_ : String) : Item :=
  ⟨⟨.handoff, "", { Payload.empty with class_ := some class_ }⟩, none, none⟩

def finished : Item := ⟨⟨.worker_result, "job-1", Payload.empty⟩, none, none⟩

def job (status : String) : Job := ⟨"job-1", "1", 1, status, false, some "worker", none⟩

/-- The handed-over turn delegated, and its job is done. -/
def after_job (class_ : String) (c : Trigger) : State :=
  { (((empty.arrive 1 (handed class_)).delegate 1 (handed class_) c "1" [job "queued"]).arrive 2
      finished) with jobs := [job "done"] }

theorem after_job_reach {class_ : String} (trigger : TurnTrigger)
    (htrigger : load_trigger (rowsView (empty.arrive 1 (handed class_))) 1 = some trigger)
    (hready : ready trigger) : Reach rowsView (after_job class_ (reply_class trigger)) := by
  have harrive : Reach rowsView (empty.arrive 1 (handed class_)) := .step (.start rfl)
    (.other le_rfl (by simp [handed]) (by simp [handed, Kind.worker_result?]) rfl)
  have hdelegate : Reach rowsView ((empty.arrive 1 (handed class_)).delegate 1 (handed class_)
      (reply_class trigger) "1" [job "queued"]) :=
    .step harrive (.delegate (by simp [State.arrive]) htrigger hready (by simp [State.arrive, empty])
      (by simp [State.arrive, empty]) (by simp [job]) (by simp [State.arrive, empty]))
  have hdone := hdelegate.step (.progress (f := fun j => { j with status := "done" })
    fun j => ⟨rfl, rfl, rfl⟩)
  exact .step hdone (.result (j := job "done") le_rfl (by decide) rfl
    (List.mem_singleton.mpr rfl) rfl)

/-- A turn that a peer's hand-off started delegates, and the result counts as a human's. -/
theorem handed_result_broken :
    Reach rowsView (after_job "peer" .peer) ∧
      (after_job "peer" .peer).inbox 2 = some finished ∧
      ⟨"1", 1, .peer, 1, .peer⟩ ∈ (after_job "peer" .peer).delegations ∧
      (after_job "peer" .peer).job "job-1" = some ("1", 1) ∧
      (load_trigger (rowsView (after_job "peer" .peer)) 2).any ready = true ∧
      (load_trigger (rowsView (after_job "peer" .peer)) 2).map reply_class = some .human ∧
      ¬ Carries rowsView (after_job "peer" .peer) 2 ⟨"1", 1, .peer, 1, .peer⟩ := by
  have hclass : (load_trigger (rowsView (after_job "peer" .peer)) 2).map reply_class =
      some .human := by decide
  refine ⟨after_job_reach (own_trigger empty (handed "peer")) rfl rfl, by decide,
    by decide, by decide, by decide, hclass, ?_⟩
  intro hcarries
  obtain ⟨trigger, htrigger, hhuman⟩ := Option.map_eq_some_iff.mp hclass
  have hpeer := (hcarries trigger htrigger).1
  rw [hhuman] at hpeer
  cases hpeer

theorem result_class_iff_handed :
    (load (rowsView empty) "job-1").isSome ∧
      Carries rowsView (after_job "human" .human) 2 ⟨"1", 1, .human, 1, .human⟩ := by
  refine ⟨(result_class_iff _ rowsView).1 (rowsView_contract.finite _ (by simp [empty])) _, ?_⟩
  have hready : (load_trigger (rowsView (after_job "human" .human)) 2).any ready = true := by decide
  refine ((result_class_iff (rowsView empty) rowsView).2 rowsView_contract (after_job "human" .human)
    (after_job_reach (own_trigger empty (handed "human")) rfl rfl) 2 finished
    ⟨"1", 1, .human, 1, .human⟩ (by decide) (by decide) (by decide) (by decide)
    (by simpa [Option.any_eq_true] using hready)).mpr ?_
  exact ⟨handed "human", by decide, rfl⟩

end Example

end Fridica.Threads.Results
