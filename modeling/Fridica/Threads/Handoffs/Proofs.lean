import Fridica.Threads.Handoffs.Spec
import Fridica.Threads.Validate.Proofs
import Mathlib.Data.List.Chain

/-! # Chains of hand-offs -/

open Fridica.Checked

namespace Fridica.Threads.Handoffs

/-! ## What the checks on a decision give -/

theorem validate_handoffs_ok {request : ParentRequest} {handoffs : List Handoff}
    {known addressed : List String} {handed : Handed}
    (h : validate_handoffs request handoffs known addressed = .ok handed)
    (hne : handoffs ≠ []) : handoff_hop request < MAX_HANDOFF_HOPS ∧
      ∀ x ∈ handoffs, x.thread ∈ linked request ∧ came_from request ≠ some x.thread := by
  obtain ⟨⟨-, hhop⟩, -, htargets, hback⟩ := validate_handoffs_takes h
  exact ⟨hhop hne, fun x hx => ⟨htargets.known x.thread (List.mem_map_of_mem hx), hback x hx⟩⟩

/-- A valid decision hands off only below the limit of hops, and never back. -/
theorem validate_ok {whitespace : Char → Bool} {raw : Option Decision} {request : ParentRequest}
    {now : ℚ} {d : Decision} (h : validate whitespace raw request now = .ok d)
    (hne : d.handoffs ≠ []) : handoff_hop request < MAX_HANDOFF_HOPS ∧
      ∀ x ∈ d.handoffs, x.thread ∈ linked request ∧ came_from request ≠ some x.thread := by
  cases raw with
  | none => cases h
  | some raw =>
    simp only [validate, bind_ok, pure_ok] at h
    obtain ⟨e, -, reply, -, addressed, -, addressed', -, u, -, handed, hhandoffs, rfl⟩ := h
    exact validate_handoffs_ok hhandoffs hne

/-! ## One step -/

/-- A hand-off item carries the length and the last source of its chain. -/
def Carried (i : Item) : Prop :=
  i.kind = .handoff → i.payload.hop = some i.chain.length ∧
    ∃ hop, i.chain.getLast? = some hop ∧ hop.target = i.place ∧
      i.payload.from_ = some hop.source.root_ts ∧
      hop.source = { i.place with root_ts := hop.source.root_ts }

structure Inv (w : World) : Prop where
  carried : ∀ i ∈ w.items, Carried i
  bounded : ∀ i ∈ w.items, Bounded i.chain

theorem inv_add {w : World} (hw : Inv w) {new turns : List Item}
    (hnew : ∀ i ∈ new, Carried i ∧ Bounded i.chain) : Inv ⟨w.items ++ new, turns⟩ where
  carried i hi := (List.mem_append.mp hi).elim (hw.carried i) fun h => (hnew i h).1
  bounded i hi := (List.mem_append.mp hi).elim (hw.bounded i) fun h => (hnew i h).2

/-- A direct turn's hand-off lengthens its chain within the bounds. -/
theorem handed_bounded {i : Item} (hi : Carried i) (hbounded : Bounded i.chain)
    (hdirect : Direct i) {request : ParentRequest} (habout : About request i)
    (hhop : handoff_hop request < MAX_HANDOFF_HOPS) {h : Handoff × Nat}
    (hback : came_from request ≠ some h.1.thread) (id : Int) (class_ : Option String)
    (context : String) : Carried (i.handed request id class_ context h) ∧
      Bounded (i.handed request id class_ context h).chain := by
  -- The hop count that the code reads is the length of the chain.
  have hlen : handoff_hop request = i.chain.length := by
    unfold handoff_hop
    by_cases hkind : i.kind = .handoff
    · rw [habout.kind, if_pos hkind, habout.payload, (hi hkind).1]
      rfl
    · rw [habout.kind, if_neg hkind, hdirect.resolve_left hkind]
      rfl
  refine ⟨?_, ?_, ?_⟩
  · rintro -
    refine ⟨?_, ⟨i.place, { i.place with root_ts := h.1.thread }⟩, ?_, rfl, ?_, rfl⟩
    · simp [Item.handed, queue_handoff, hlen]
    · simp [Item.handed]
    · simp [Item.handed, queue_handoff, habout.root_ts]
  · simp only [Item.handed, List.length_append, List.length_singleton]
    omega
  · simp only [Item.handed]
    rw [List.isChain_append]
    refine ⟨hbounded.2, List.isChain_singleton _, ?_⟩
    intro last hlast hop hhop
    simp only [List.head?_cons, Option.mem_def, Option.some.injEq] at hlast hhop
    subst hhop
    rcases hdirect with hkind | hnil
    · obtain ⟨-, hop, hgetlast, -, hfrom, hsource⟩ := hi hkind
      rw [hlast] at hgetlast
      cases hgetlast
      intro heq
      apply hback
      rw [came_from, habout.kind, if_pos hkind, habout.payload, hfrom, ← heq]
    · simp [hnil] at hlast

theorem inv_step {whitespace : Char → Bool} {v w : World} (hv : Inv v) (h : Step whitespace v w)
    (hdirect : ∀ i ∈ w.turns, Direct i) : Inv w := by
  cases h with
  | @start place kind payload hkind =>
    apply inv_add hv
    intro i hi
    rw [List.mem_singleton.mp hi]
    exact ⟨fun h => absurd h hkind, Nat.zero_le _, List.isChain_nil⟩
  | @follow j kind payload hj hkind =>
    apply inv_add hv
    intro i hi
    rw [List.mem_singleton.mp hi]
    refine ⟨fun h => ?_, hv.bounded j hj⟩
    simp only at h
    subst h
    simp [Indirect] at hkind
  | @turn i request raw now d id class_ context new hi habout hvalid hsub =>
    apply inv_add hv
    intro n hn
    obtain ⟨⟨x, k⟩, hx, rfl⟩ := List.mem_map.mp (hsub.subset hn)
    have hmem : x ∈ d.handoffs := List.fst_mem_of_mem_zipIdx hx
    have hne : d.handoffs ≠ [] := List.ne_nil_of_mem hmem
    obtain ⟨hhop, hall⟩ := validate_ok hvalid hne
    have hthis : Direct i := by
      apply hdirect
      simp [hne]
    exact handed_bounded (hv.carried i hi) (hv.bounded i hi) hthis habout hhop (hall x hmem).2
      id class_ context

theorem turns_subset {whitespace : Char → Bool} {v w : World} (h : Step whitespace v w) :
    v.turns ⊆ w.turns := by
  cases h with
  | start | follow => exact List.Subset.refl _
  | turn =>
    simp only
    split
    · exact List.Subset.refl _
    · exact List.subset_append_left _ _

theorem reach_inv {whitespace : Char → Bool} {w : World} (h : Reach whitespace w)
    (hdirect : ∀ i ∈ w.turns, Direct i) : Inv w := by
  refine Run.Reach.invariant (I := fun w => (∀ i ∈ w.turns, Direct i) → Inv w) ?_ ?_ h hdirect
  · rintro _ rfl -
    exact ⟨by simp, by simp⟩
  · intro v w _ hv hstep hdirect
    exact inv_step (hv fun i hi => hdirect i (turns_subset hstep hi)) hstep hdirect

/-- **Two hops and never straight back**, in every run where only direct turns hand off. -/
theorem chains_bounded {whitespace : Char → Bool} {w : World} (h : Reach whitespace w)
    (hdirect : ∀ i ∈ w.turns, Direct i) : ∀ i ∈ w.items, Bounded i.chain :=
  (reach_inv h hdirect).bounded

section Example

def room (root : String) : Place := ⟨"TTEAM", "CROOM", root⟩

/-- A turn of the item in a thread that is linked to one other thread. -/
def request (i : Item) (other : String) : ParentRequest where
  inbox_id := 1
  session := ⟨some i.place.id, some i.place.workspace, some i.place.channel, some i.place.root_ts,
    some "complete", some 1, false, [⟨some other, some "active"⟩], none, none, none, none⟩
  trigger := ⟨i.kind, "", i.payload, none, none, none, none⟩
  history := []
  obligations := []

def passing (other : String) : Decision :=
  { Decision.empty with handoffs := [⟨other, .context, "Please look", []⟩] }

theorem request_about (i : Item) (other : String) : About (request i other) i :=
  ⟨rfl, rfl, rfl, rfl, rfl⟩

/-- The item that a turn handed over to the other thread. -/
def Item.over (i : Item) (other : String) : Item :=
  i.handed (request i other) 1 none "" (⟨other, .context, "Please look", []⟩, 0)

theorem step_over {w : World} {i : Item} {other : String} (hi : i ∈ w.items)
    (hvalid : validate Text.whitespace (some (passing other)) (request i other) 0 =
      .ok (passing other)) :
    Step Text.whitespace w ⟨w.items ++ [i.over other], w.turns ++ [i]⟩ := by
  have hstep : Step Text.whitespace w ⟨w.items ++ (passing other).handoffs.zipIdx.map
      (i.handed (request i other) 1 none ""), w.turns ++ [i]⟩ :=
    Step.turn hi (request_about i other) hvalid (List.Sublist.refl _)
  exact hstep

/-- A message in the first thread. -/
def asked : Item := ⟨room "100.1", .message, Payload.empty, []⟩

/-- Its hand-off to the second thread. -/
def passed : Item := asked.over "200.1"

/-- A worker that the second thread started came back. -/
def worked : Item := ⟨room "200.1", .worker_result, Payload.empty, passed.chain⟩

def passed_world : World := ⟨[asked, passed], [asked]⟩

theorem passed_reach : Reach Text.whitespace passed_world := by
  have hstart : Reach Text.whitespace ⟨[asked], []⟩ := .step (.start rfl) (.start (by decide))
  exact .step hstart (step_over (List.mem_singleton.mpr rfl) (by decide))

/-- The turn of the worker result hands back to the first thread, which has no way to tell. -/
theorem chain_broken :
    Reach Text.whitespace ⟨[asked, passed, worked, worked.over "100.1"], [asked, worked]⟩ ∧
      (worked.over "100.1").chain =
        [⟨room "100.1", room "200.1"⟩, ⟨room "200.1", room "100.1"⟩] ∧
      (worked.over "100.1").payload.hop = some 1 ∧
      ¬ Bounded (worked.over "100.1").chain := by
  have hwork : Reach Text.whitespace ⟨[asked, passed, worked], [asked]⟩ :=
    .step passed_reach
      (.follow (i := passed) (List.mem_cons_of_mem _ (List.mem_singleton.mpr rfl)) (.inl rfl))
  have hback : Step Text.whitespace ⟨[asked, passed, worked], [asked]⟩
      ⟨[asked, passed, worked, worked.over "100.1"], [asked, worked]⟩ :=
    step_over (i := worked) (by decide) (by decide)
  refine ⟨.step hwork hback, by decide, by decide, ?_⟩
  rintro ⟨-, hchain⟩
  exact absurd hchain (by decide)

theorem chains_bounded_passed :
    passed.chain = [⟨room "100.1", room "200.1"⟩] ∧ ∀ i ∈ passed_world.items, Bounded i.chain :=
  ⟨rfl, chains_bounded passed_reach (by decide)⟩

end Example

end Fridica.Threads.Handoffs
