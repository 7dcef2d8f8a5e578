import Fridica.Parent.LoginGate.Spec
import Fridica.Lib.Run
import Mathlib.Data.List.Basic

/-!
# One call at a time

From startup, and from every lost refresh, until some call goes through.
-/

namespace Fridica.Parent.LoginGate

/-! ## The lock and the log -/

/-- How the call entered, as far as its phase says. -/
def Phase.entry : Phase → Option Entry
  | .running entry | .settling entry _ | .leaving entry => some entry
  | _ => none

/-- The phases in which a call holds the lock. -/
def Phase.holds (p : Phase) : Prop := p = .locked ∨ p.entry = some .alone

structure Inv (s : State) : Prop where
  probe : ∀ i, (s.phase i).holds → s.probe = some i
  entered : ∀ i entry, .entered i entry ∈ s.log →
    (s.phase i).entry = some entry ∨ s.phase i = .gone

theorem initial_inv : Inv initial where
  probe i h := by rcases h with h | h <;> cases h
  entered _ _ h := nomatch h

@[simp] theorem to_phase_self (s : State) (i : Nat) (p : Phase) : (s.to i p).phase i = p :=
  Function.update_self ..

theorem to_phase_ne (s : State) {i j : Nat} (p : Phase) (h : j ≠ i) :
    (s.to i p).phase j = s.phase j := Function.update_of_ne h ..

theorem Inv.moved {s t : State} (h : Inv s) (i : Nat) (p : Phase)
    (hphase : t.phase = (s.to i p).phase)
    (hprobe : ∀ j, j ≠ i → s.probe = some j → t.probe = some j)
    (hholds : p.holds → t.probe = some i)
    (hentry : ∀ entry, (s.phase i).entry = some entry ∨ s.phase i = .gone →
      p.entry = some entry ∨ p = .gone)
    (hlog : ∀ j entry, .entered j entry ∈ t.log →
      .entered j entry ∈ s.log ∨ j = i ∧ p.entry = some entry) : Inv t := by
  constructor
  · intro j hj
    by_cases hji : j = i
    · rw [hji, hphase, to_phase_self] at hj
      rw [hji]
      exact hholds hj
    · rw [hphase, to_phase_ne s p hji] at hj
      exact hprobe j hji (h.probe j hj)
  · intro j entry hj
    rw [hphase]
    by_cases hji : j = i
    · rw [hji, to_phase_self]
      rcases hlog j entry hj with hold | ⟨-, hp⟩
      · rw [hji] at hold
        exact hentry entry (h.entered i entry hold)
      · exact .inl hp
    · rw [to_phase_ne s p hji]
      rcases hlog j entry hj with hold | ⟨hi, -⟩
      · exact h.entered j entry hold
      · exact absurd hi hji

theorem Inv.enter {s t : State} (h : Inv s) (i : Nat) (entry : Entry)
    (hphase : t.phase = (s.to i (.running entry)).phase)
    (hprobe : ∀ j, j ≠ i → s.probe = some j → t.probe = some j)
    (hholds : entry = .alone → t.probe = some i) (hnone : (s.phase i).entry = none)
    (hgone : s.phase i ≠ .gone) (hlog : t.log = s.log ++ [.entered i entry]) : Inv t := by
  apply h.moved i (.running entry) hphase hprobe
  · rintro (hp | hp)
    · cases hp
    · exact hholds (Option.some.inj hp)
  · rintro entry' (hold | hold)
    · rw [hnone] at hold
      cases hold
    · exact absurd hold hgone
  · intro j entry' hmem
    rw [hlog] at hmem
    rcases List.mem_append.mp hmem with hmem | hmem
    · exact .inl hmem
    · obtain ⟨rfl, rfl⟩ := Event.entered.inj (List.mem_singleton.mp hmem)
      exact .inr ⟨rfl, rfl⟩

theorem Inv.drop {s : State} (h : Inv s) (i : Nat) : Inv (s.drop i) := by
  apply h.moved i .gone
  · rfl
  · intro j hji hj
    have hne : s.probe ≠ some i := by
      rw [hj]
      exact fun heq => hji (Option.some.inj heq)
    exact (if_neg hne).trans hj
  · rintro (hp | hp) <;> cases hp
  · exact fun _ _ => .inr rfl
  · exact fun _ _ hmem => .inl hmem

theorem step_inv {s t : State} {i : Nat} {a : Action} (h : Inv s) (hstep : step s i a = some t) :
    Inv t := by
  cases a with
  | enter =>
    rw [step] at hstep
    split at hstep
    next hout =>
      split at hstep
      · rw [← Option.some.inj hstep]
        apply h.enter i .free
        · rfl
        · exact fun _ _ hj => hj
        · exact nofun
        · rw [hout]; rfl
        · rw [hout]; exact nofun
        · rfl
      · rw [← Option.some.inj hstep]
        apply h.moved i .waiting
        · rfl
        · exact fun _ _ hj => hj
        · rintro (hp | hp) <;> cases hp
        · rw [hout]
          rintro entry (he | he) <;> cases he
        · exact fun _ _ hmem => .inl hmem
    · cases hstep
  | acquire =>
    rw [step] at hstep
    split at hstep
    next hwaiting =>
      rw [← Option.some.inj hstep]
      apply h.moved i .locked
      · rfl
      · intro j _ hj
        rw [hwaiting.2] at hj
        cases hj
      · exact fun _ => rfl
      · rw [hwaiting.1]
        rintro entry (he | he) <;> cases he
      · exact fun _ _ hmem => .inl hmem
    · cases hstep
  | look =>
    rw [step] at hstep
    split at hstep
    next hlocked =>
      have hprobe : s.probe = some i := h.probe i (.inl hlocked)
      split at hstep
      · rw [← Option.some.inj hstep]
        apply h.enter i .free
        · rfl
        · intro j hji hj
          rw [hprobe] at hj
          exact absurd (Option.some.inj hj).symm hji
        · exact nofun
        · rw [hlocked]; rfl
        · rw [hlocked]; exact nofun
        · rfl
      · rw [← Option.some.inj hstep]
        apply h.enter i .alone
        · rfl
        · exact fun _ _ hj => hj
        · exact fun _ => hprobe
        · rw [hlocked]; rfl
        · rw [hlocked]; exact nofun
        · rfl
    · cases hstep
  | give_up =>
    rw [step] at hstep
    split at hstep
    next hwaiting =>
      rw [← Option.some.inj hstep]
      apply h.enter i .exhausted
      · rfl
      · exact fun _ _ hj => hj
      · exact nofun
      · rw [hwaiting]; rfl
      · rw [hwaiting]; exact nofun
      · rfl
    · cases hstep
  | finish completed =>
    rw [step] at hstep
    split at hstep
    next entry hrunning =>
      rw [← Option.some.inj hstep]
      apply h.moved i (.settling entry completed)
      · rfl
      · exact fun _ _ hj => hj
      · rintro (hp | hp)
        · cases hp
        · exact h.probe i (.inr (by rw [hrunning]; exact hp))
      · rw [hrunning]
        rintro entry' (he | he)
        · exact .inl he
        · cases he
      · exact fun _ _ hmem => .inl hmem
    · cases hstep
  | settle =>
    rw [step] at hstep
    split at hstep
    next entry completed hsettling =>
      rw [← Option.some.inj hstep]
      apply h.moved i (.leaving entry)
      · rfl
      · exact fun _ _ hj => hj
      · rintro (hp | hp)
        · cases hp
        · exact h.probe i (.inr (by rw [hsettling]; exact hp))
      · rw [hsettling]
        rintro entry' (he | he)
        · exact .inl he
        · cases he
      · intro j entry' hmem
        rcases List.mem_append.mp hmem with hmem | hmem
        · exact .inl hmem
        · cases List.mem_singleton.mp hmem
    · cases hstep
  | release =>
    rw [step] at hstep
    split at hstep
    · rw [← Option.some.inj hstep]
      exact h.drop i
    · cases hstep
  | cancel =>
    rw [← Option.some.inj hstep]
    exact h.drop i

/-! ## While the gate stays closed -/

/-- Since the gate was last closed, every call that settled lost the refresh. -/
structure Closed (s : State) (since : List Event) : Prop where
  closed : s.open_gate = false
  entered : ∀ i entry, .entered i entry ∈ since → entry ≠ .free

theorem step_log {s t : State} {i : Nat} {a : Action} (hstep : step s i a = some t) :
    (t.log = s.log ∧ t.open_gate = s.open_gate) ∨
    (∃ entry, t.log = s.log ++ [.entered i entry] ∧ t.open_gate = s.open_gate ∧
      (entry = .free → s.open_gate = true)) ∨
    ∃ completed, t.log = s.log ++ [.settled i completed] ∧
      t.open_gate = !completed.contended := by
  cases a with
  | enter =>
    rw [step] at hstep
    split at hstep
    · split at hstep
      next hopen =>
        rw [← Option.some.inj hstep]
        exact .inr (.inl ⟨.free, rfl, rfl, fun _ => hopen⟩)
      next =>
        rw [← Option.some.inj hstep]
        exact .inl ⟨rfl, rfl⟩
    · cases hstep
  | acquire =>
    rw [step] at hstep
    split at hstep
    · rw [← Option.some.inj hstep]
      exact .inl ⟨rfl, rfl⟩
    · cases hstep
  | look =>
    rw [step] at hstep
    split at hstep
    · split at hstep
      next hopen =>
        rw [← Option.some.inj hstep]
        exact .inr (.inl ⟨.free, rfl, rfl, fun _ => hopen⟩)
      next =>
        rw [← Option.some.inj hstep]
        exact .inr (.inl ⟨.alone, rfl, rfl, nofun⟩)
    · cases hstep
  | give_up =>
    rw [step] at hstep
    split at hstep
    · rw [← Option.some.inj hstep]
      exact .inr (.inl ⟨.exhausted, rfl, rfl, nofun⟩)
    · cases hstep
  | finish completed =>
    rw [step] at hstep
    split at hstep
    · rw [← Option.some.inj hstep]
      exact .inl ⟨rfl, rfl⟩
    · cases hstep
  | settle =>
    rw [step] at hstep
    split at hstep
    next entry completed _ =>
      rw [← Option.some.inj hstep]
      exact .inr (.inr ⟨completed, rfl, rfl⟩)
    · cases hstep
  | release =>
    rw [step] at hstep
    split at hstep
    · rw [← Option.some.inj hstep]
      exact .inl ⟨rfl, rfl⟩
    · cases hstep
  | cancel =>
    rw [← Option.some.inj hstep]
    exact .inl ⟨rfl, rfl⟩

/-- The moments from which calls go one at a time. -/
def Moment (log : List Event) : Prop := log = [] ∨ JustLost log

/-- Every call that settled in this part of the log lost the refresh. -/
def AllLost (log : List Event) : Prop :=
  ∀ i completed, .settled i completed ∈ log → completed.contended = true

/-- From every moment on, as long as all that settle lost the refresh, the gate is closed. -/
def StaysClosed (s : State) : Prop :=
  ∀ before since, s.log = before ++ since → Moment before → AllLost since → Closed s since

theorem stays_closed_initial : StaysClosed initial := by
  intro before since hlog _ _
  obtain ⟨-, rfl⟩ := List.append_eq_nil_iff.mp hlog.symm
  exact ⟨rfl, nofun⟩

theorem step_stays_closed {s t : State} {i : Nat} {a : Action} (h : StaysClosed s)
    (hstep : step s i a = some t) : StaysClosed t := by
  intro before since hlog hmoment hlost
  rcases step_log hstep with ⟨hsame, hgate⟩ | ⟨entry, hnew, hgate, hfree⟩ | ⟨completed, hnew, hgate⟩
  · rw [hsame] at hlog
    obtain ⟨hclosed, hentered⟩ := h before since hlog hmoment hlost
    exact ⟨hgate.trans hclosed, hentered⟩
  · rw [hnew] at hlog
    rcases List.eq_nil_or_concat since with rfl | ⟨since', e, rfl⟩
    · -- The last event is no lost refresh, so the moment lies before it.
      rw [List.append_nil] at hlog
      rcases hmoment with rfl | ⟨earlier, j, lost, rfl, -⟩
      · simp at hlog
      · have hlast := (List.append_inj' hlog rfl).2
        cases hlast
    · rw [List.concat_eq_append, ← List.append_assoc] at hlog
      obtain ⟨hbefore, he⟩ := List.append_inj' hlog rfl
      obtain rfl := List.singleton_inj.mp he
      obtain ⟨hclosed, hentered⟩ := h before since' hbefore hmoment
        fun j c hmem => hlost j c (by simp [hmem])
      refine ⟨hgate.trans hclosed, ?_⟩
      intro j entry' hmem
      rw [List.concat_eq_append] at hmem
      rcases List.mem_append.mp hmem with hmem | hmem
      · exact hentered j entry' hmem
      · obtain ⟨-, rfl⟩ := Event.entered.inj (List.mem_singleton.mp hmem)
        intro hfreely
        rw [hfree hfreely] at hclosed
        cases hclosed
  · rw [hnew] at hlog
    rcases List.eq_nil_or_concat since with rfl | ⟨since', e, rfl⟩
    · rw [List.append_nil] at hlog
      rcases hmoment with rfl | ⟨earlier, j, lost, rfl, hcontended⟩
      · simp at hlog
      · obtain ⟨-, rfl⟩ := Event.settled.inj
          (List.singleton_inj.mp (List.append_inj' hlog rfl).2)
        exact ⟨by rw [hgate, hcontended]; rfl, nofun⟩
    · rw [List.concat_eq_append, ← List.append_assoc] at hlog
      obtain ⟨hbefore, he⟩ := List.append_inj' hlog rfl
      obtain rfl := List.singleton_inj.mp he
      obtain ⟨-, hentered⟩ := h before since' hbefore hmoment
        fun j c hmem => hlost j c (by simp [hmem])
      refine ⟨by rw [hgate, hlost i completed (by simp)]; rfl, ?_⟩
      intro j entry' hmem
      rw [List.concat_eq_append] at hmem
      rcases List.mem_append.mp hmem with hmem | hmem
      · exact hentered j entry' hmem
      · cases List.mem_singleton.mp hmem

/-! ## Runs -/

abbrev Reach : State → Prop :=
  Run.Reach (fun s => s = initial) fun s t => ∃ i a, step s i a = some t

theorem reach_inv {s : State} (h : Reach s) : Inv s ∧ StaysClosed s := by
  apply h.invariant
  · rintro _ rfl
    exact ⟨initial_inv, stays_closed_initial⟩
  · rintro s t - ⟨hinv, hclosed⟩ ⟨i, a, hstep⟩
    exact ⟨step_inv hinv hstep, step_stays_closed hclosed hstep⟩

/-- A call that entered since, and still runs, holds the lock. -/
theorem probe_of_runs {s : State} (h : Inv s) {since : List Event} (hsub : since ⊆ s.log)
    (hclosed : Closed s since) {i : Nat} (hentered : EnteredIn since i) (hruns : s.runs i) :
    s.probe = some i := by
  obtain ⟨entry, hexhausted, hmem⟩ := hentered
  have hfree := hclosed.entered i entry hmem
  have halone : entry = .alone := by
    cases entry with
    | free => exact absurd rfl hfree
    | alone => rfl
    | exhausted => exact absurd rfl hexhausted
  apply h.probe i
  rcases h.entered i entry (hsub hmem) with hphase | hphase
  · rw [halone] at hphase
    exact .inr hphase
  · rcases hruns with ⟨_, hrun⟩ | ⟨_, _, hrun⟩ <;> rw [hphase] at hrun <;> cases hrun

/-- **From startup and from every lost refresh, until some call settles without a lost refresh, of
the calls that entered since then at most one runs.** -/
theorem one_runs {s : State} (h : Reach s) (before since : List Event)
    (hlog : s.log = before ++ since) (hmoment : Moment before) (hlost : AllLost since) :
    OneRuns s since := by
  obtain ⟨hinv, hclosed⟩ := reach_inv h
  have hsince := hclosed before since hlog hmoment hlost
  have hsub : since ⊆ s.log := by
    rw [hlog]
    exact List.subset_append_right ..
  intro i j hi hj hri hrj
  have hpi := probe_of_runs hinv hsub hsince hi hri
  have hpj := probe_of_runs hinv hsub hsince hj hrj
  rw [hpi] at hpj
  exact Option.some.inj hpj

/-! ## A call that entered before the loss -/

theorem reach_run {s t : State} {actions : List (Nat × Action)} (h : Reach s)
    (hrun : run s actions = some t) : Reach t :=
  Run.keeps_of_actions (fun _ => rfl) (fun _ _ _ => rfl)
    (fun _ a _ hs ha => .step hs ⟨a.1, a.2, ha⟩) h hrun

theorem reach_of_run {actions : List (Nat × Action)}
    (h : (run initial actions).isSome = true) : Reach ((run initial actions).getD initial) := by
  obtain ⟨s, hs⟩ := Option.isSome_iff_exists.mp h
  rw [hs]
  exact reach_run (.start rfl) hs

/-- Two calls run side by side. The first loses the refresh, the second goes through after it, and
the next two run side by side again. -/
def sibling : List (Nat × Action) := [
  (0, .enter), (0, .acquire), (0, .look), (0, .finish (.finished false)), (0, .settle),
  (0, .release), (1, .enter), (2, .enter), (1, .finish (.finished true)), (1, .settle),
  (2, .finish (.finished false)), (2, .settle), (3, .enter), (4, .enter)]

theorem sibling_opens : ¬ ∀ (s : State) (before since : List Event), Reach s →
    s.log = before ++ since → Moment before →
    (∀ i entry completed, .entered i entry ∈ since → .settled i completed ∈ since →
      completed ≠ .finished false) → OneRuns s since := by
  intro h
  have hsince : ∀ i entry completed,
      .entered i entry ∈ [Event.settled 2 (.finished false), .entered 3 .free, .entered 4 .free] →
      .settled i completed ∈ [Event.settled 2 (.finished false), .entered 3 .free,
        .entered 4 .free] → completed ≠ .finished false := by
    intro i entry completed hentered hsettled
    simp only [List.mem_cons, reduceCtorEq, Event.entered.injEq, List.not_mem_nil, or_false,
      false_or, Event.settled.injEq] at hentered hsettled
    omega
  have hrun := h _ [.entered 0 .alone, .settled 0 (.finished false), .entered 1 .free,
      .entered 2 .free, .settled 1 (.finished true)]
    [.settled 2 (.finished false), .entered 3 .free, .entered 4 .free]
    (@reach_of_run sibling (by decide)) (by decide)
    (.inr ⟨[.entered 0 .alone, .settled 0 (.finished false), .entered 1 .free, .entered 2 .free],
      1, .finished true, rfl, rfl⟩) hsince
  have hsame := hrun 3 4 ⟨.free, by decide, by simp⟩ ⟨.free, by decide, by simp⟩
    (.inl ⟨.free, by decide⟩) (.inl ⟨.free, by decide⟩)
  cases hsame

/-- A second call waits for the one that goes alone, and the third does not any more. -/
theorem one_runs_startup : OneRuns ((run initial [(0, .enter), (0, .acquire), (0, .look),
    (1, .enter), (2, .enter), (2, .give_up)]).getD initial)
    [.entered 0 .alone, .entered 2 .exhausted] :=
  one_runs (reach_of_run (by decide)) [] _ (by decide) (.inl rfl) (by simp [AllLost])

end Fridica.Parent.LoginGate
