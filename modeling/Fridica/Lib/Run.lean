import Mathlib.Logic.Relation

/-!
# Runs

The states that a system reaches by its steps, what holds in all of them, and what later states
keep of earlier ones.
-/

namespace Fridica.Run

variable {S : Type*}

inductive Reach (init : S → Prop) (step : S → S → Prop) : S → Prop
  | start {s : S} : init s → Reach init step s
  | step {s t : S} : Reach init step s → step s t → Reach init step t

variable {init : S → Prop} {step : S → S → Prop}

/-- What holds at the start and survives every step holds in every state reached. -/
theorem Reach.invariant {I : S → Prop} (hinit : ∀ s, init s → I s)
    (hstep : ∀ s t, Reach init step s → I s → step s t → I t) {s : S} (h : Reach init step s) :
    I s := by
  induction h with
  | start hs => exact hinit _ hs
  | step hs hst ih => exact hstep _ _ hs ih hst

theorem Reach.trans {s t : S} (h : Reach init step s) (hst : Relation.ReflTransGen step s t) :
    Reach init step t := by
  induction hst with
  | refl => exact h
  | tail _ hlast ih => exact .step ih hlast

/-- What one step from any state reached keeps, all later states keep. -/
theorem Reach.later {P : S → Prop} {s t : S} (h : Reach init step s)
    (hst : Relation.ReflTransGen step s t)
    (hkeep : ∀ u v, Reach init step u → step u v → P u → P v) (hs : P s) : P t := by
  induction hst with
  | refl => exact hs
  | tail hsu hlast ih => exact hkeep _ _ (h.trans hsu) hlast ih

/-! ## Runs of actions -/

section Actions

variable {A : Type*} {next : S → A → Option S} {run : S → List A → Option S}

/-- What every action keeps, a run of them keeps. -/
theorem keeps_of_actions (hnil : ∀ s, run s [] = some s)
    (hcons : ∀ s a l, run s (a :: l) = (next s a).bind (run · l)) {I : S → Prop}
    (hnext : ∀ s a t, I s → next s a = some t → I t) {l : List A} {s t : S} (hs : I s)
    (h : run s l = some t) : I t := by
  induction l generalizing s with
  | nil =>
    rw [hnil] at h
    exact Option.some.inj h ▸ hs
  | cons a l ih =>
    rw [hcons] at h
    obtain ⟨u, hu, hrest⟩ := Option.bind_eq_some_iff.mp h
    exact ih (hnext s a u hs hu) hrest

end Actions

end Fridica.Run
