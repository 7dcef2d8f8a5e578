import Mathlib.Data.Nat.Basic
import Mathlib.Tactic.Cases

/-!
# Streaks

A streak is counted while events extend it. It is told of once, when its count comes to a
threshold; after a change of the threshold it may be told of again.
-/

namespace Fridica.Streak

/-- What an event does to a streak. -/
inductive Move
  | extend
  | hold
  | reset
deriving DecidableEq

structure Watch where
  count : Nat
  threshold : Nat
  /-- Whether the streak has been told of under this threshold. -/
  told : Bool
deriving DecidableEq

/-- Before any event. -/
def fresh : Watch := ⟨0, 0, false⟩

/-- Nothing has been told of under a changed threshold. -/
def Watch.set (w : Watch) (k : Nat) : Watch := ⟨w.count, k, w.told && decide (w.threshold = k)⟩

/-- The streak is told of at this event. -/
def Watch.due (w : Watch) (m : Move) : Bool :=
  decide (m = .extend) && !w.told && decide (w.threshold ≤ w.count + 1)

def Watch.next (w : Watch) (m : Move) : Watch :=
  match m with
  | .extend => ⟨w.count + 1, w.threshold, w.told || decide (w.threshold ≤ w.count + 1)⟩
  | .hold => w
  | .reset => ⟨0, w.threshold, false⟩

/-- The event brings the streak to its threshold. -/
def Watch.comes (w : Watch) (m : Move) : Prop := m = .extend ∧ w.count + 1 = w.threshold

/-- The event extends a streak that is past its threshold and was not told of. -/
def Watch.late (w : Watch) (m : Move) : Prop :=
  m = .extend ∧ w.threshold ≤ w.count ∧ w.told = false

instance (w : Watch) (m : Move) : Decidable (w.comes m) := inferInstanceAs (Decidable (_ ∧ _))

instance (w : Watch) (m : Move) : Decidable (w.late m) := inferInstanceAs (Decidable (_ ∧ _ ∧ _))

@[simp] theorem Watch.set_count (w : Watch) (k : Nat) : (w.set k).count = w.count := rfl

@[simp] theorem Watch.set_threshold (w : Watch) (k : Nat) : (w.set k).threshold = k := rfl

@[simp] theorem Watch.next_threshold (w : Watch) (m : Move) :
    (w.next m).threshold = w.threshold := by
  cases m <;> rfl

/-- Only a streak at its threshold or past it has been told of. -/
def Watch.Sound (w : Watch) : Prop := w.told = true → w.threshold ≤ w.count

/-- All streaks at their threshold or past it have been told of. -/
def Watch.Exact (w : Watch) : Prop := w.told = true ↔ w.threshold ≤ w.count

theorem fresh_sound : fresh.Sound := fun _ => Nat.zero_le _

theorem fresh_exact {k : Nat} (hk : 0 < k) : (fresh.set k).Exact := by
  unfold Watch.Exact Watch.set fresh
  simp only [Bool.false_and, Bool.false_eq_true, false_iff]
  omega

theorem Watch.Sound.set {w : Watch} (h : w.Sound) (k : Nat) : (w.set k).Sound := by
  intro htold
  obtain ⟨hbefore, hk⟩ := Bool.and_eq_true_iff.mp htold
  have hle := h hbefore
  rwa [of_decide_eq_true hk] at hle

theorem Watch.Sound.next {w : Watch} (h : w.Sound) (m : Move) : (w.next m).Sound := by
  cases m with
  | hold => exact h
  | reset =>
    intro htold
    cases htold
  | extend =>
    intro htold
    rcases Bool.or_eq_true_iff.mp htold with hbefore | hnow
    · exact Nat.le_succ_of_le (h hbefore)
    · exact of_decide_eq_true hnow

/-- An event is told of when it brings a streak to its threshold, or extends one that is late. -/
theorem Watch.Sound.due_iff {w : Watch} (h : w.Sound) (m : Move) :
    w.due m = true ↔ w.comes m ∨ w.late m := by
  unfold due comes late
  simp only [Bool.and_eq_true, decide_eq_true_eq, Bool.not_eq_true']
  constructor
  · rintro ⟨⟨hm, htold⟩, hle⟩
    by_cases heq : w.count + 1 = w.threshold
    · exact .inl ⟨hm, heq⟩
    · exact .inr ⟨hm, by omega, htold⟩
  · rintro (⟨hm, heq⟩ | ⟨hm, hle, htold⟩)
    · refine ⟨⟨hm, ?_⟩, by omega⟩
      by_contra htold
      have hle := h (by simpa using htold)
      omega
    · exact ⟨⟨hm, htold⟩, by omega⟩

theorem Watch.Exact.next {w : Watch} (h : w.Exact) (hpos : 0 < w.threshold) (m : Move) :
    (w.next m).Exact := by
  cases m with
  | hold => exact h
  | reset =>
    unfold Exact Watch.next
    simp only [Bool.false_eq_true, false_iff]
    omega
  | extend =>
    show (w.told || decide (w.threshold ≤ w.count + 1)) = true ↔ w.threshold ≤ w.count + 1
    rw [Bool.or_eq_true_iff, decide_eq_true_eq]
    refine ⟨?_, .inr⟩
    rintro (htold | hle)
    · have hle := h.mp htold
      omega
    · exact hle

/-- Under one threshold a streak is told of when its count comes to it, and never again. -/
theorem Watch.Exact.due_iff {w : Watch} (h : w.Exact) (m : Move) :
    w.due m = true ↔ w.comes m := by
  rw [Sound.due_iff h.mp]
  refine ⟨?_, .inl⟩
  rintro (hcomes | ⟨-, hle, htold⟩)
  · exact hcomes
  · rw [h.mpr hle] at htold
    cases htold

end Fridica.Streak
