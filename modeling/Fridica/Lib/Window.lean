import Mathlib.Data.List.Sort
import Mathlib.Order.MinMax

/-!
# Counting in an ascending list

A sliding window over an ascending list of times is a suffix of it. What a rate
limit asks is how many entries lie past a cut, and which entry is the `n`-th
from the end; the two questions have the same answer.
-/

namespace Fridica.Window

variable {α β : Type} [LinearOrder β]

/-- The `n`-th entry from the end, if there are that many. -/
def fromEnd (n : Nat) (l : List α) : Option α :=
  if n ≤ l.length then l[l.length - n]? else none

theorem fromEnd_append_cons (a : List α) (x : α) (b : List α) :
    fromEnd (b.length + 1) (a ++ x :: b) = some x := by
  rw [fromEnd, if_pos (by simp)]
  simp

theorem exists_split {n : Nat} {l : List α} (hn : 0 < n) (hle : n ≤ l.length) :
    ∃ a x b, l = a ++ x :: b ∧ b.length + 1 = n := by
  have hlt : l.length - n < l.length := by omega
  refine ⟨l.take (l.length - n), l[l.length - n], l.drop (l.length - n + 1), ?_, ?_⟩
  · rw [← List.drop_eq_getElem_cons hlt, List.take_append_drop]
  · rw [List.length_drop]
    omega

theorem fromEnd_none {n : Nat} {l : List α} (h : l.length < n) : fromEnd n l = none := by
  rw [fromEnd, if_neg (by omega)]

/-- In an ascending list, the `n`-th entry from the end is past the cut exactly
when at least `n` entries are. -/
theorem lt_fromEnd_iff (key : α → β) {l : List α} (hl : l.Pairwise fun x y => key x ≤ key y)
    {n : Nat} (hn : 0 < n) (c : β) :
    (∃ x, fromEnd n l = some x ∧ c < key x) ↔ n ≤ l.countP fun x => c < key x := by
  by_cases hle : n ≤ l.length
  · obtain ⟨a, x, b, rfl, rfl⟩ := exists_split hn hle
    rw [fromEnd_append_cons]
    rw [List.pairwise_append] at hl
    obtain ⟨-, hxb, hax⟩ := hl
    have hafter : ∀ y ∈ b, key x ≤ key y := (List.pairwise_cons.mp hxb).1
    have hbefore : ∀ y ∈ a, key y ≤ key x := fun y hy => hax y hy x (by simp)
    simp only [Option.some.injEq, exists_eq_left', List.countP_append, List.countP_cons]
    constructor
    · intro hc
      have hall : b.countP (fun y => decide (c < key y)) = b.length := by
        rw [List.countP_eq_length]
        intro y hy
        simpa using hc.trans_le (hafter y hy)
      rw [hall, if_pos (by simpa using hc)]
      omega
    · intro hcount
      by_contra hc
      have hnone : a.countP (fun y => decide (c < key y)) = 0 := by
        rw [List.countP_eq_zero]
        intro y hy
        simpa using (hbefore y hy).trans (not_lt.mp hc)
      have hle := List.countP_le_length (p := fun y => decide (c < key y)) (l := b)
      rw [hnone, if_neg (by simpa using hc)] at hcount
      omega
  · have hlen : l.countP (fun x => decide (c < key x)) ≤ l.length := List.countP_le_length
    rw [fromEnd_none (by omega)]
    constructor
    · rintro ⟨x, hx, -⟩
      cases hx
    · intro h
      omega

theorem countP_filter_of_le (key : α → β) {c d : β} (hcd : c ≤ d) (l : List α) :
    (l.filter fun x => c < key x).countP (fun x => d < key x) = l.countP fun x => d < key x := by
  rw [List.countP_filter]
  apply List.countP_congr
  intro x _
  simp only [Bool.and_eq_true, decide_eq_true_eq, and_iff_left_iff_imp]
  exact fun h => hcd.trans_lt h

end Fridica.Window
