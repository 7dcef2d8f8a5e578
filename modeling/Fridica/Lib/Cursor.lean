import Mathlib.Data.List.Basic

/-!
# Reading a ledger by its cursor

A ledger is sorted by the cursor of its records. A page is the next records after a cursor, and the
cursor of its last record is where the next page starts.
-/

namespace Fridica.Cursor

variable {α κ : Type} [LE κ] [LT κ] [DecidableLT κ] [Std.IsLinearOrder κ] [Std.LawfulOrderLT κ]
variable (key : α → κ)

/-- The records after a cursor. -/
def unread (ledger : List α) (after : κ) : List α := ledger.filter fun e => decide (after < key e)

/-- The cursor after some records. -/
def last (after : κ) (rows : List α) : κ := rows.foldl (fun _ row => key row) after

variable {key} {ledger : List α} {after : κ}

omit [LE κ] [LT κ] [DecidableLT κ] [Std.IsLinearOrder κ] [Std.LawfulOrderLT κ] in
theorem last_concat (rows : List α) (e : α) : last key after (rows ++ [e]) = key e := by
  unfold last
  rw [List.foldl_append]
  rfl

omit [LE κ] [LT κ] [DecidableLT κ] [Std.IsLinearOrder κ] [Std.LawfulOrderLT κ] in
theorem last_of_getLast? {rows : List α} {e : α} (h : rows.getLast? = some e) :
    last key after rows = key e := by
  rw [← List.dropLast_append_getLast? e h, last_concat]

theorem unread_last (hsorted : ledger.Pairwise fun x y => key x < key y) (after : κ) {n : Nat}
    (hn : 0 < n) :
    unread key ledger (last key after ((unread key ledger after).take n)) =
      (unread key ledger after).drop n := by
  have hpage : (unread key ledger after).Pairwise fun x y => key x < key y := hsorted.filter _
  rcases List.eq_nil_or_concat ((unread key ledger after).take n) with hnil | ⟨init, e, hlast⟩
  · rw [hnil]
    have hunread : unread key ledger after = [] := by
      apply (List.take_eq_nil_iff.mp hnil).resolve_left
      omega
    rw [hunread, List.drop_nil]
    exact hunread
  · have hmem : e ∈ unread key ledger after := by
      apply List.take_subset n
      rw [hlast]
      simp
    have hafter : after < key e := by simpa [unread] using (List.mem_filter.mp hmem).2
    rw [← List.take_append_drop n (unread key ledger after), hlast, List.concat_eq_append,
      List.append_assoc, List.pairwise_append] at hpage
    obtain ⟨-, hrest, hbefore⟩ := hpage
    have hsame : unread key ledger (key e) = (unread key ledger after).filter (key e < key ·) := by
      unfold unread
      rw [List.filter_filter]
      apply List.filter_congr
      intro x _
      by_cases hx : key e < key x
      · simp [hx, Std.lt_trans hafter hx]
      · simp [hx]
    rw [hlast, List.concat_eq_append, last_concat, hsame]
    conv_lhs => rw [← List.take_append_drop n (unread key ledger after), hlast]
    rw [List.concat_eq_append, List.filter_append, List.filter_eq_nil_iff.mpr, List.nil_append,
      List.filter_eq_self.mpr]
    · intro x hx
      simpa using List.rel_of_pairwise_cons hrest hx
    · intro x hx
      rcases List.mem_append.mp hx with hx | hx
      · have hlt := hbefore x hx e (by simp)
        simpa using Std.not_gt_of_lt hlt
      · rw [List.mem_singleton.mp hx]
        simpa using Std.lt_irrefl

end Fridica.Cursor
