import Mathlib.Data.List.Nodup
import Mathlib.Data.List.Range
import Mathlib.Data.List.Perm.Subperm

/-!
# A name that is not taken

Numbered candidates are tried until one is free. Among more candidates than there are taken names
one is.
-/

namespace Fridica.Fresh

variable {α : Type} [DecidableEq α] {f : Nat → α} {taken : List α}

/-- The first free candidate from a number on, for as many rounds as there is fuel. -/
def search (f : Nat → α) (taken : List α) : Nat → Nat → Option α
  | 0, _ => none
  | fuel + 1, n => if f n ∈ taken then search f taken fuel (n + 1) else some (f n)

theorem search_none {fuel n : Nat} (h : search f taken fuel n = none) :
    ∀ k < fuel, f (n + k) ∈ taken := by
  induction fuel generalizing n with
  | zero => omega
  | succ fuel ih =>
    rw [search] at h
    split at h
    next hn =>
      intro k hk
      cases k with
      | zero => exact hn
      | succ k =>
        have hrest := ih h k (by omega)
        rwa [Nat.add_right_comm] at hrest
    next => cases h

theorem search_some {fuel n : Nat} {a : α} (h : search f taken fuel n = some a) :
    ∃ m, n ≤ m ∧ a = f m ∧ f m ∉ taken ∧ ∀ k, n ≤ k → k < m → f k ∈ taken := by
  induction fuel generalizing n with
  | zero => cases h
  | succ fuel ih =>
    rw [search] at h
    split at h
    next hn =>
      obtain ⟨m, hm, ha, hfree, hall⟩ := ih h
      refine ⟨m, by omega, ha, hfree, fun k hk hkm => ?_⟩
      by_cases hkn : k = n
      · rwa [hkn]
      · exact hall k (by omega) hkm
    next hn => exact ⟨n, Nat.le_refl n, (Option.some.inj h).symm, hn, fun k hk hkn => by omega⟩

/-- With more fuel than there are taken names, a search ends. -/
theorem search_ends (hf : ∀ i j, f i = f j → i = j) {fuel : Nat} (hfuel : taken.length < fuel)
    (n : Nat) : ∃ a, search f taken fuel n = some a := by
  cases h : search f taken fuel n with
  | some a => exact ⟨a, rfl⟩
  | none =>
    have hall := search_none h
    have hnodup : ((List.range fuel).map fun k => f (n + k)).Nodup := by
      refine List.Nodup.map (fun i j hij => ?_) List.nodup_range
      have heq := hf _ _ hij
      omega
    have hsub : ((List.range fuel).map fun k => f (n + k)) ⊆ taken := by
      intro a ha
      obtain ⟨k, hk, rfl⟩ := List.mem_map.mp ha
      exact hall k (List.mem_range.mp hk)
    have hlen := (List.subperm_of_subset hnodup hsub).length_le
    rw [List.length_map, List.length_range] at hlen
    omega

end Fridica.Fresh
