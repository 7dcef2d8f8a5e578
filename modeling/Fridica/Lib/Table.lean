import Mathlib.Data.List.Nodup
import Mathlib.Data.List.Perm.Basic
import Mathlib.Data.List.Perm.Subperm

/-!
# Lists as tables

Rows with a key that names each of them: lookups by the key, and what stays when one row is
changed or removed by its index.
-/

namespace Fridica.Table

variable {α κ : Type} {key : α → κ} {l : List α}

section Lookup

variable [DecidableEq κ]

theorem find_key {x : κ} {a : α} (h : l.find? (fun b => key b = x) = some a) :
    a ∈ l ∧ key a = x :=
  ⟨List.mem_of_find?_eq_some h, by simpa using List.find?_some h⟩

theorem find_key_iff (hl : (l.map key).Nodup) {x : κ} {a : α} :
    l.find? (fun b => key b = x) = some a ↔ a ∈ l ∧ key a = x := by
  constructor
  · exact find_key
  · rintro ⟨ha, rfl⟩
    cases h : l.find? fun b => key b = key a with
    | none => simpa using List.find?_eq_none.mp h a ha
    | some b =>
      obtain ⟨hb, hk⟩ := find_key h
      rw [List.inj_on_of_nodup_map hl hb ha hk]

/-- Inserting rows one by one, each in place of those with its key, leaves the last of each key. -/
theorem find_foldl_insert (x : κ) (rows acc : List α) :
    (rows.foldl (fun acc a => a :: acc.filter fun b => key b ≠ key a) acc).find?
      (fun b => key b = x) = (rows.reverse ++ acc).find? fun b => key b = x := by
  induction rows generalizing acc with
  | nil => rfl
  | cons a rows ih =>
    have hacc : (a :: acc.filter fun b => key b ≠ key a).find? (fun b => key b = x) =
        (a :: acc).find? fun b => key b = x := by
      by_cases hax : key a = x
      · simp [hax]
      · rw [List.find?_cons_of_neg (by simpa using hax), List.find?_cons_of_neg (by simpa using hax),
          List.find?_filter]
        congr 1
        funext b
        by_cases hb : key b = x
        · simp [hb, Ne.symm hax]
        · simp [hb]
    rw [List.foldl_cons, ih, List.find?_append, hacc, List.reverse_cons, List.append_assoc,
      List.find?_append, List.singleton_append]

theorem find_foldl_insert_nodup (hl : (l.map key).Nodup) (x : κ) :
    (l.foldl (fun acc a => a :: acc.filter fun b => key b ≠ key a) []).find?
      (fun b => key b = x) = l.find? fun b => key b = x := by
  have hrev : (l.reverse.map key).Nodup := by
    rw [List.map_reverse, List.nodup_reverse]
    exact hl
  rw [find_foldl_insert, List.append_nil]
  ext a
  rw [find_key_iff hrev, find_key_iff hl, List.mem_reverse]

theorem countP_le_besides (hl : (l.map key).Nodup) (p : α → Bool) (x : κ) :
    l.countP p ≤ l.countP (fun a => p a && decide (key a ≠ x)) + 1 := by
  induction l with
  | nil => simp
  | cons a l ih =>
    rw [List.map_cons, List.nodup_cons] at hl
    rw [List.countP_cons, List.countP_cons]
    by_cases hax : key a = x
    · have hrest : l.countP p ≤ l.countP fun a => p a && decide (key a ≠ x) := by
        refine List.countP_mono_left fun b hb hp => ?_
        have hbx : key b ≠ x := fun h => hl.1 (by rw [hax, ← h]; exact List.mem_map_of_mem hb)
        simpa [hbx] using hp
      split <;> omega
    · have hrest := ih hl.2
      have hp : (p a && decide (key a ≠ x)) = p a := by simp [hax]
      rw [hp]
      omega

end Lookup

theorem countP_lt_of_mem {p q : α → Bool} (h : ∀ b ∈ l, p b → q b) {a : α} (ha : a ∈ l)
    (hp : p a = false) (hq : q a) : l.countP p < l.countP q := by
  obtain ⟨s, t, rfl⟩ := List.append_of_mem ha
  have hs : s.countP p ≤ s.countP q :=
    List.countP_mono_left fun b hb => h b (List.mem_append_left _ hb)
  have ht : t.countP p ≤ t.countP q :=
    List.countP_mono_left fun b hb => h b (List.mem_append_right _ (List.mem_cons_of_mem a hb))
  rw [List.countP_append, List.countP_append, List.countP_cons, List.countP_cons, if_pos hq, hp,
    if_neg (by simp)]
  omega

/-! ## One row, by its index -/

theorem mem_modify {f : α → α} {i : Nat} {a : α} (h : a ∈ l.modify i f) :
    a ∈ l ∨ ∃ b, l[i]? = some b ∧ a = f b := by
  obtain ⟨j, hj⟩ := List.mem_iff_getElem?.mp h
  rw [List.getElem?_modify] at hj
  obtain ⟨b, hb, hab⟩ := Option.map_eq_some_iff.mp hj
  by_cases hij : i = j
  · subst hij
    rw [if_pos rfl] at hab
    exact .inr ⟨b, hb, hab.symm⟩
  · rw [if_neg hij] at hab
    exact .inl (hab ▸ List.mem_of_getElem? hb)

theorem map_modify {f : α → α} (hf : ∀ a, key (f a) = key a) (i : Nat) :
    (l.modify i f).map key = l.map key := by
  induction l generalizing i with
  | nil => simp
  | cons a l ih => cases i <;> simp [hf, ih]

theorem countP_modify_le {p q : α → Bool} {f : α → α} (i : Nat)
    (hl : ∀ a ∈ l, p a → q a) (hf : ∀ a, l[i]? = some a → p (f a) → q a) :
    (l.modify i f).countP p ≤ l.countP q := by
  induction l generalizing i with
  | nil => simp
  | cons a l ih =>
    cases i with
    | zero =>
      rw [List.modify_zero_cons, List.countP_cons, List.countP_cons]
      have hrest := List.countP_mono_left fun b hb => hl b (List.mem_cons_of_mem a hb)
      by_cases hp : p (f a)
      · rw [if_pos hp, if_pos (hf a rfl hp)]
        omega
      · rw [if_neg hp]
        omega
    | succ i =>
      rw [List.modify_succ_cons, List.countP_cons, List.countP_cons]
      have hrest := ih i (fun b hb => hl b (List.mem_cons_of_mem a hb)) (fun b hb => hf b hb)
      by_cases hp : p a
      · rw [if_pos hp, if_pos (hl a List.mem_cons_self hp)]
        omega
      · rw [if_neg hp]
        omega

theorem key_of_mem_eraseIdx (hl : (l.map key).Nodup) {i : Nat} {a b : α} (hi : l[i]? = some b)
    (ha : a ∈ l.eraseIdx i) : key a ≠ key b := by
  induction l generalizing i with
  | nil => simp at hi
  | cons c l ih =>
    rw [List.map_cons, List.nodup_cons] at hl
    cases i with
    | zero =>
      obtain rfl : c = b := by simpa using hi
      intro hab
      exact hl.1 (hab ▸ List.mem_map_of_mem ha)
    | succ i =>
      rw [List.eraseIdx_cons_succ, List.mem_cons] at ha
      rcases ha with rfl | ha
      · intro hab
        exact hl.1 (hab ▸ List.mem_map_of_mem (List.mem_of_getElem? hi))
      · exact ih hl.2 hi ha

end Fridica.Table
