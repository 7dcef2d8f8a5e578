import Fridica.Config.Contract.Spec

/-! # What the grammar matches -/

namespace Fridica.Config.ContractText

open Fridica.Regex

/-! ## Blanks -/

section Blanks

variable {q : Char → Bool} {t : Text} {k : Nat}

theorem whitespace_newline : whitespace '\n' = true := by decide

theorem whitespace_sign : whitespace '#' = false := by decide

theorem takeWhile_drop (h : k ≤ (t.takeWhile q).length) :
    (t.drop k).takeWhile q = (t.takeWhile q).drop k := by
  induction t generalizing k with
  | nil => simp
  | cons c t ih =>
    cases k with
    | zero => rfl
    | succ k =>
      by_cases hc : q c = true
      · rw [List.takeWhile_cons_of_pos hc] at h ⊢
        exact ih (Nat.le_of_succ_le_succ h)
      · rw [List.takeWhile_cons_of_neg hc] at h
        cases h

theorem drop_takeWhile (q : Char → Bool) (t : Text) :
    t.drop (t.takeWhile q).length = t.dropWhile q := by
  induction t with
  | nil => rfl
  | cons c t ih =>
    by_cases hc : q c = true
    · rw [List.takeWhile_cons_of_pos hc, List.dropWhile_cons_of_pos hc]
      exact ih
    · rw [List.takeWhile_cons_of_neg hc, List.dropWhile_cons_of_neg hc]
      rfl

theorem all_drop_iff {n : Nat} (hn : n ≤ t.length) :
    (t.drop n).all q = true ↔ (t.rdropWhile q).length ≤ n := by
  induction t using List.reverseRecOn with
  | nil => simp
  | append_singleton t c ih =>
    rw [List.length_append, List.length_singleton] at hn
    by_cases hlast : n = t.length + 1
    · rw [List.drop_eq_nil_of_le (by simp [hlast])]
      refine ⟨fun _ => ?_, fun _ => rfl⟩
      refine (List.rdropWhile_prefix q (t ++ [c])).length_le.trans ?_
      simp [hlast]
    · rw [List.drop_append_of_le_length (by omega), List.all_append, Bool.and_eq_true,
        ih (by omega)]
      by_cases hc : q c = true
      · rw [List.rdropWhile_concat_pos _ _ _ hc]
        simp [hc]
      · rw [List.rdropWhile_concat_neg _ _ _ hc, List.length_append, List.length_singleton]
        simp only [List.all_cons, hc, Bool.false_and, Bool.false_eq_true, and_false, false_iff]
        omega

/-- The line that a text begins with. -/
def first_line (t : Text) : Text := t.takeWhile (· ≠ '\n')

theorem blank_line_length (h : (first_line t).all whitespace = true) :
    (first_line t).length ≤ (t.takeWhile whitespace).length := by
  unfold first_line at h ⊢
  induction t with
  | nil => exact Nat.le_refl _
  | cons c t ih =>
    by_cases hc : c = '\n'
    · rw [List.takeWhile_cons_of_neg (by simp [hc])]
      exact Nat.zero_le _
    · rw [List.takeWhile_cons_of_pos (by simp [hc])] at h ⊢
      rw [List.all_cons, Bool.and_eq_true] at h
      rw [List.takeWhile_cons_of_pos h.1]
      exact Nat.succ_le_succ (ih h.2)

theorem no_newline_yet (h : ¬ (first_line t).all whitespace = true)
    (hk : k ≤ (t.takeWhile whitespace).length) : ∃ c, (t.drop k).head? = some c ∧ c ≠ '\n' := by
  unfold first_line at h
  induction t generalizing k with
  | nil => exact absurd rfl h
  | cons c t ih =>
    by_cases hc : c = '\n'
    · rw [List.takeWhile_cons_of_neg (by simp [hc])] at h
      exact absurd rfl h
    · cases k with
      | zero => exact ⟨c, rfl, hc⟩
      | succ k =>
        by_cases hblank : whitespace c = true
        · rw [List.takeWhile_cons_of_pos (by simp [hc]), List.all_cons, hblank,
            Bool.true_and] at h
          rw [List.takeWhile_cons_of_pos hblank] at hk
          exact ih h (Nat.le_of_succ_le_succ hk)
        · rw [List.takeWhile_cons_of_neg hblank] at hk
          cases hk

theorem first_of_dropWhile (t : Text) :
    ∀ c ∈ (t.dropWhile whitespace).head?, whitespace c = false := by
  intro c hc
  have hhead := List.head?_dropWhile_not whitespace t
  rw [Option.mem_def.mp hc] at hhead
  exact hhead

theorem first_line_first {rest : Text} (hne : rest ≠ [])
    (hfirst : ∀ c ∈ rest.head?, whitespace c = false) :
    first_line rest ≠ [] ∧ ∀ c ∈ (first_line rest).head?, whitespace c = false := by
  obtain ⟨c, t, rfl⟩ := List.exists_cons_of_ne_nil hne
  have hc : whitespace c = false := hfirst c rfl
  have hnewline : c ≠ '\n' := by
    rintro rfl
    rw [whitespace_newline] at hc
    cases hc
  rw [first_line, List.takeWhile_cons_of_pos (by simp [hnewline])]
  refine ⟨List.cons_ne_nil _ _, fun d hd => ?_⟩
  rw [← Option.some.inj (Option.mem_def.mp hd)]
  exact hc

theorem title_ne_nil {rest : Text} (hne : rest ≠ [])
    (hfirst : ∀ c ∈ rest.head?, whitespace c = false) :
    (first_line rest).rdropWhile whitespace ≠ [] := by
  obtain ⟨hline, hfirst⟩ := first_line_first hne hfirst
  obtain ⟨c, t, ht⟩ := List.exists_cons_of_ne_nil hline
  rw [ht] at hfirst ⊢
  intro hnil
  have hblank := List.rdropWhile_eq_nil_iff.mp hnil c List.mem_cons_self
  rw [hfirst c rfl] at hblank
  cases hblank

end Blanks

/-! ## The end of a heading -/

section Closing

variable {p : Place}

theorem tried_line_end (n : Nat) : tried (fun _ => assert line_end) p n =
    if line_end (p.advance n) then some ((), p.advance n) else none := by
  show (if line_end (p.advance n) then [((), p.advance n)] else []).head? = _
  split <;> rfl

theorem line_end_first_line : line_end (p.advance (first_line p.after).length) = true := by
  show (p.after.drop (first_line p.after).length).head?.all (· = '\n') = true
  rw [first_line, drop_takeWhile]
  have hhead := List.head?_dropWhile_not (· ≠ '\n') p.after
  cases h : (p.after.dropWhile (· ≠ '\n')).head? with
  | none => rfl
  | some c =>
    rw [h] at hhead
    simpa using hhead

theorem closing_some (h : (first_line p.after).all whitespace = true) :
    ∃ j q, (closing p).head? = some ((), q) ∧ q.after = p.after.drop j ∧
      (first_line p.after).length ≤ j ∧ j ≤ (p.after.takeWhile whitespace).length := by
  have hsome : (tried (fun _ => assert line_end) p (first_line p.after).length).isSome := by
    rw [tried_line_end, if_pos line_end_first_line]
    rfl
  obtain ⟨j, r, hle, hj, htried, hhead⟩ :=
    greedy_success none whitespace (Nat.zero_le _) (blank_line_length h) hsome
  rw [tried_line_end] at htried
  split at htried
  · rw [← Option.some.inj htried] at hhead
    exact ⟨j, _, hhead, rfl, hle, hj⟩
  · cases htried

theorem closing_none (h : ¬ (first_line p.after).all whitespace = true) :
    (closing p).head? = none := by
  refine greedy_failure fun n _ hn => ?_
  obtain ⟨c, hhead, hc⟩ := no_newline_yet h hn
  rw [tried_line_end, if_neg]
  show ¬ (p.after.drop n).head?.all (· = '\n') = true
  rw [hhead]
  simpa using hc

theorem closing_blank (h : p.after.all whitespace = true) :
    ∃ q, (closing p).head? = some ((), q) ∧ q.after = [] := by
  have hall : p.after.takeWhile whitespace = p.after :=
    List.takeWhile_eq_self_iff.mpr (List.all_eq_true.mp h)
  have hsome : (tried (fun _ => assert line_end) p p.after.length).isSome := by
    rw [tried_line_end, if_pos]
    · rfl
    · show (p.after.drop p.after.length).head?.all (· = '\n') = true
      rw [List.drop_length]
      rfl
  have hreach : p.after.length ≤ reach none whitespace p.after := by
    show p.after.length ≤ (p.after.takeWhile whitespace).length
    rw [hall]
  obtain ⟨j, r, hle, -, htried, hhead⟩ :=
    greedy_success none whitespace (Nat.zero_le _) hreach hsome
  rw [tried_line_end] at htried
  split at htried
  · rw [← Option.some.inj htried] at hhead
    exact ⟨_, hhead, List.drop_eq_nil_of_le hle⟩
  · cases htried

end Closing

/-! ## The title -/

section Title

variable {p : Place}

theorem tried_closing (n : Nat) :
    tried (fun t => do closing; return t) p n =
      (closing (p.advance n)).head?.map fun r => (p.after.take n, r.2) := by
  show (List.flatMap (fun r => [(p.after.take n, r.2)]) (closing (p.advance n))).head? = _
  generalize closing (p.advance n) = l
  cases l <;> rfl

theorem first_line_advance {n : Nat} (h : n ≤ (first_line p.after).length) :
    first_line (p.advance n).after = (first_line p.after).drop n := takeWhile_drop h

theorem closing_early {n : Nat} (h : n < ((first_line p.after).rdropWhile whitespace).length) :
    (closing (p.advance n)).head? = none := by
  refine closing_none fun hall => ?_
  have hle := (List.rdropWhile_prefix whitespace (first_line p.after)).length_le
  rw [first_line_advance (by omega), all_drop_iff (by omega)] at hall
  omega

theorem title_some (hne : p.after ≠ []) (hfirst : ∀ c ∈ p.after.head?, whitespace c = false) :
    ∃ q n, (title_line p).head? = some ((first_line p.after).rdropWhile whitespace, q) ∧
      q.after = p.after.drop ((first_line p.after).length + n) ∧
      n ≤ ((p.after.drop (first_line p.after).length).takeWhile whitespace).length := by
  have hpre := List.rdropWhile_prefix whitespace (first_line p.after)
  have hlow : 1 ≤ ((first_line p.after).rdropWhile whitespace).length :=
    List.length_pos_iff.mpr (title_ne_nil hne hfirst)
  have hall : (first_line (p.advance ((first_line p.after).rdropWhile whitespace).length).after).all
      whitespace = true := by
    rw [first_line_advance hpre.length_le, all_drop_iff hpre.length_le]
  obtain ⟨j, q, hclosing, hq, hle, hj⟩ := closing_some hall
  rw [first_line_advance hpre.length_le, List.length_drop] at hle
  refine ⟨q, ((first_line p.after).rdropWhile whitespace).length + j - (first_line p.after).length,
    ?_, ?_, ?_⟩
  · refine lazy_success hlow hpre.length_le ?_ fun m _ hm => ?_
    · have htake := List.prefix_iff_eq_take.mp (hpre.trans (List.takeWhile_prefix _))
      rw [tried_closing, hclosing, ← htake]
      rfl
    · rw [tried_closing, closing_early hm]
      rfl
  · rw [hq]
    show (p.after.drop _).drop j = _
    rw [List.drop_drop]
    congr 1
    omega
  · have hsum : (first_line p.after).length = ((first_line p.after).rdropWhile whitespace).length +
        ((first_line p.after).length - ((first_line p.after).rdropWhile whitespace).length) := by
      have hlen := hpre.length_le
      omega
    have hblanks : (first_line p.after).length -
        ((first_line p.after).rdropWhile whitespace).length ≤
          ((p.after.drop ((first_line p.after).rdropWhile whitespace).length).takeWhile
            whitespace).length := hle.trans hj
    have hj : j ≤ ((p.after.drop ((first_line p.after).rdropWhile whitespace).length).takeWhile
        whitespace).length := hj
    rw [hsum, ← List.drop_drop, takeWhile_drop hblanks, List.length_drop]
    omega

theorem title_blank (h : p.after.all whitespace = true) {c : Char} (hc : p.after.head? = some c)
    (hnewline : c ≠ '\n') :
    ∃ q, (title_line p).head? = some ([c], q) ∧ q.after = [] ∧ whitespace c = true := by
  obtain ⟨t, ht⟩ := List.head?_eq_some_iff.mp hc
  rw [ht, List.all_cons, Bool.and_eq_true] at h
  have hrest : (p.advance 1).after.all whitespace = true := by
    show (p.after.drop 1).all whitespace = true
    rw [ht]
    exact h.2
  obtain ⟨q, hclosing, hq⟩ := closing_blank hrest
  refine ⟨q, lazy_success (Nat.le_refl 1) ?_ ?_ fun m hlow hm => by omega, hq, h.1⟩
  · show 1 ≤ (p.after.takeWhile (· ≠ '\n')).length
    rw [ht, List.takeWhile_cons_of_pos (by simp [hnewline])]
    exact Nat.succ_le_succ (Nat.zero_le _)
  · rw [tried_closing, hclosing, ht]
    rfl

theorem title_none (h : ∀ c ∈ p.after.head?, c = '\n') : (title_line p).head? = none := by
  refine lazy_failure fun n hlow hn => ?_
  have hreach : reach none (fun c => decide (c ≠ '\n')) p.after = 0 := by
    show (p.after.takeWhile (· ≠ '\n')).length = 0
    cases ht : p.after with
    | nil => rfl
    | cons c t =>
      rw [List.takeWhile_cons_of_neg]
      · rfl
      · have hc := h c (by rw [ht]; rfl)
        simp [hc]
  rw [hreach] at hn
  omega

end Title

/-! ## A heading -/

section Heading

variable {p : Place}

/-- What comes after the two number signs. -/
def after_signs : Pattern Text := do
  let _ ← greedy 1 none whitespace
  title_line

theorem grammar_head : (grammar p).head? =
    if line_start p = true ∧ ['#', '#'] <+: p.after then (after_signs (p.advance 2)).head?
    else none := by
  have hliteral : literal (· = ·) ['#', '#'] p =
      if ['#', '#'] <+: p.after then [(['#', '#'], p.advance 2)] else [] := by
    unfold literal
    rcases hp : p.after with _ | ⟨a, _ | ⟨b, t⟩⟩
    · simp
    · simp
    · simp only [List.length_cons, List.length_nil, List.zip_cons_cons, List.zip_nil_left,
        List.all_cons, List.all_nil, List.cons_prefix_cons, List.nil_prefix, and_true,
        Bool.and_true, Bool.and_eq_true, decide_eq_true_eq]
      by_cases hab : '#' = a ∧ '#' = b
      · rw [if_pos hab, if_pos ⟨by omega, hab⟩, ← hab.1, ← hab.2]
        rfl
      · rw [if_neg hab, if_neg (fun h => hab h.2)]
  show (List.flatMap _ (assert line_start p)).head? = _
  unfold assert
  by_cases hstart : line_start p = true
  · rw [if_pos hstart]
    show ((List.flatMap _ (literal (· = ·) ['#', '#'] p)) ++ []).head? = _
    rw [hliteral, List.append_nil]
    by_cases hsigns : ['#', '#'] <+: p.after
    · rw [if_pos hsigns, if_pos ⟨hstart, hsigns⟩]
      show (List.append (after_signs (p.advance 2)) []).head? = _
      exact congrArg List.head? (List.append_nil _)
    · rw [if_neg hsigns, if_neg (fun h => hsigns h.2)]
      rfl
  · rw [if_neg hstart, if_neg (fun h => hstart h.1)]
    rfl

theorem after_signs_none (h : p.after.head?.any whitespace = false) :
    (after_signs p).head? = none := by
  refine greedy_failure fun n hlow hn => ?_
  have hreach : reach none whitespace p.after = 0 := by
    show (p.after.takeWhile whitespace).length = 0
    cases ht : p.after with
    | nil => rfl
    | cons c t =>
      rw [ht] at h
      rw [List.takeWhile_cons_of_neg (by simpa using h)]
      rfl
  rw [hreach] at hn
  omega

theorem reach_pos (h : p.after.head?.any whitespace = true) :
    1 ≤ reach none whitespace p.after := by
  show 1 ≤ (p.after.takeWhile whitespace).length
  cases ht : p.after with
  | nil =>
    rw [ht] at h
    cases h
  | cons c t =>
    rw [ht] at h
    have hc : whitespace c = true := by simpa using h
    rw [List.takeWhile_cons_of_pos hc]
    exact Nat.succ_le_succ (Nat.zero_le _)

theorem after_signs_some (h : p.after.head?.any whitespace = true)
    (hne : p.after.dropWhile whitespace ≠ []) :
    let rest := p.after.dropWhile whitespace
    ∃ q n, (after_signs p).head? = some ((first_line rest).rdropWhile whitespace, q) ∧
      q.after = rest.drop ((first_line rest).length + n) ∧
      n ≤ ((rest.drop (first_line rest).length).takeWhile whitespace).length := by
  dsimp only
  have hrest : (p.advance (p.after.takeWhile whitespace).length).after =
      p.after.dropWhile whitespace := drop_takeWhile whitespace p.after
  have hfirst : ∀ c ∈ (p.advance (p.after.takeWhile whitespace).length).after.head?,
      whitespace c = false := by
    rw [hrest]
    exact first_of_dropWhile p.after
  obtain ⟨q, n, htitle, hq, hn⟩ := title_some (by rwa [hrest]) hfirst
  rw [hrest] at htitle hq hn
  have htried : tried (fun _ => title_line) p (reach none whitespace p.after) =
      some ((first_line (p.after.dropWhile whitespace)).rdropWhile whitespace, q) := htitle
  obtain ⟨m, r, hle, hge, hr, hhead⟩ := greedy_success none whitespace (reach_pos h)
    (Nat.le_refl _) (by rw [htried]; rfl)
  rw [Nat.le_antisymm hge hle, htried] at hr
  rw [← Option.some.inj hr] at hhead
  exact ⟨q, n, hhead, hq, hn⟩

theorem after_signs_blank (hall : p.after.all whitespace = true) :
    if (p.after.drop 1).any (· ≠ '\n') = true then
      ∃ c q, (after_signs p).head? = some ([c], q) ∧ q.after = [] ∧ whitespace c = true
    else (after_signs p).head? = none := by
  have hreach : reach none whitespace p.after = p.after.length := by
    show (p.after.takeWhile whitespace).length = p.after.length
    rw [List.takeWhile_eq_self_iff.mpr (List.all_eq_true.mp hall)]
  have hdrop (n : Nat) : (p.advance n).after.all whitespace = true := by
    rw [List.all_eq_true]
    exact fun c hc => List.all_eq_true.mp hall c (List.mem_of_mem_drop hc)
  split
  next hany =>
    obtain ⟨c, hmem, hc⟩ := List.any_eq_true.mp hany
    have hc := of_decide_eq_true hc
    obtain ⟨i, hi⟩ := List.getElem?_of_mem hmem
    rw [List.getElem?_drop] at hi
    have hlt := (List.getElem?_eq_some_iff.mp hi).1
    have hhead : (p.advance (1 + i)).after.head? = some c := by
      show (p.after.drop (1 + i)).head? = some c
      rw [List.head?_drop, hi]
    obtain ⟨q, htitle, -, -⟩ := title_blank (hdrop _) hhead hc
    have htried : (tried (fun _ => title_line) p (1 + i)).isSome := by
      rw [show tried (fun _ => title_line) p (1 + i) = some ([c], q) from htitle]
      rfl
    obtain ⟨m, r, -, -, hr, hsome⟩ := greedy_success none whitespace (Nat.le_add_right 1 i)
      (by omega) htried
    have hr : (title_line (p.advance m)).head? = some r := hr
    by_cases hend : ∀ c ∈ (p.advance m).after.head?, c = '\n'
    · rw [title_none hend] at hr
      cases hr
    · push Not at hend
      obtain ⟨c', hc', hne⟩ := hend
      obtain ⟨q', htitle', hq', hblank⟩ := title_blank (hdrop m) hc' hne
      rw [htitle'] at hr
      rw [← Option.some.inj hr] at hsome
      exact ⟨c', q', hsome, hq', hblank⟩
  next hnone =>
    refine greedy_failure fun n hlow _ => title_none fun c hc => ?_
    by_contra hne
    refine hnone (List.any_eq_true.mpr ⟨c, ?_, by simpa using hne⟩)
    have hmem : c ∈ p.after.drop n := List.mem_of_head? hc
    obtain ⟨k, rfl⟩ := Nat.exists_eq_add_of_le hlow
    rw [← List.drop_drop] at hmem
    exact List.mem_of_mem_drop hmem

end Heading

end Fridica.Config.ContractText
