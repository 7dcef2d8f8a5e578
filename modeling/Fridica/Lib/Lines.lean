import Fridica.Lib.Text
import Mathlib.Data.List.Chain
import Mathlib.Data.List.DropRight

/-!
# Lines of text

`str::lines` and `str::trim` over lists of characters. What counts here are the lines that are not
blank, without the blanks around them: trimming and joining text leaves these as they were.
-/

namespace Fridica.Lines

abbrev Text := List Char

/-! ## Lists in parts -/

section Parts

variable {α : Type} {a : α}

/-- Induction over the parts between the occurrences of an element. -/
theorem parts_induct {P : List α → Prop} (hlast : ∀ l, a ∉ l → P l)
    (hmore : ∀ l r, a ∉ l → P r → P (l ++ a :: r)) (l : List α) : P l := by
  induction h : l.length using Nat.strong_induction_on generalizing l with
  | _ n ih =>
    by_cases ha : a ∈ l
    · obtain ⟨x, r, rfl, hx⟩ := List.eq_append_cons_of_mem ha
      refine hmore x r hx (ih r.length ?_ r rfl)
      simp only [List.length_append, List.length_cons] at h
      omega
    · exact hlast l ha

theorem not_mem_splitOn [BEq α] [LawfulBEq α] {l w : List α} (h : w ∈ l.splitOn a) : a ∉ w := by
  induction l using parts_induct (a := a) with
  | hlast l hl =>
    rw [List.splitOn_eq_singleton hl, List.mem_singleton] at h
    rwa [h]
  | hmore l r hl ih =>
    rw [List.splitOn_append_cons_self_of_not_mem hl, List.mem_cons] at h
    rcases h with rfl | h
    · exact hl
    · exact ih h

theorem mem_splitOn_append [BEq α] [LawfulBEq α] {l r w : List α} (hr : a ∉ r)
    (h : w ∈ (l ++ r).splitOn a) : w ∈ l.splitOn a ∨ r <:+ w := by
  induction l using parts_induct (a := a) with
  | hlast l hl =>
    rw [List.splitOn_eq_singleton (by simp [hl, hr]), List.mem_singleton] at h
    exact .inr (h ▸ List.suffix_append l r)
  | hmore l m hl ih =>
    rw [List.append_assoc, List.cons_append, List.splitOn_append_cons_self_of_not_mem hl,
      List.mem_cons] at h
    rw [List.splitOn_append_cons_self_of_not_mem hl, List.mem_cons]
    rcases h with rfl | h
    · exact .inl (.inl rfl)
    · exact (ih h).imp_left .inr

theorem not_mem_splitOnP {p : α → Bool} {l w : List α} (h : w ∈ l.splitOnP p) :
    ∀ c ∈ w, p c = false := by
  induction l generalizing w with
  | nil => simp_all
  | cons c l ih =>
    rw [List.splitOnP_cons_eq_if_modifyHead] at h
    split at h
    · rcases List.mem_cons.mp h with rfl | h
      · simp
      · exact ih h
    next hc =>
      obtain ⟨v, vs, hvs⟩ := List.exists_cons_of_ne_nil (List.splitOnP_ne_nil p l)
      rw [hvs] at h ih
      rcases List.mem_cons.mp h with rfl | h
      · simp_all
      · exact ih (List.mem_cons_of_mem v h)

end Parts

/-! ## Trimming -/

def blank (c : Char) : Bool := Text.whitespace c

def trim_end (t : Text) : Text := t.rdropWhile blank

def trim (t : Text) : Text := trim_end (t.dropWhile blank)

theorem trim_cons {c : Char} (h : blank c = true) (t : Text) : trim (c :: t) = trim t := by
  unfold trim
  rw [List.dropWhile_cons_of_pos h]

theorem trim_concat {c : Char} (h : blank c = true) (t : Text) : trim (t ++ [c]) = trim t := by
  unfold trim trim_end
  rw [List.dropWhile_append]
  split
  next hempty =>
    rw [List.isEmpty_iff] at hempty
    rw [hempty, List.dropWhile_cons_of_pos h, List.dropWhile_nil]
  · rw [List.rdropWhile_concat_pos _ _ _ h]

theorem exists_trim (t : Text) : ∃ a b, t = a ++ trim t ++ b ∧ a.all blank ∧ b.all blank := by
  refine ⟨t.takeWhile blank, (t.dropWhile blank).rtakeWhile blank, ?_, ?_, ?_⟩
  · unfold trim trim_end
    rw [List.append_assoc, List.rdropWhile_append_rtakeWhile, List.takeWhile_append_dropWhile]
  · exact List.all_takeWhile
  · rw [List.all_eq_true]
    exact fun c hc => List.mem_rtakeWhile_imp hc

theorem exists_trim_end (t : Text) : ∃ b, t = trim_end t ++ b ∧ b.all blank := by
  refine ⟨t.rtakeWhile blank, (List.rdropWhile_append_rtakeWhile ..).symm, ?_⟩
  rw [List.all_eq_true]
  exact fun c hc => List.mem_rtakeWhile_imp hc

theorem of_blanks {β : Type} {f : Text → β} (hcons : ∀ c t, blank c = true → f (c :: t) = f t)
    (hconcat : ∀ c t, blank c = true → f (t ++ [c]) = f t) {a b : Text} (t : Text)
    (ha : a.all blank) (hb : b.all blank) : f (a ++ t ++ b) = f t := by
  have hend : ∀ u, f (u ++ b) = f u := by
    induction b using List.reverseRecOn with
    | nil => simp
    | append_singleton b c ih =>
      intro u
      rw [List.all_append, Bool.and_eq_true] at hb
      rw [← List.append_assoc, hconcat c _ (by simpa using hb.2), ih hb.1]
  rw [hend]
  induction a with
  | nil => rfl
  | cons c a ih =>
    rw [List.all_cons, Bool.and_eq_true] at ha
    rw [List.cons_append, hcons c _ ha.1, ih ha.2]

theorem trim_trim_end (t : Text) : trim (trim_end t) = trim t := by
  obtain ⟨b, ht, hb⟩ := exists_trim_end t
  have h := @of_blanks _ trim (fun c t h => trim_cons h t) (fun c t h => trim_concat h t) [] b
    (trim_end t) rfl hb
  rw [List.nil_append, ← ht] at h
  exact h.symm

/-! ## Words -/

/-- No blank is at an end, or beside another. -/
structure Tidy (t : Text) : Prop where
  no_leading : ∀ c ∈ t.head?, blank c = false
  no_trailing : ∀ c ∈ t.getLast?, blank c = false
  no_doubled : t.IsChain fun a b => ¬ (blank a = true ∧ blank b = true)

theorem Tidy.of_word {w : Text} (h : ∀ c ∈ w, blank c = false) : Tidy w := by
  refine ⟨fun c hc => h c (List.mem_of_mem_head? hc), fun c hc => h c (List.mem_of_mem_getLast? hc), ?_⟩
  induction w with
  | nil => simp
  | cons c w ih =>
    rw [List.isChain_cons]
    refine ⟨?_, ih fun d hd => h d (List.mem_cons_of_mem c hd)⟩
    simp [h c List.mem_cons_self]

theorem Tidy.join {ws : List Text} (h : ∀ w ∈ ws, w ≠ [] ∧ ∀ c ∈ w, blank c = false) :
    Tidy ([' '].intercalate ws) := by
  induction ws with
  | nil => exact .of_word (by simp)
  | cons w ws ih =>
    obtain ⟨⟨hne, hw⟩, hws⟩ := List.forall_mem_cons.mp h
    cases ws with
    | nil =>
      rw [List.intercalate_singleton]
      exact .of_word hw
    | cons v ws =>
      have hrest : [' '].intercalate (v :: ws) ≠ [] := by
        obtain ⟨c, v, rfl⟩ := List.exists_cons_of_ne_nil (hws v List.mem_cons_self).1
        cases ws <;> simp [List.intercalate_cons_cons]
      obtain ⟨hfirst, hlast, hchain⟩ := ih hws
      have hword := Tidy.of_word hw
      rw [List.intercalate_cons_cons, List.append_assoc, List.singleton_append]
      refine ⟨?_, ?_, ?_⟩
      · rw [List.head?_append_of_ne_nil _ hne]
        exact hword.no_leading
      · rw [List.getLast?_append_of_ne_nil _ (by simp), List.getLast?_cons_of_ne_nil hrest]
        exact hlast
      · rw [List.isChain_append, List.isChain_cons]
        refine ⟨hword.no_doubled, ⟨?_, hchain⟩, ?_⟩
        · intro c hc
          simp [hfirst c hc]
        · intro c hc
          simp [hword.no_trailing c hc]

theorem Tidy.cut {t : Text} (h : Tidy t) (n : Nat) {c : Char} (hc : blank c = false) :
    Tidy (t.take n ++ [c]) := by
  refine ⟨?_, ?_, ?_⟩
  · intro d hd
    rw [List.head?_append, Option.mem_def, Option.or_eq_some_iff] at hd
    rcases hd with hd | ⟨-, hd⟩
    · rw [List.head?_take] at hd
      split at hd
      · cases hd
      · exact h.no_leading d hd
    · simp_all
  · simp [hc]
  · rw [List.isChain_append]
    refine ⟨h.no_doubled.take n, List.isChain_singleton c, ?_⟩
    simp [hc]

/-! ## Lines -/

def NEWLINE : Char := '\n'

/-- `str::lines` takes `\r` off a line that a newline ends. -/
def strip_return (line : Text) : Text :=
  if line.getLast? = some '\r' then line.dropLast else line

def lines (t : Text) : List Text :=
  let parts := t.splitOn NEWLINE
  let last := parts.getLastD []
  parts.dropLast.map strip_return ++ if last = [] then [] else [last]

theorem lines_eq_singleton {t : Text} (h : NEWLINE ∉ t) (hne : t ≠ []) : lines t = [t] := by
  unfold lines
  rw [List.splitOn_eq_singleton h]
  exact if_neg hne

def nonblank (ls : List Text) : List Text := (ls.map trim).filter (· ≠ [])

/-- The lines of a text that are not blank, without the blanks around them. -/
def content (t : Text) : List Text := nonblank (t.splitOn NEWLINE)

theorem nonblank_append (a b : List Text) : nonblank (a ++ b) = nonblank a ++ nonblank b := by
  unfold nonblank
  rw [List.map_append, List.filter_append]

theorem nonblank_cons (l : Text) (ls : List Text) :
    nonblank (l :: ls) = nonblank [l] ++ nonblank ls := nonblank_append [l] ls

theorem nonblank_congr {l l' : Text} (h : trim l = trim l') : nonblank [l] = nonblank [l'] := by
  unfold nonblank
  rw [List.map_singleton, List.map_singleton, h]

theorem content_newline (a b : Text) : content (a ++ NEWLINE :: b) = content a ++ content b := by
  unfold content
  rw [List.splitOn_append_cons_self, nonblank_append]

theorem content_line {l : Text} (h : NEWLINE ∉ l) : content l = nonblank [l] := by
  unfold content
  rw [List.splitOn_eq_singleton h]

theorem content_nil : content [] = [] := rfl

theorem content_cons {c : Char} {t : Text} (h : blank c = true) : content (c :: t) = content t := by
  by_cases hc : c = NEWLINE
  · rw [hc]
    exact content_newline [] t
  · obtain ⟨l, ls, hsplit⟩ := List.exists_cons_of_ne_nil (List.splitOn_ne_nil NEWLINE t)
    unfold content
    rw [List.splitOn_cons_eq_if_modifyHead, if_neg (by simpa using hc), hsplit,
      List.modifyHead_cons, nonblank_cons, nonblank_cons l, nonblank_congr (trim_cons h l)]

theorem content_concat {c : Char} {t : Text} (h : blank c = true) :
    content (t ++ [c]) = content t := by
  induction t using parts_induct (a := NEWLINE) with
  | hlast l hl =>
    by_cases hc : c = NEWLINE
    · rw [hc, content_newline, content_nil, List.append_nil]
    · have hlc : NEWLINE ∉ l ++ [c] := by simp [hl, Ne.symm hc]
      rw [content_line hl, content_line hlc, nonblank_congr (trim_concat h l)]
  | hmore l r hl ih =>
    rw [List.append_assoc, List.cons_append, content_newline, content_newline, ih]

theorem content_trim (t : Text) : content (trim t) = content t := by
  obtain ⟨a, b, ht, ha, hb⟩ := exists_trim t
  have h := of_blanks (f := content) (fun c t => content_cons) (fun c t => content_concat) (trim t)
    ha hb
  rw [← ht] at h
  exact h.symm

theorem content_trim_end (t : Text) : content (trim_end t) = content t := by
  rw [← content_trim, trim_trim_end, content_trim]

theorem content_blank {t : Text} (h : trim t = []) : content t = [] := by
  rw [← content_trim, h, content_nil]

theorem trim_strip_return (l : Text) : trim (strip_return l) = trim l := by
  unfold strip_return
  split
  next h =>
    obtain ⟨a, rfl⟩ := List.getLast?_eq_some_iff.mp h
    rw [List.dropLast_concat, trim_concat rfl]
  · rfl

theorem nonblank_map {f : Text → Text} (h : ∀ l, trim (f l) = trim l) (ls : List Text) :
    nonblank (ls.map f) = nonblank ls := by
  unfold nonblank
  have hmap : ls.map (trim ∘ f) = ls.map trim := List.map_congr_left fun l _ => h l
  rw [List.map_map, hmap]

theorem nonblank_lines (t : Text) : nonblank (lines t) = content t := by
  have hne := List.splitOn_ne_nil NEWLINE t
  have hlast : (t.splitOn NEWLINE).getLastD [] = (t.splitOn NEWLINE).getLast hne := by
    rw [List.getLastD_eq_getLast?, List.getLast?_eq_some_getLast hne, Option.getD_some]
  unfold lines content
  dsimp only
  rw [hlast, nonblank_append, nonblank_map trim_strip_return]
  conv_rhs => rw [← List.dropLast_concat_getLast hne, nonblank_append]
  congr 1
  split
  next h => rw [h]; rfl
  · rfl

/-! ## Joining -/

theorem content_join (ls : List Text) : content ([NEWLINE].intercalate ls) = ls.flatMap content := by
  induction ls with
  | nil => rfl
  | cons l ls ih =>
    cases ls with
    | nil => simp
    | cons m ls =>
      rw [List.intercalate_cons_cons, List.append_assoc, List.singleton_append, content_newline, ih]
      rfl

theorem content_join_blank (ls : List Text) :
    content ([NEWLINE, NEWLINE].intercalate ls) = ls.flatMap content := by
  induction ls with
  | nil => rfl
  | cons l ls ih =>
    cases ls with
    | nil => simp
    | cons m ls =>
      rw [List.intercalate_cons_cons, List.append_assoc, List.cons_append, content_newline,
        List.singleton_append, content_cons rfl, ih]
      rfl

theorem flatMap_content_nonblank (ls : List Text) :
    (nonblank ls).flatMap content = ls.flatMap content := by
  induction ls with
  | nil => rfl
  | cons l ls ih =>
    rw [nonblank_cons, List.flatMap_append, ih, List.flatMap_cons]
    congr 1
    unfold nonblank
    by_cases hl : trim l = []
    · simp [hl, content_blank hl]
    · simp [hl, content_trim]

theorem flatMap_content_lines (t : Text) : (lines t).flatMap content = content t := by
  have hsplit : content t = nonblank (t.splitOn NEWLINE) := rfl
  rw [← flatMap_content_nonblank, nonblank_lines, hsplit, flatMap_content_nonblank, ← content_join,
    List.intercalate_splitOn, hsplit]

end Fridica.Lines
