import Fridica.Workers.Progress.Spec

/-!
# What the notes say

Wherever the polls fall, the notes say the complete lines of the file, each once and in order.
-/

namespace Fridica.Progress

open Lines Utf8

theorem rposition_none {α : Type} {p : α → Bool} {l : List α} (h : rposition p l = none) :
    ∀ x ∈ l, p x = false := by
  induction l with
  | nil => exact fun x hx => nomatch hx
  | cons y l ih =>
    rw [rposition] at h
    cases hl : rposition p l with
    | some i => simp [hl] at h
    | none =>
      simp only [hl, ite_eq_right_iff, reduceCtorEq, imp_false, Bool.not_eq_true] at h
      exact List.forall_mem_cons.mpr ⟨h, ih hl⟩

theorem rposition_some {α : Type} {p : α → Bool} {l : List α} {i : Nat}
    (h : rposition p l = some i) :
    ∃ a x b, l = a ++ x :: b ∧ p x = true ∧ (∀ y ∈ b, p y = false) ∧ i = a.length := by
  induction l generalizing i with
  | nil => simp [rposition] at h
  | cons y l ih =>
    rw [rposition] at h
    cases hl : rposition p l with
    | some j =>
      simp only [hl, Option.some.injEq] at h
      obtain ⟨a, x, b, rfl, hx, hb, rfl⟩ := ih hl
      exact ⟨y :: a, x, b, rfl, hx, hb, h.symm⟩
    | none =>
      simp only [hl] at h
      by_cases hy : p y = true
      · simp only [hy, if_true, Option.some.injEq] at h
        exact ⟨[], y, l, rfl, hy, rposition_none hl, h.symm⟩
      · simp [hy] at h

/-! ## A note says the lines of its text -/

namespace Paragraphs

/-- What the paragraphs so far say. -/
def content (s : Paragraphs) : List Text :=
  s.paragraphs.flatMap Lines.content ++ s.current.flatMap Lines.content

theorem content_close (s : Paragraphs) : s.close.content = s.content := by
  unfold close content
  split
  · rfl
  · rw [List.flatMap_append, List.flatMap_singleton, content_join, List.flatMap_nil,
      List.append_nil]

theorem current_close (s : Paragraphs) : s.close.current = [] := by
  unfold close
  split
  · assumption
  · rfl

theorem content_read (s : Paragraphs) (line : Text) :
    (s.read line).content = s.content ++ Lines.content line := by
  unfold read
  split
  next h => rw [content_close, content_blank h, List.append_nil]
  next h =>
    unfold content
    rw [List.flatMap_append, List.flatMap_singleton, content_trim_end, List.append_assoc]

theorem content_foldl (s : Paragraphs) (ls : List Text) :
    (ls.foldl read s).content = s.content ++ ls.flatMap Lines.content := by
  induction ls generalizing s with
  | nil => exact (List.append_nil _).symm
  | cons l ls ih => rw [List.foldl_cons, ih, content_read, List.flatMap_cons, List.append_assoc]

end Paragraphs

theorem content_note_of (text : Text) : content (note_of text) = content text := by
  unfold note_of
  dsimp only
  rw [content_join_blank, ← nonblank, flatMap_content_nonblank]
  generalize hread : (lines text).foldl Paragraphs.read ⟨[], []⟩ = s
  have hcontent := Paragraphs.content_close s
  rw [← hread, Paragraphs.content_foldl, flatMap_content_lines, hread] at hcontent
  unfold Paragraphs.content at hcontent
  rw [Paragraphs.current_close, List.flatMap_nil, List.append_nil] at hcontent
  exact hcontent

theorem content_cut {note : Text} {cap : Nat} (h : note.length ≤ cap) :
    (cut note cap).toList.flatMap content = content note := by
  by_cases hnil : note = []
  · rw [hnil]
    rfl
  · rw [cut, if_neg hnil, if_pos h]
    exact List.flatMap_singleton ..

/-! ## Complete lines -/

theorem complete_lines_append (a b : Bytes) : complete_lines (a ++ Utf8.NEWLINE :: b) =
    complete_lines (a ++ [Utf8.NEWLINE]) ++ complete_lines b := by
  have hb := List.splitOn_ne_nil Utf8.NEWLINE b
  unfold complete_lines
  rw [List.splitOn_append_cons_self, List.splitOn_append_cons_self, List.splitOn_nil,
    List.dropLast_append_of_ne_nil hb, List.dropLast_concat, List.map_append]

theorem complete_lines_none {bs : Bytes} (h : Utf8.NEWLINE ∉ bs) : complete_lines bs = [] := by
  unfold complete_lines
  rw [List.splitOn_eq_singleton h]
  rfl

theorem complete_lines_line {l : Bytes} (h : Utf8.NEWLINE ∉ l) :
    complete_lines (l ++ [Utf8.NEWLINE]) = [lossy l] := by
  unfold complete_lines
  rw [List.splitOn_append_cons_self, List.splitOn_eq_singleton h]
  rfl

theorem content_lossy (bs : Bytes) : content (lossy (bs ++ [Utf8.NEWLINE])) =
    nonblank (complete_lines (bs ++ [Utf8.NEWLINE])) := by
  induction bs using parts_induct (a := Utf8.NEWLINE) with
  | hlast l hl =>
    rw [lossy_append_newline, complete_lines_line hl, ← content_line (newline_not_mem_lossy hl)]
    exact (content_newline ..).trans (List.append_nil _)
  | hmore l r hl ih =>
    rw [List.append_assoc, List.cons_append, lossy_append_newline, complete_lines_append,
      nonblank_append, ← ih, complete_lines_line hl, ← content_line (newline_not_mem_lossy hl)]
    exact content_newline ..

/-! ## Polls -/

section Take

variable {t : Tracker} {contents : Bytes} (cap : Nat)

/-- What a poll of a file that did not shrink does. -/
theorem take_cases (h : t.offset ≤ contents.length) :
    (Utf8.NEWLINE ∉ contents.drop t.offset ∧ t.take contents cap = (none, t)) ∨
    ∃ a b, contents.drop t.offset = a ++ Utf8.NEWLINE :: b ∧ Utf8.NEWLINE ∉ b ∧
      t.note contents = note_of (lossy (a ++ [Utf8.NEWLINE])) ∧
      t.take contents cap = (cut (t.note contents) cap, ⟨t.offset + (a.length + 1)⟩) := by
  unfold Tracker.take
  rw [if_neg (Nat.not_lt.mpr h)]
  cases hpos : rposition (· == Utf8.NEWLINE) (contents.drop t.offset) with
  | none =>
    refine .inl ⟨fun hmem => ?_, ?_⟩
    · simpa using rposition_none hpos _ hmem
    · unfold Tracker.complete
      rw [hpos]
      rfl
  | some i =>
    obtain ⟨a, x, b, hdrop, hx, hb, rfl⟩ := rposition_some hpos
    obtain rfl : x = Utf8.NEWLINE := by simpa using hx
    have hcomplete : t.complete contents = some (a.length + 1) := by
      unfold Tracker.complete
      rw [hpos]
      rfl
    refine .inr ⟨a, b, hdrop, fun hmem => ?_, ?_, ?_⟩
    · simpa using hb _ hmem
    · unfold Tracker.note
      rw [hcomplete, hdrop]
      have htake : (a ++ Utf8.NEWLINE :: b).take (a.length + 1) = a ++ [Utf8.NEWLINE] := by
        rw [List.take_append, List.take_of_length_le (Nat.le_succ _)]
        simp
      exact congrArg (fun bs => note_of (lossy bs)) htake
    · rw [hcomplete]

end Take

theorem prefix_last {before : Bytes} {polls : List Poll} (h : Appends before polls) :
    before <+: last_of before polls := by
  induction polls generalizing before with
  | nil => exact List.prefix_rfl
  | cons poll polls ih => exact h.1.trans (ih h.2)

theorem drop_of_prefix {a b : Bytes} {n : Nat} (hn : n ≤ a.length) (h : a <+: b) :
    ∃ c, b.drop n = a.drop n ++ c := by
  obtain ⟨c, rfl⟩ := h
  exact ⟨c, List.drop_append_of_le_length hn⟩

theorem drop_line (a b : Bytes) : (a ++ Utf8.NEWLINE :: b).drop (a.length + 1) = b := by
  rw [← List.drop_drop, List.drop_left]
  rfl

theorem content_notes {t : Tracker} {before : Bytes} {polls : List Poll}
    (h : Appends before polls) (hfits : Fits t polls) (hoffset : t.offset ≤ before.length)
    (hunfinished : Utf8.NEWLINE ∉ before.drop t.offset) :
    (notes t polls).flatMap content =
      nonblank (complete_lines ((last_of before polls).drop t.offset)) := by
  induction polls generalizing t before with
  | nil =>
    rw [last_of, complete_lines_none hunfinished]
    rfl
  | cons poll polls ih =>
    obtain ⟨contents, cap⟩ := poll
    obtain ⟨happends, hlater⟩ := h
    obtain ⟨hcap, hfits⟩ := hfits
    have hlength : t.offset ≤ contents.length := hoffset.trans happends.length_le
    rw [notes, last_of, List.flatMap_append]
    rcases take_cases cap hlength with ⟨hnone, htake⟩ | ⟨a, b, hdrop, hb, hnote, htake⟩
    · rw [htake] at hfits ⊢
      exact ih hlater hfits hlength hnone
    · rw [htake] at hfits ⊢
      obtain ⟨more, hmore⟩ := drop_of_prefix hlength (prefix_last hlater)
      rw [hdrop, List.append_assoc, List.cons_append] at hmore
      have hrest : contents.drop (t.offset + (a.length + 1)) = b := by
        rw [← List.drop_drop, hdrop, drop_line]
      have hlast : (last_of contents polls).drop (t.offset + (a.length + 1)) = b ++ more := by
        rw [← List.drop_drop, hmore, drop_line]
      have hshort : t.offset + (a.length + 1) ≤ contents.length := by
        have hlen := congrArg List.length hdrop
        simp only [List.length_drop, List.length_append, List.length_cons] at hlen
        omega
      have hread := ih hlater hfits hshort (hrest ▸ hb)
      rw [hread, hlast, hmore, complete_lines_append, nonblank_append, content_cut hcap, hnote,
        content_note_of, content_lossy]

theorem notes_say_complete_lines (start : Option Bytes) (polls : List Poll)
    (h : Appends (start.getD []) polls) (hfits : Fits (Tracker.starting_at start) polls) :
    (notes (Tracker.starting_at start) polls).flatMap (fun note => nonblank (lines note)) =
      nonblank (complete_lines
        ((last_of (start.getD []) polls).drop (start.getD []).length)) := by
  have hstart : Tracker.starting_at start = ⟨(start.getD []).length⟩ := by cases start <;> rfl
  simp only [nonblank_lines]
  rw [hstart] at hfits ⊢
  refine content_notes h hfits Nat.le.refl ?_
  rw [List.drop_length]
  exact List.not_mem_nil

/-- A character's second byte, the rest of a line and a newline each come at another poll. -/
theorem notes_say_complete_lines_pieces :
    (notes (Tracker.starting_at (some [97]))
        [([97, 195], 9), ([97, 195, 169, 13, 10, 10, 32], 9),
          ([97, 195, 169, 13, 10, 10, 32, 98, 10, 99], 9)]).flatMap
      (fun note => nonblank (lines note)) = [['é'], ['b']] :=
  (notes_say_complete_lines (some [97])
    [([97, 195], 9), ([97, 195, 169, 13, 10, 10, 32], 9),
      ([97, 195, 169, 13, 10, 10, 32, 98, 10, 99], 9)]
    ⟨by decide, by decide, by decide, trivial⟩ (by decide +kernel)).trans (by decide +kernel)

end Fridica.Progress
