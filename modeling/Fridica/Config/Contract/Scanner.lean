import Fridica.Config.Contract.Grammar

/-!
# The scanner follows the grammar

Line by line the scanner finds the headings that the grammar matches. A match ends behind the blanks
after its title, a heading of the scanner before them: what is left of the bodies is the same.
-/

namespace Fridica.Config.ContractText

open Fridica.Regex

/-! ## Trimming -/

section Trim

variable {t u : Text}

theorem trim_of_first (h : ∀ c ∈ t.head?, whitespace c = false) :
    trim t = t.rdropWhile whitespace := by
  unfold trim
  cases t with
  | nil => rfl
  | cons c t => rw [List.dropWhile_cons_of_neg (by simp [h c rfl])]

theorem trim_trim (t : Text) : trim (trim t) = trim t := by
  rw [trim_of_first]
  · exact List.rdropWhile_idempotent whitespace _
  · intro c hc
    refine first_of_dropWhile t c ?_
    obtain ⟨u, hu⟩ := List.head?_eq_some_iff.mp (Option.mem_def.mp hc)
    obtain ⟨v, hv⟩ := List.rdropWhile_prefix whitespace (t.dropWhile whitespace)
    rw [← hv, show (t.dropWhile whitespace).rdropWhile whitespace = c :: u from hu]
    rfl

theorem trim_append (h : u.all whitespace = true) (t : Text) : trim (u ++ t) = trim t := by
  unfold trim
  rw [List.dropWhile_append_of_pos (List.all_eq_true.mp h)]

end Trim

/-! ## A heading -/

/-- A heading of the scanner and a match of the grammar. -/
structure Agrees (text : Text) (h : Heading) (m : Match Text) : Prop where
  start : m.start.after = text.drop h.offset
  offset : h.offset ≤ text.length
  title : h.title = plain m.value
  /-- The match ends behind some blanks more. -/
  stop : ∃ n, m.stop.after = text.drop (h.stop + n) ∧ h.stop + n ≤ text.length ∧
    n ≤ ((text.drop h.stop).takeWhile whitespace).length

section Heading

variable {text before : Text} {o : Nat}

theorem findIdx_newline (t : Text) : t.findIdx (· = '\n') = (first_line t).length := by
  induction t with
  | nil => rfl
  | cons c t ih =>
    by_cases hc : c = '\n'
    · rw [List.findIdx_cons, first_line, List.takeWhile_cons_of_neg (by simp [hc])]
      simp [hc]
    · rw [List.findIdx_cons, first_line, List.takeWhile_cons_of_pos (by simp [hc]),
        List.length_cons, ← first_line, ← ih]
      simp [hc]

theorem at_place_none (h : ¬ (line_start ⟨before, text.drop o⟩ = true ∧
    ['#', '#'] <+: text.drop o ∧ (text.drop (o + 2)).head?.any whitespace = true)) :
    at_place grammar ⟨before, text.drop o⟩ = none := by
  unfold at_place
  rw [grammar_head]
  split
  next hplace =>
    have hnone :
        ((Place.mk before (text.drop o)).advance 2).after.head?.any whitespace = false := by
      show ((text.drop o).drop 2).head?.any whitespace = false
      rw [List.drop_drop]
      by_contra hblank
      exact h ⟨hplace.1, hplace.2, by simpa using hblank⟩
    rw [after_signs_none hnone]
    rfl
  next => rfl

theorem heading_blank (hrest : (text.drop (o + 2)).dropWhile whitespace = []) :
    heading text o = if ((text.drop (o + 2)).drop 1).any (· ≠ '\n') = true then
      some ⟨o, text.length, []⟩ else none := by
  unfold heading
  dsimp only
  rw [hrest]
  have htitle : trim ((text.take (text.length - ([] : Text).length + ([] : Text).findIdx
      (· = '\n'))).drop (text.length - ([] : Text).length)) = [] := by
    rw [List.findIdx_nil, List.length_nil, Nat.sub_zero, Nat.add_zero, List.take_length,
      List.drop_length]
    rfl
  rw [htitle, if_neg (fun h => h rfl)]
  simp only [true_and]

theorem rest_eq (text : Text) (o : Nat) :
    text.drop (text.length - ((text.drop (o + 2)).dropWhile whitespace).length) =
      (text.drop (o + 2)).dropWhile whitespace :=
  (List.suffix_iff_eq_drop.mp
    ((List.dropWhile_suffix _).trans (List.drop_suffix (o + 2) text))).symm

theorem heading_title (hrest : (text.drop (o + 2)).dropWhile whitespace ≠ []) :
    let rest := (text.drop (o + 2)).dropWhile whitespace
    heading text o = some ⟨o, text.length - rest.length + (first_line rest).length,
      plain ((first_line rest).rdropWhile whitespace)⟩ := by
  dsimp only
  have hne := title_ne_nil hrest (first_of_dropWhile _)
  have hslice : (text.take (text.length - ((text.drop (o + 2)).dropWhile whitespace).length +
      (first_line ((text.drop (o + 2)).dropWhile whitespace)).length)).drop
        (text.length - ((text.drop (o + 2)).dropWhile whitespace).length) =
          first_line ((text.drop (o + 2)).dropWhile whitespace) := by
    rw [List.drop_take, rest_eq, Nat.add_sub_cancel_left]
    exact (List.prefix_iff_eq_take.mp (List.takeWhile_prefix _)).symm
  have htitle := trim_of_first (first_line_first hrest (first_of_dropWhile _)).2
  unfold heading
  dsimp only
  rw [findIdx_newline, hslice, if_pos]
  · unfold plain
    rw [← htitle, trim_trim]
  · rw [htitle]
    exact hne

theorem plain_blank {c : Char} (h : whitespace c = true) : plain [c] = [] := by
  have htrim : trim [c] = [] := by
    unfold trim
    rw [List.dropWhile_cons_of_pos h, List.dropWhile_nil]
    rfl
  unfold plain
  rw [htrim]
  rfl

theorem heading_agrees (ho : o ≤ text.length) (hstart : line_start ⟨before, text.drop o⟩ = true)
    (hsigns : ['#', '#'] <+: text.drop o)
    (hblank : (text.drop (o + 2)).head?.any whitespace = true) :
    match heading text o with
    | some h => h.offset = o ∧
      ∃ m, at_place grammar ⟨before, text.drop o⟩ = some m ∧ Agrees text h m
    | none => at_place grammar ⟨before, text.drop o⟩ = none := by
  have hafter : ((Place.mk before (text.drop o)).advance 2).after = text.drop (o + 2) := by
    show (text.drop o).drop 2 = _
    rw [List.drop_drop]
  have hplace : at_place grammar ⟨before, text.drop o⟩ =
      (after_signs ((Place.mk before (text.drop o)).advance 2)).head?.map fun r =>
        ⟨⟨before, text.drop o⟩, r.1, r.2⟩ := by
    unfold at_place
    rw [grammar_head, if_pos ⟨hstart, hsigns⟩]
  rw [hplace]
  by_cases hrest : (text.drop (o + 2)).dropWhile whitespace = []
  · have hall : ((Place.mk before (text.drop o)).advance 2).after.all whitespace = true := by
      rw [hafter, List.all_eq_true]
      exact List.dropWhile_eq_nil_iff.mp hrest
    have hblanks := after_signs_blank hall
    rw [hafter] at hblanks
    rw [heading_blank hrest]
    split at hblanks
    next hany =>
      obtain ⟨c, q, hhead, hq, hc⟩ := hblanks
      rw [if_pos hany, hhead]
      refine ⟨rfl, _, rfl, rfl, ho, (plain_blank hc).symm, 0, ?_, Nat.le_refl _, Nat.zero_le _⟩
      show q.after = _
      rw [hq, Nat.add_zero, List.drop_length]
    next hnone =>
      rw [if_neg hnone, hblanks]
      rfl
  · rw [← hafter] at hblank
    have hsome := after_signs_some hblank (by rwa [hafter])
    rw [hafter] at hsome
    obtain ⟨q, n, hhead, hq, hn⟩ := hsome
    have hlen : ((text.drop (o + 2)).dropWhile whitespace).length ≤ text.length :=
      ((List.dropWhile_suffix _).trans (List.drop_suffix (o + 2) text)).length_le
    have hline : (first_line ((text.drop (o + 2)).dropWhile whitespace)).length ≤
        ((text.drop (o + 2)).dropWhile whitespace).length := (List.takeWhile_prefix _).length_le
    have hdrop (k : Nat) : text.drop (text.length -
        ((text.drop (o + 2)).dropWhile whitespace).length + k) =
          ((text.drop (o + 2)).dropWhile whitespace).drop k := by
      rw [← List.drop_drop, rest_eq]
    have hbound := hn.trans (List.takeWhile_prefix _).length_le
    rw [List.length_drop] at hbound
    rw [heading_title hrest, hhead]
    refine ⟨rfl, _, rfl, rfl, ho, rfl, n, ?_, ?_, ?_⟩
    · show q.after = _
      rw [hq, Nat.add_assoc, hdrop]
    · dsimp only
      omega
    · dsimp only
      rw [hdrop]
      exact hn

end Heading

/-! ## Line by line -/

section Lines

/-- A first line with its end, and what comes after it. -/
structure Line (line rest : Text) : Prop where
  ne_nil : line ≠ []
  newline : ∀ a c b, line = a ++ c :: b → b ≠ [] → c ≠ '\n'
  ends : rest ≠ [] → line.getLast? = some '\n'

theorem Line.single {c : Char} {rest : Text} (h : rest ≠ [] → c = '\n') : Line [c] rest where
  ne_nil := List.cons_ne_nil _ _
  newline a d b hline hb := by
    have hlen := congrArg List.length hline
    have hpos := List.length_pos_iff.mpr hb
    simp only [List.length_cons, List.length_nil, List.length_append] at hlen
    omega
  ends hrest := by
    rw [h hrest]
    rfl

theorem line_cases {t : Text} (h : t ≠ []) : ∃ line rest, t = line ++ rest ∧
    split_inclusive t = line :: split_inclusive rest ∧ Line line rest := by
  induction t with
  | nil => exact absurd rfl h
  | cons c t ih =>
    by_cases hc : c = '\n'
    · rw [split_inclusive, if_pos hc]
      exact ⟨[c], t, rfl, rfl, .single fun _ => hc⟩
    · rw [split_inclusive, if_neg hc]
      by_cases ht : t = []
      · rw [ht]
        exact ⟨[c], [], rfl, rfl, .single fun h => absurd rfl h⟩
      · obtain ⟨line, rest, hsplit, hlines, hline⟩ := ih ht
        rw [hlines]
        refine ⟨c :: line, rest, by rw [hsplit]; rfl, rfl, List.cons_ne_nil _ _,
          fun a d b heq hb => ?_, fun hrest => ?_⟩
        · cases a with
          | nil =>
            obtain ⟨rfl, -⟩ := List.cons.inj heq
            exact hc
          | cons a' a => exact hline.newline a d b (List.cons.inj heq).2 hb
        · rw [List.getLast?_cons, hline.ends hrest]
          rfl

variable {line rest : Text}

theorem Line.signs (h : Line line rest) : ['#', '#'] <+: line ↔ ['#', '#'] <+: line ++ rest := by
  refine ⟨fun hpre => hpre.trans (List.prefix_append _ _), fun hpre => ?_⟩
  rcases line with _ | ⟨a, _ | ⟨b, l⟩⟩
  · exact absurd rfl h.ne_nil
  · by_cases hrest : rest = []
    · rw [hrest] at hpre
      exact absurd hpre.length_le (by simp)
    · have hend : a = '\n' := Option.some.inj (h.ends hrest)
      rw [hend] at hpre
      exact absurd (List.cons_prefix_cons.mp hpre).1 (by decide)
  · simpa [List.cons_prefix_cons] using hpre

theorem Line.inside (h : Line line rest) {before : Text} {a b : Text} {c : Char}
    (hline : line = a ++ c :: b) (ha : a ≠ []) :
    at_place grammar ⟨a.reverse ++ before, c :: (b ++ rest)⟩ = none := by
  unfold at_place
  rw [grammar_head, if_neg]
  · rfl
  · rintro ⟨hstart, -⟩
    obtain ⟨a, d, rfl⟩ := (List.eq_nil_or_concat' a).resolve_left ha
    have hd : d = '\n' := by
      have hall : (((a ++ [d]).reverse ++ before).head?.all (· = '\n')) = true := hstart
      rw [List.reverse_append] at hall
      simpa using hall
    exact h.newline a d (c :: b) (by rw [hline, List.append_assoc]; rfl) (List.cons_ne_nil _ _) hd

theorem Line.pass {c : Char} {u : Text} (h : Line (c :: u) rest) (skip : Nat) (before : Text) :
    matches_from grammar skip (c :: before) (u ++ rest) =
      matches_from grammar (skip - u.length) ((c :: u).reverse ++ before) rest := by
  rw [matches_pass, List.reverse_cons, List.append_assoc]
  · rfl
  · intro a d b hu
    have hinside : at_place grammar ⟨(c :: a).reverse ++ before, d :: (b ++ rest)⟩ = none :=
      h.inside (by rw [hu]; rfl) (List.cons_ne_nil _ _)
    rwa [List.reverse_cons, List.append_assoc] at hinside

end Lines

/-! ## The scan -/

section Scan

variable {text pre t : Text} {s : Scan} {skip : Nat}

/-- The scanner and the search before a line: the search skips what the scanner has consumed, and
then nothing but blanks. -/
structure Inv (text pre t : Text) (s : Scan) (skip : Nat) : Prop where
  split : text = pre ++ t
  offset : s.offset = pre.length
  start : t ≠ [] → pre.reverse.head?.all (· = '\n') = true
  consumed : s.consumed ≤ pre.length + skip
  blanks : 0 < skip →
    pre.length + skip - s.consumed ≤ ((text.drop s.consumed).takeWhile whitespace).length

theorem Inv.drop (h : Inv text pre t s skip) : text.drop pre.length = t := by
  rw [h.split]
  exact List.drop_left

/-- What the scanner finds at a line. -/
def found (text : Text) (s : Scan) (line : Text) : Option Heading :=
  if s.consumed ≤ s.offset ∧ ['#', '#'] <+: line ∧
    (text.drop (s.offset + 2)).head?.any whitespace then heading text s.offset else none

theorem scan_line_eq (text : Text) (s : Scan) (line : Text) : scan_line text s line =
    ⟨s.headings ++ (found text s line).toList, s.offset + line.length,
      (found text s line).elim s.consumed (·.stop)⟩ := rfl

theorem Inv.found_none {line rest : Text} (h : Inv text pre (line ++ rest) s skip)
    (hskip : 0 < skip) : found text s line = none := by
  unfold found
  rw [if_neg]
  rintro ⟨hconsumed, hsigns, -⟩
  have hblanks := h.blanks hskip
  rw [h.offset] at hconsumed
  have hlt : pre.length - s.consumed < ((text.drop s.consumed).takeWhile whitespace).length := by
    omega
  have hdrop := takeWhile_drop (Nat.le_of_lt hlt)
  rw [List.drop_drop, Nat.add_sub_cancel' hconsumed, h.drop] at hdrop
  obtain ⟨u, hu⟩ := hsigns
  rw [← hu, List.append_assoc, List.cons_append,
    List.takeWhile_cons_of_neg (by rw [whitespace_sign]; exact Bool.false_ne_true)] at hdrop
  have hnil := congrArg List.length hdrop
  rw [List.length_nil, List.length_drop] at hnil
  omega

theorem Line.next_start {line rest : Text} (hline : Line line rest) (pre : Text)
    (hrest : rest ≠ []) : (pre ++ line).reverse.head?.all (· = '\n') = true := by
  rw [List.head?_reverse, List.getLast?_append, hline.ends hrest]
  rfl

/-- At a line that is not skipped, both find the same. -/
theorem Inv.found_iff {line rest : Text} (h : Inv text pre (line ++ rest) s 0)
    (hline : Line line rest) :
    match found text s line with
    | some x => ∃ m, at_place grammar ⟨pre.reverse, line ++ rest⟩ = some m ∧ Agrees text x m
    | none => at_place grammar ⟨pre.reverse, line ++ rest⟩ = none := by
  have hstart := h.start (List.append_ne_nil_of_left_ne_nil hline.ne_nil rest)
  have hconsumed : s.consumed ≤ s.offset := by
    rw [h.offset]
    exact h.consumed
  have hle : pre.length ≤ text.length := by
    rw [h.split, List.length_append]
    exact Nat.le_add_right _ _
  have hdrop := h.drop
  unfold found
  rw [h.offset] at hconsumed ⊢
  by_cases hcond : ['#', '#'] <+: line ∧ (text.drop (pre.length + 2)).head?.any whitespace = true
  · rw [if_pos ⟨hconsumed, hcond⟩]
    have hsigns := hline.signs.mp hcond.1
    rw [← hdrop] at hsigns ⊢
    have hagrees := heading_agrees hle hstart hsigns hcond.2
    split at hagrees
    next => exact hagrees.2
    next => exact hagrees
  · rw [if_neg (fun hall => hcond hall.2), ← hdrop]
    refine at_place_none fun hplace => hcond ⟨?_, hplace.2.2⟩
    rw [hline.signs, ← hdrop]
    exact hplace.2.1

theorem Inv.past {line rest : Text} (h : Inv text pre (line ++ rest) s skip)
    (hline : Line line rest) (hs : List Heading) :
    Inv text (pre ++ line) rest ⟨hs, s.offset + line.length, s.consumed⟩ (skip - line.length) := by
  have hconsumed := h.consumed
  constructor
  · rw [h.split, List.append_assoc]
  · rw [h.offset, List.length_append]
  · exact hline.next_start pre
  · rw [List.length_append]
    dsimp only
    omega
  · intro hskip
    have hblanks := h.blanks (by omega)
    rw [List.length_append]
    dsimp only
    omega

theorem Inv.past_heading {c : Char} {u rest : Text} {x : Heading} {m : Match Text}
    (h : Inv text pre (c :: u ++ rest) s 0) (hline : Line (c :: u) rest) (hx : Agrees text x m)
    (hs : List Heading) :
    Inv text (pre ++ c :: u) rest ⟨hs, s.offset + (c :: u).length, x.stop⟩
      ((u ++ rest).length - m.stop.after.length - u.length) := by
  obtain ⟨n, hstop, hle, hn⟩ := hx.stop
  have hafter := congrArg List.length hstop
  have hlen := congrArg List.length h.split
  rw [List.length_drop] at hafter
  rw [List.length_append, List.length_append, List.length_cons] at hlen
  constructor
  · rw [h.split, List.append_assoc]
  · rw [h.offset, List.length_append]
  · exact hline.next_start pre
  · rw [List.length_append, List.length_append, List.length_cons]
    dsimp only
    omega
  · intro hskip
    rw [List.length_append] at hskip ⊢
    rw [List.length_append, List.length_cons]
    dsimp only
    omega

/-- The headings of the lines that are left are the matches that are left. -/
theorem scan_spec (h : Inv text pre t s skip) :
    ∃ hs, ((split_inclusive t).foldl (scan_line text) s).headings = s.headings ++ hs ∧
      List.Forall₂ (Agrees text) hs (matches_from grammar skip pre.reverse t) := by
  induction hlines : split_inclusive t generalizing pre t s skip with
  | nil =>
    have ht : t = [] := by
      by_contra hne
      obtain ⟨line, rest, -, hcons, -⟩ := line_cases hne
      rw [hlines] at hcons
      cases hcons
    rw [ht]
    exact ⟨[], (List.append_nil _).symm, List.Forall₂.nil⟩
  | cons l ls ih =>
    have hne : t ≠ [] := by
      rintro rfl
      cases hlines
    obtain ⟨line, rest, rfl, hcons, hline⟩ := line_cases hne
    rw [hlines] at hcons
    obtain ⟨rfl, rfl⟩ := List.cons.inj hcons
    obtain ⟨c, u, rfl⟩ := List.exists_cons_of_ne_nil hline.ne_nil
    rw [List.foldl_cons, scan_line_eq]
    -- Without a heading the search passes the whole line.
    have hpast (hnone : found text s (c :: u) = none) (hmatches :
        matches_from grammar skip pre.reverse (c :: (u ++ rest)) =
          matches_from grammar (skip - 1) (c :: pre.reverse) (u ++ rest)) :
        ∃ hs, ((split_inclusive rest).foldl (scan_line text)
          ⟨s.headings ++ (found text s (c :: u)).toList, s.offset + (c :: u).length,
            (found text s (c :: u)).elim s.consumed (·.stop)⟩).headings = s.headings ++ hs ∧
          List.Forall₂ (Agrees text) hs
            (matches_from grammar skip pre.reverse (c :: u ++ rest)) := by
      obtain ⟨hs, heq, hall⟩ := ih (h.past hline s.headings) rfl
      rw [hnone, Option.toList_none, List.append_nil]
      refine ⟨hs, heq, ?_⟩
      rw [List.cons_append, hmatches, hline.pass]
      rw [List.reverse_append, List.length_cons, Nat.add_comm, ← Nat.sub_sub] at hall
      exact hall
    cases skip with
    | succ skip => exact hpast (h.found_none (Nat.succ_pos skip)) rfl
    | zero =>
      have hfound := h.found_iff hline
      split at hfound
      next x hsome =>
        obtain ⟨m, hplace, hx⟩ := hfound
        have hplace : at_place grammar ⟨pre.reverse, c :: (u ++ rest)⟩ = some m := hplace
        obtain ⟨hs, heq, hall⟩ := ih (h.past_heading hline hx (s.headings ++ [x])) rfl
        rw [hsome]
        refine ⟨x :: hs, ?_, ?_⟩
        · rw [List.append_assoc] at heq
          exact heq
        · rw [List.cons_append, matches_cons_some hplace, hline.pass]
          rw [List.reverse_append] at hall
          exact List.Forall₂.cons hx hall
      next hnone => exact hpast hnone (matches_cons_none hfound 0)

theorem headings_spec (text : Text) :
    List.Forall₂ (Agrees text) (headings text) (find_iter grammar text) := by
  have hinv : Inv text [] text ⟨[], 0, 0⟩ 0 :=
    ⟨rfl, rfl, fun _ => rfl, Nat.le_refl 0, fun h => absurd h (Nat.lt_irrefl 0)⟩
  obtain ⟨hs, heq, hall⟩ := scan_spec hinv
  rw [List.nil_append] at heq
  unfold headings
  rw [heq]
  exact hall

end Scan

end Fridica.Config.ContractText
