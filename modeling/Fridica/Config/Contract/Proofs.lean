import Fridica.Config.Contract.Scanner
import Mathlib.Data.List.Forall2

/-!
# A contract has the sections of the grammar

The bodies between the headings of the scanner are those between the matches, and what `parse` makes
of them section by section is the contract that they make.
-/

namespace Fridica.Config.ContractText

open Fridica.Regex

/-! ## Bodies -/

section Bodies

variable {text : Text} {h : Heading} {m : Match Text}

/-- The sections of the headings. -/
def scanned (text : Text) : List Heading → List (Text × Text)
  | [] => []
  | h :: hs =>
    (h.title, trim ((text.take (hs.head?.elim text.length (·.offset))).drop h.stop)) ::
      scanned text hs

theorem trim_slice {a n stop : Nat} (hn : n ≤ ((text.drop a).takeWhile whitespace).length)
    (hle : a + n ≤ stop) :
    trim ((text.take stop).drop a) = trim ((text.drop (a + n)).take (stop - (a + n))) := by
  have hblank : ((text.drop a).take n).all whitespace = true := by
    have hpre := List.takeWhile_prefix whitespace (l := text.drop a)
    rw [List.all_eq_true]
    intro c hc
    refine List.mem_takeWhile_imp (p := whitespace) (l := text.drop a) ?_
    have htake := List.prefix_iff_eq_take.mp hpre
    rw [htake]
    exact (List.take_prefix_take_left hn).subset hc
  rw [List.drop_take, show stop - a = n + (stop - (a + n)) by omega, List.take_add,
    trim_append hblank, List.drop_drop]

theorem body_agrees (hx : Agrees text h m) {hs : List Heading} {ms : List (Match Text)}
    (hall : List.Forall₂ (Agrees text) hs ms)
    (horder : ∀ b ∈ ms, b.start.after.length ≤ m.stop.after.length) :
    trim ((text.take (hs.head?.elim text.length (·.offset))).drop h.stop) =
      trim (between m ms.head?) := by
  obtain ⟨n, hstop, hle, hn⟩ := hx.stop
  unfold between
  rw [hstop, List.length_drop]
  cases hall with
  | nil =>
    dsimp only [List.head?_nil, Option.elim_none]
    rw [trim_slice hn hle, Nat.sub_zero]
  | cons hy hall =>
    have hb := horder _ List.mem_cons_self
    have hoffset := hy.offset
    rw [hstop, hy.start, List.length_drop, List.length_drop] at hb
    dsimp only [List.head?_cons, Option.elim_some]
    rw [trim_slice hn (by omega), hy.start, List.length_drop]
    congr 2
    omega

theorem scanned_eq {hs : List Heading} {ms : List (Match Text)}
    (hall : List.Forall₂ (Agrees text) hs ms)
    (horder : ms.Pairwise fun a b => b.start.after.length ≤ a.stop.after.length) :
    scanned text hs = sections plain ms := by
  induction hall with
  | nil => rfl
  | cons hx hall ih =>
    obtain ⟨hfirst, hrest⟩ := List.pairwise_cons.mp horder
    unfold scanned sections
    rw [hx.title, body_agrees hx hall hfirst, ih hrest]

end Bodies

/-! ## Section by section -/

section Sections

variable (to_lowercase : Text → Text)

/-- What a section with a title and a body adds. -/
def add (s : Sections) (x : Text × Text) : Sections :=
  if known (to_lowercase x.1) = "" then
    if x.2 ≠ [] then { s with extra := s.extra ++ [titled x.1 x.2] } else s
  else { s with found := or_insert (known (to_lowercase x.1)) x.2 s.found }

theorem foldl_add_section (text : Text) (pre hs : List Heading) (s : Sections) :
    (hs.zipIdx pre.length).foldl (add_section to_lowercase text (pre ++ hs)) s =
      (scanned text hs).foldl (add to_lowercase) s := by
  induction hs generalizing pre s with
  | nil => rfl
  | cons h hs ih =>
    have hnext : (pre ++ h :: hs)[pre.length + 1]? = hs.head? := by
      rw [List.getElem?_append_right (Nat.le_succ _), Nat.succ_eq_add_one,
        Nat.add_sub_cancel_left, List.getElem?_cons_succ, ← List.head?_eq_getElem?]
    have hfirst : add_section to_lowercase text (pre ++ h :: hs) s (h, pre.length) =
        add to_lowercase s
          (h.title, trim ((text.take (hs.head?.elim text.length (·.offset))).drop h.stop)) := by
      unfold add_section
      dsimp only
      rw [hnext]
      rfl
    have hrest := ih (pre ++ [h]) (add to_lowercase s
      (h.title, trim ((text.take (hs.head?.elim text.length (·.offset))).drop h.stop)))
    rw [List.length_append, List.append_assoc] at hrest
    rw [List.zipIdx_cons, List.foldl_cons, hfirst]
    exact hrest

theorem lookup_or_insert (key k : String) (body : Text) (found : List (String × Text)) :
    (or_insert key body found).lookup k =
      (found.lookup k).or (if key = k then some body else none) := by
  unfold or_insert
  split
  next hsome =>
    split
    next hkey =>
      obtain ⟨b, hb⟩ := Option.isSome_iff_exists.mp hsome
      rw [← hkey, hb]
      rfl
    next => rw [Option.or_none]
  next =>
    rw [List.lookup_append, List.lookup_cons, List.lookup_nil]
    by_cases hkey : key = k
    · rw [if_pos hkey, hkey, beq_self_eq_true]
    · rw [if_neg hkey, beq_false_of_ne (Ne.symm hkey)]

theorem found_foldl {k : String} (hk : k ≠ "") (xs : List (Text × Text)) (s : Sections) :
    (xs.foldl (add to_lowercase) s).found.lookup k =
      (s.found.lookup k).or
        ((xs.find? fun x => known (to_lowercase x.1) = k).map (·.2)) := by
  induction xs generalizing s with
  | nil => rw [List.foldl_nil, List.find?_nil, Option.map_none, Option.or_none]
  | cons x xs ih =>
    have hadd : (add to_lowercase s x).found.lookup k = (s.found.lookup k).or
        (if known (to_lowercase x.1) = k then some x.2 else none) := by
      unfold add
      by_cases hkey : known (to_lowercase x.1) = ""
      · rw [if_pos hkey, hkey, if_neg (Ne.symm hk), Option.or_none]
        split <;> rfl
      · rw [if_neg hkey]
        exact lookup_or_insert _ _ _ _
    rw [List.foldl_cons, ih, hadd, Option.or_assoc]
    by_cases hkey : known (to_lowercase x.1) = k
    · rw [if_pos hkey, List.find?_cons_of_pos (by simpa using hkey)]
      rfl
    · rw [if_neg hkey, List.find?_cons_of_neg (by simpa using hkey), Option.none_or]

theorem extra_foldl (xs : List (Text × Text)) (s : Sections) :
    (xs.foldl (add to_lowercase) s).extra = s.extra ++
      (xs.filter fun x => known (to_lowercase x.1) = "" && x.2 ≠ []).map fun x =>
        titled x.1 x.2 := by
  induction xs generalizing s with
  | nil => exact (List.append_nil _).symm
  | cons x xs ih =>
    rw [List.foldl_cons, ih]
    unfold add
    by_cases hkey : known (to_lowercase x.1) = ""
    · by_cases hbody : x.2 = []
      · rw [if_pos hkey, if_neg (fun h => h hbody), List.filter_cons_of_neg (by simp [hbody])]
      · rw [if_pos hkey, if_pos hbody, List.filter_cons_of_pos (by simp [hkey, hbody]),
          List.map_cons, List.append_assoc]
        rfl
    · rw [if_neg hkey, List.filter_cons_of_neg (by simp [hkey])]

theorem assemble_congr {found found' : String → Option Text}
    (h : ∀ k, k ≠ "" → found k = found' k) (extra : List Text) :
    assemble found extra = assemble found' extra := by
  have hmissing : missing found = missing found' := by
    unfold missing
    congr 1
    refine List.filter_congr fun r hr => ?_
    have hne : r.1 ≠ "" := by
      rintro heq
      revert hr
      unfold required
      simp [Prod.ext_iff, heq]
    rw [h r.1 hne]
  unfold assemble
  rw [hmissing, h "participation" (by decide), h "replies" (by decide),
    h "delegation" (by decide), h "workers" (by decide), h "debriefs" (by decide)]

theorem parse_scanned {text : Text} (h : Utf8.len text ≤ LIMIT) :
    parse to_lowercase text = contract_of to_lowercase (scanned text (headings text)) := by
  have hfold := foldl_add_section to_lowercase text [] (headings text) ⟨[], []⟩
  rw [List.nil_append, List.length_nil] at hfold
  unfold parse contract_of
  rw [if_neg (Nat.not_lt.mpr h)]
  dsimp only
  rw [hfold, extra_foldl, List.nil_append]
  refine assemble_congr (fun k hk => ?_) _
  rw [found_foldl to_lowercase hk]
  rfl

theorem missing_iff (found : String → Option Text) :
    missing found ≠ [] ↔ ∃ r ∈ required, ∀ body ∈ found r.1, body = [] := by
  unfold missing
  rw [Ne, List.map_eq_nil_iff, List.filter_eq_nil_iff]
  push Not
  simp [Option.all_eq_true]

theorem error_iff (found : String → Option Text) (extra : List Text) :
    (∃ e, assemble found extra = .error e) ↔
      ∃ r ∈ required, ∀ body ∈ found r.1, body = [] := by
  rw [← missing_iff]
  unfold assemble
  split
  next h => exact ⟨fun _ => h, fun _ => ⟨_, rfl⟩⟩
  next h =>
    refine ⟨?_, fun hne => absurd hne h⟩
    rintro ⟨e, he⟩
    cases he

end Sections

/-- `parse` finds the sections that the grammar matches; a title loses the number signs before
it. -/
theorem parse_spec (to_lowercase : Text → Text) (text : Text) :
    let found := sections plain (find_iter grammar text)
    let first k := (found.find? fun x => known (to_lowercase x.1) = k).map (·.2)
    (headings text).map (fun h => (text.drop h.offset, h.title)) =
        (find_iter grammar text).map (fun m => (m.start.after, plain m.value)) ∧
      (parse to_lowercase text =
        if Utf8.len text > LIMIT then .error "contract exceeds 64 KiB"
        else contract_of to_lowercase found) ∧
      ((∃ e, parse to_lowercase text = .error e) ↔
        Utf8.len text > LIMIT ∨ ∃ r ∈ required, ∀ body ∈ first r.1, body = []) := by
  dsimp only
  have hall := headings_spec text
  have hsections : scanned text (headings text) = sections plain (find_iter grammar text) :=
    scanned_eq hall (pairwise_matches grammar 0 [] text)
  have hparse : parse to_lowercase text =
      if Utf8.len text > LIMIT then .error "contract exceeds 64 KiB"
      else contract_of to_lowercase (sections plain (find_iter grammar text)) := by
    split
    next hlen =>
      unfold parse
      rw [if_pos hlen]
    next hlen => rw [parse_scanned to_lowercase (Nat.not_lt.mp hlen), hsections]
  refine ⟨?_, hparse, ?_⟩
  · rw [← List.forall₂_eq_eq_eq, List.forall₂_map_left_iff, List.forall₂_map_right_iff]
    exact List.Forall₂.imp (fun h m hx => by rw [hx.start, hx.title]) hall
  · rw [hparse]
    split
    next hlen => exact ⟨fun _ => .inl hlen, fun _ => ⟨_, rfl⟩⟩
    next hlen =>
      unfold contract_of
      dsimp only
      rw [error_iff, or_iff_right hlen]

/-- Grammar and code differ in a title that begins with a number sign. -/
theorem title_signs :
    let text := "## Participation\na\n## # Replies\nb".toList
    let lower := List.map Char.toLower
    parse lower text = .ok ⟨['a'], ['b'], [], [], [], []⟩ ∧
      contract_of lower (sections id (find_iter grammar text)) =
        .error "contract is missing or has an empty section: ## Replies" :=
  ⟨rfl, rfl⟩

end Fridica.Config.ContractText
