import Mathlib.Data.List.TakeWhile
import Mathlib.Data.List.Infix

/-!
# Regular expressions

A pattern has its matches at a place of a text in the order in which a backtracking engine tries
them: the first one counts. Loops are over classes of characters.
-/

namespace Fridica.Regex

abbrev Text := List Char

/-- A place in a text: what is before it, the nearest first, and what comes after it. -/
structure Place where
  before : Text
  after : Text
deriving DecidableEq

def Place.advance (p : Place) (n : Nat) : Place :=
  ⟨(p.after.take n).reverse ++ p.before, p.after.drop n⟩

/-- What is captured, and where the match ends. -/
def Pattern (α : Type) := Place → List (α × Place)

variable {α β : Type}

instance : Monad Pattern where
  pure a := fun p => [(a, p)]
  bind m f := fun p => (m p).flatMap fun r => f r.1 r.2

/-- `a|b` -/
def either (a b : Pattern α) : Pattern α := fun p => a p ++ b p

/-- An assertion, such as `^`. -/
def assert (holds : Place → Bool) : Pattern Unit := fun p => if holds p then [((), p)] else []

/-- A text, letter by letter. -/
def literal (same : Char → Char → Bool) (t : Text) : Pattern Text := fun p =>
  if t.length ≤ p.after.length ∧ (t.zip p.after).all fun c => same c.1 c.2 then
    [(p.after.take t.length, p.advance t.length)]
  else []

/-- How many characters of a class come, up to a bound. -/
def reach (bound : Option Nat) (c : Char → Bool) (t : Text) : Nat :=
  match bound with
  | none => (t.takeWhile c).length
  | some n => min n (t.takeWhile c).length

def runs (low : Nat) (bound : Option Nat) (c : Char → Bool) (t : Text) : List Nat :=
  List.range' low (reach bound c t + 1 - low)

/-- `c{low,bound}` -/
def greedy (low : Nat) (bound : Option Nat) (c : Char → Bool) : Pattern Text := fun p =>
  (runs low bound c p.after).reverse.map fun n => (p.after.take n, p.advance n)

/-- `c{low,bound}?` -/
def lazy (low : Nat) (bound : Option Nat) (c : Char → Bool) : Pattern Text := fun p =>
  (runs low bound c p.after).map fun n => (p.after.take n, p.advance n)

/-- `m?` -/
def maybe (m : Pattern α) : Pattern Unit := either (do let _ ← m; return) (return)

/-! ## Searching -/

structure Match (α : Type) where
  start : Place
  value : α
  stop : Place

/-- A text in parts: the matches that do not overlap, from the left, and the characters between
them. -/
inductive Part (α : Type)
  | char (c : Char)
  | found (m : Match α)

def Part.found? : Part α → Option (Match α)
  | .char _ => none
  | .found m => some m

def Part.char? : Part α → Option Char
  | .char c => some c
  | .found _ => none

/-- The first match at a place. -/
def at_place (m : Pattern α) (p : Place) : Option (Match α) :=
  (m p).head?.map fun r => ⟨p, r.1, r.2⟩

/-- The parts after `skip` characters more of the last match. A match is taken to have a
character. -/
def parts (m : Pattern α) (skip : Nat) (before : Text) : Text → List (Part α)
  | [] => []
  | c :: t =>
    match skip with
    | skip + 1 => parts m skip (c :: before) t
    | 0 =>
      match at_place m ⟨before, c :: t⟩ with
      | none => .char c :: parts m 0 (c :: before) t
      | some r => .found r :: parts m (t.length - r.stop.after.length) (c :: before) t

def find_iter (m : Pattern α) (t : Text) : List (Match α) :=
  (parts m 0 [] t).filterMap Part.found?

/-- `replace_all` by nothing. -/
def erase (m : Pattern α) (t : Text) : Text := (parts m 0 [] t).filterMap Part.char?

/-! ## One place -/

section Places

variable {p : Place}

theorem mem_runs {low n : Nat} {bound : Option Nat} {c : Char → Bool} {t : Text} :
    n ∈ runs low bound c t ↔ low ≤ n ∧ n ≤ reach bound c t := by
  unfold runs
  rw [List.mem_range'_1]
  omega

theorem bind_apply {m : Pattern α} {f : α → Pattern β} :
    (m >>= f) p = (m p).flatMap fun r => f r.1 r.2 := rfl

theorem greedy_apply {low : Nat} {bound : Option Nat} {c : Char → Bool} :
    greedy low bound c p =
      (runs low bound c p.after).reverse.map fun n => (p.after.take n, p.advance n) := rfl

/-- A loop takes as much as it can. -/
theorem head_greedy {low : Nat} {bound : Option Nat} {c : Char → Bool} :
    (greedy low bound c p).head? =
      if low ≤ reach bound c p.after then
        some (p.after.take (reach bound c p.after), p.advance (reach bound c p.after))
      else none := by
  rw [greedy_apply, List.head?_map, List.head?_reverse]
  unfold runs
  split
  next h =>
    rw [List.getLast?_eq_getElem?, List.length_range', List.getElem?_range' (by omega),
      Option.map_some]
    have hlast : low + 1 * (reach bound c p.after + 1 - low - 1) = reach bound c p.after := by omega
    rw [hlast]
  next h =>
    rw [Nat.sub_eq_zero_of_le (by omega)]
    rfl

theorem at_place_greedy {low : Nat} {bound : Option Nat} {c : Char → Bool} :
    at_place (greedy low bound c) p =
      if low ≤ reach bound c p.after then
        some ⟨p, p.after.take (reach bound c p.after), p.advance (reach bound c p.after)⟩
      else none := by
  unfold at_place
  rw [head_greedy, apply_ite (Option.map _), Option.map_some, Option.map_none]

/-! ### What follows a loop -/

section Loops

variable {low n : Nat} {bound : Option Nat} {c : Char → Bool} {f : Text → Pattern β}
  {r : β × Place}

/-- The first success after `n` repetitions. -/
def tried (f : Text → Pattern β) (p : Place) (n : Nat) : Option (β × Place) :=
  (f (p.after.take n) (p.advance n)).head?

theorem head_greedy_bind : ((greedy low bound c >>= f) p).head? =
    (runs low bound c p.after).reverse.findSome? (tried f p) := by
  rw [bind_apply, List.head?_flatMap, greedy_apply, List.findSome?_map]
  rfl

theorem head_lazy_bind : ((lazy low bound c >>= f) p).head? =
    (runs low bound c p.after).findSome? (tried f p) := by
  rw [bind_apply, List.head?_flatMap]
  unfold lazy
  rw [List.findSome?_map]
  rfl

theorem pairwise_runs (low : Nat) (bound : Option Nat) (c : Char → Bool) (t : Text) :
    (runs low bound c t).Pairwise (· < ·) := List.pairwise_lt_range' 1

theorem greedy_success (bound : Option Nat) (c : Char → Bool) (hlow : low ≤ n)
    (hn : n ≤ reach bound c p.after)
    (h : (tried f p n).isSome) : ∃ m r, n ≤ m ∧ m ≤ reach bound c p.after ∧
      tried f p m = some r ∧ ((greedy low bound c >>= f) p).head? = some r := by
  have hmem : n ∈ (runs low bound c p.after).reverse :=
    List.mem_reverse.mpr (mem_runs.mpr ⟨hlow, hn⟩)
  have hsome : ((runs low bound c p.after).reverse.findSome? (tried f p)).isSome :=
    List.findSome?_isSome_iff.mpr ⟨n, hmem, h⟩
  obtain ⟨r, hr⟩ := Option.isSome_iff_exists.mp hsome
  obtain ⟨l₁, m, l₂, hl, hm, hnone⟩ := List.findSome?_eq_some_iff.mp hr
  have hdown := List.pairwise_reverse.mpr (pairwise_runs low bound c p.after)
  have hruns : m ∈ (runs low bound c p.after).reverse := by
    rw [hl]
    exact List.mem_append_right _ List.mem_cons_self
  refine ⟨m, r, ?_, (mem_runs.mp (List.mem_reverse.mp hruns)).2, hm, head_greedy_bind.trans hr⟩
  rw [hl] at hmem hdown
  rcases List.mem_append.mp hmem with hin | hin
  · rw [hnone n hin] at h
    cases h
  · rcases List.mem_cons.mp hin with rfl | hin
    · exact Nat.le_refl _
    · have hlt := (List.pairwise_cons.mp (List.pairwise_append.mp hdown).2.1).1 n hin
      exact Nat.le_of_lt hlt

theorem greedy_failure (h : ∀ n, low ≤ n → n ≤ reach bound c p.after → tried f p n = none) :
    ((greedy low bound c >>= f) p).head? = none := by
  rw [head_greedy_bind, List.findSome?_eq_none_iff]
  intro n hn
  obtain ⟨hlow, hle⟩ := mem_runs.mp (List.mem_reverse.mp hn)
  exact h n hlow hle

theorem lazy_success (hlow : low ≤ n) (hn : n ≤ reach bound c p.after)
    (h : tried f p n = some r) (hbefore : ∀ m, low ≤ m → m < n → tried f p m = none) :
    ((lazy low bound c >>= f) p).head? = some r := by
  rw [head_lazy_bind, List.findSome?_eq_some_iff]
  have hmem : n ∈ runs low bound c p.after := mem_runs.mpr ⟨hlow, hn⟩
  obtain ⟨l₁, l₂, hl⟩ := List.append_of_mem hmem
  refine ⟨l₁, n, l₂, hl, h, fun m hm => ?_⟩
  have hup := pairwise_runs low bound c p.after
  rw [hl] at hup
  have hlt : m < n := (List.pairwise_append.mp hup).2.2 m hm n List.mem_cons_self
  have hin : m ∈ runs low bound c p.after := by
    rw [hl]
    exact List.mem_append_left _ hm
  exact hbefore m (mem_runs.mp hin).1 hlt

theorem lazy_failure (h : ∀ n, low ≤ n → n ≤ reach bound c p.after → tried f p n = none) :
    ((lazy low bound c >>= f) p).head? = none := by
  rw [head_lazy_bind, List.findSome?_eq_none_iff]
  intro n hn
  obtain ⟨hlow, hle⟩ := mem_runs.mp hn
  exact h n hlow hle

end Loops

end Places

/-! ## The parts of a text -/

section Parts

variable {m : Pattern α} {before t : Text} {c : Char}

theorem parts_none (h : at_place m ⟨before, c :: t⟩ = none) :
    parts m 0 before (c :: t) = .char c :: parts m 0 (c :: before) t := by
  rw [parts, h]

theorem parts_some {r : Match α} (h : at_place m ⟨before, c :: t⟩ = some r) :
    parts m 0 before (c :: t) =
      .found r :: parts m (t.length - r.stop.after.length) (c :: before) t := by
  rw [parts, h]

/-- The matches in what is left of a text, after `skip` characters more. -/
def matches_from (m : Pattern α) (skip : Nat) (before t : Text) : List (Match α) :=
  (parts m skip before t).filterMap Part.found?

theorem matches_cons_none (h : at_place m ⟨before, c :: t⟩ = none) (skip : Nat) :
    matches_from m skip before (c :: t) = matches_from m (skip - 1) (c :: before) t := by
  unfold matches_from
  cases skip with
  | zero =>
    rw [parts_none h]
    rfl
  | succ skip => rfl

theorem matches_cons_some {r : Match α} (h : at_place m ⟨before, c :: t⟩ = some r) :
    matches_from m 0 before (c :: t) =
      r :: matches_from m (t.length - r.stop.after.length) (c :: before) t := by
  unfold matches_from
  rw [parts_some h]
  rfl

/-- Where no match begins, the search goes on behind. -/
theorem matches_pass {u : Text} (t : Text) (skip : Nat) (before : Text)
    (h : ∀ a c b, u = a ++ c :: b → at_place m ⟨a.reverse ++ before, c :: (b ++ t)⟩ = none) :
    matches_from m skip before (u ++ t) =
      matches_from m (skip - u.length) (u.reverse ++ before) t := by
  induction u generalizing skip before with
  | nil => rfl
  | cons c u ih =>
    have hfirst : at_place m ⟨before, c :: (u ++ t)⟩ = none := h [] c u rfl
    rw [List.cons_append, matches_cons_none hfirst, ih (skip - 1) (c :: before), List.length_cons,
      List.reverse_cons, List.append_assoc]
    · congr 1
      omega
    · intro a c' b hu
      have hlater := h (c :: a) c' b (by rw [hu]; rfl)
      rwa [List.reverse_cons, List.append_assoc] at hlater

theorem start_of_mem {r : Match α} {skip : Nat} (h : r ∈ matches_from m skip before t) :
    r.start.after.length + skip ≤ t.length := by
  induction t generalizing skip before with
  | nil => cases h
  | cons c t ih =>
    cases skip with
    | succ skip =>
      have hle : r.start.after.length + skip ≤ t.length := ih h
      rw [List.length_cons]
      omega
    | zero =>
      cases hplace : at_place m ⟨before, c :: t⟩ with
      | none =>
        rw [matches_cons_none hplace] at h
        have hle := ih h
        rw [List.length_cons]
        omega
      | some r' =>
        rw [matches_cons_some hplace] at h
        rcases List.mem_cons.mp h with rfl | h
        · obtain ⟨-, -, rfl⟩ := Option.map_eq_some_iff.mp hplace
          exact Nat.le_refl _
        · have hle := ih h
          rw [List.length_cons]
          omega

/-- Matches do not overlap. -/
theorem pairwise_matches (m : Pattern α) (skip : Nat) (before t : Text) :
    (matches_from m skip before t).Pairwise fun a b =>
      b.start.after.length ≤ a.stop.after.length := by
  induction t generalizing skip before with
  | nil => exact List.Pairwise.nil
  | cons c t ih =>
    cases skip with
    | succ skip => exact ih skip (c :: before)
    | zero =>
      cases hplace : at_place m ⟨before, c :: t⟩ with
      | none =>
        rw [matches_cons_none hplace]
        exact ih _ _
      | some r =>
        rw [matches_cons_some hplace]
        refine List.pairwise_cons.mpr ⟨fun b hb => ?_, ih _ _⟩
        have hle := start_of_mem hb
        omega

end Parts

end Fridica.Regex
