import Mathlib.Data.List.TakeWhile

/-!
# Characters, trimming and digits

`char::is_control`, `str::trim` and `str::trim_matches` over a class of characters, and the digits
of a number.
-/

namespace Fridica.Text

/-- The characters with the Unicode property White_Space. -/
def whitespace (c : Char) : Bool :=
  let n := c.toNat
  (9 ≤ n ∧ n ≤ 13) ∨ n = 0x20 ∨ n = 0x85 ∨ n = 0xA0 ∨ n = 0x1680 ∨ (0x2000 ≤ n ∧ n ≤ 0x200A) ∨
    n = 0x2028 ∨ n = 0x2029 ∨ n = 0x202F ∨ n = 0x205F ∨ n = 0x3000

/-- `char::is_control` -/
def is_control (c : Char) : Bool := c.toNat < 0x20 || (0x7F ≤ c.toNat && c.toNat < 0xA0)

def trim_start_matches (p : Char → Bool) (s : String) : String :=
  String.ofList (s.toList.dropWhile p)

def trim_end_matches (p : Char → Bool) (s : String) : String :=
  String.ofList (s.toList.reverse.dropWhile p).reverse

def trim_matches (p : Char → Bool) (s : String) : String :=
  trim_end_matches p (trim_start_matches p s)

def trim (s : String) : String := trim_matches whitespace s

def trim_end (s : String) : String := trim_end_matches whitespace s

theorem trim_matches_eq_empty {p : Char → Bool} {s : String} :
    trim_matches p s = "" ↔ ∀ c ∈ s.toList, p c := by
  unfold trim_matches trim_end_matches trim_start_matches
  rw [String.toList_ofList, ← String.ofList_nil, String.ofList_inj, List.reverse_eq_nil_iff,
    List.dropWhile_eq_nil_iff]
  constructor
  · intro h c hc
    by_contra hp
    rw [← List.takeWhile_append_dropWhile (p := p) (l := s.toList), List.mem_append] at hc
    rcases hc with hc | hc
    · exact hp (List.mem_takeWhile_imp hc)
    · exact hp (h c (List.mem_reverse.mpr hc))
  · intro h c hc
    exact h c ((List.dropWhile_sublist p).mem (List.mem_reverse.mp hc))

theorem trim_matches_eq_self {p : Char → Bool} {s : String} (h : ∀ c ∈ s.toList, p c = false) :
    trim_matches p s = s := by
  have hkeep : ∀ l : List Char, (∀ c ∈ l, p c = false) → l.dropWhile p = l := by
    intro l hl
    cases l with
    | nil => rfl
    | cons c l => exact List.dropWhile_cons_of_neg (by simp [hl c List.mem_cons_self])
  unfold trim_matches trim_end_matches trim_start_matches
  rw [String.toList_ofList, hkeep s.toList h, hkeep, List.reverse_reverse, String.ofList_toList]
  exact fun c hc => h c (List.mem_reverse.mp hc)

theorem trim_matches_length (p : Char → Bool) (s : String) :
    (trim_matches p s).length ≤ s.length := by
  unfold trim_matches trim_end_matches trim_start_matches
  rw [String.toList_ofList, String.length_ofList, List.length_reverse]
  refine (List.dropWhile_sublist p).length_le.trans ?_
  rw [List.length_reverse]
  exact (List.dropWhile_sublist p).length_le

/-! ## Digits -/

section Digits

variable {n m : Nat}

theorem toDigits_injective (h : Nat.toDigits 10 n = Nat.toDigits 10 m) : n = m := by
  rw [← Nat.ofDigitChars_toDigits (b := 10) (n := n) (by omega) (by omega), h,
    Nat.ofDigitChars_toDigits (by omega) (by omega)]

theorem toDigits_between {a b : List Char} {c : Char}
    (h : a ++ c :: (Nat.toDigits 10 n ++ b) = a ++ c :: (Nat.toDigits 10 m ++ b)) : n = m := by
  have htail := List.append_cancel_left h
  rw [List.cons.injEq] at htail
  exact toDigits_injective (List.append_cancel_right htail.2)

theorem not_mem_toDigits {c : Char} (hc : c.isDigit = false) : c ∉ Nat.toDigits 10 n := by
  intro h
  rw [Nat.isDigit_of_mem_toDigits (by omega) (by omega) h] at hc
  cases hc

theorem toDigits_head (h : n ≠ 0) : (Nat.toDigits 10 n).head? ≠ some '0' := by
  induction n using Nat.strong_induction_on with
  | _ n ih =>
    by_cases hlt : n < 10
    · have hdigit : ∀ m < 10, m ≠ 0 → some (Nat.digitChar m) ≠ some '0' := by decide
      rw [Nat.toDigits_of_lt_base hlt]
      exact hdigit n hlt h
    · have hhead := ih (n / 10) (by omega) (by omega)
      rw [Nat.toDigits_of_base_le (by omega) (by omega), List.head?_append]
      cases h : Nat.toDigits 10 (n / 10) with
      | nil => exact absurd h Nat.toDigits_ne_nil
      | cons d ds => rwa [h] at hhead

end Digits

end Fridica.Text
