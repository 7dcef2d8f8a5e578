import Fridica.Exec.Settings.Toml.Dates
import Fridica.Lib.Text

/-!
# Numbers read back

What is written of a number reads as it was: an integer, and the shortest decimal of a number of
binary64 in each of the four shapes that it has.
-/

namespace Fridica.Exec.Settings

open Fridica.Toml

/-! ## Numbers -/

/-- The beginning of a number ends: no digit is next, and nothing that would make the digits before
it something else than decimal. -/
structure Ends (t : Text) : Prop where
  stops : Stops t
  others : ∀ c ∈ ['-', ':', 'x', 'b', 'o', '_'], t.head? ≠ some c

theorem Delimited.ends {t : Text} (h : Delimited t) : Ends t := by
  refine ⟨h.stops, fun c hc => h.head_ne ?_⟩
  simp only [List.mem_cons, List.not_mem_nil, or_false] at hc
  rcases hc with rfl | rfl | rfl | rfl | rfl | rfl <;> decide

/-- Digits of an integer: no zero is before others. -/
structure Leading (ds : Text) : Prop where
  digits : Digits ds
  nonempty : ds ≠ []
  zero : ds.head? = some '0' → ds = ['0']

def sign_text (negative : Bool) : Text := if negative then ['-'] else []

section Numbers

variable {ds t rest : Text} {w : Nat}

theorem Digits.ne {c : Char} (h : Digits ds) (hc : c.isDigit = false) : ds.head? ≠ some c := by
  intro heq
  have hdigit := h c (List.mem_of_head? heq)
  rw [hc] at hdigit
  cases hdigit

theorem head_drop_ne {c : Char} (hds : Digits ds) (hc : c.isDigit = false) (ht : t.head? ≠ some c) :
    (ds.drop w ++ t).head? ≠ some c := by
  have hdrop : Digits (ds.drop w) := fun c hc => hds c (List.mem_of_mem_drop hc)
  cases hcase : ds.drop w with
  | nil => simpa using ht
  | cons d es =>
    have hhead := hdrop.ne hc
    rw [hcase] at hhead
    exact hhead

theorem not_date (negative : Bool) (hds : Digits ds) (ht : Ends t) :
    datetime (sign_text negative ++ ds ++ t) = none ∧
      local_time (sign_text negative ++ ds ++ t) = none := by
  cases negative with
  | true => simp [sign_text, datetime, calendar, local_time, digits_not_digit]
  | false =>
    have hdate : char '-' (ds.drop 4 ++ t) = none :=
      char_none (head_drop_ne hds rfl (ht.others '-' (by simp)))
    have htime : char ':' (ds.drop 2 ++ t) = none :=
      char_none (head_drop_ne hds rfl (ht.others ':' (by simp)))
    simp only [sign_text, Bool.false_eq_true, if_false, List.nil_append, datetime, calendar,
      local_time, digits_span hds ht.stops]
    constructor
    · split <;> simp [hdate]
    · split <;> simp [htime]

theorem radix_none {name : Char} (base : Nat) (negative : Bool) (hds : Digits ds) (hne : ds ≠ [])
    (hname : name ∈ ['x', 'b', 'o']) (ht : Ends t) :
    radix name base (sign_text negative ++ ds ++ t) = none := by
  have hother : name.isDigit = false ∧ name ∈ ['-', ':', 'x', 'b', 'o', '_'] := by
    simp only [List.mem_cons, List.not_mem_nil, or_false] at hname
    rcases hname with rfl | rfl | rfl <;> decide
  unfold radix
  rw [if_neg]
  cases negative with
  | true => simp [sign_text]
  | false =>
    intro htake
    have hsecond : (ds.drop 1 ++ t).head? ≠ some name :=
      head_drop_ne hds hother.1 (ht.others name hother.2)
    obtain ⟨d, es, rfl⟩ := List.exists_cons_of_ne_nil hne
    apply hsecond
    simp only [sign_text, Bool.false_eq_true, if_false, List.nil_append, List.cons_append,
      List.take_succ_cons, List.cons.injEq] at htake
    simp only [List.drop_succ_cons, List.drop_zero]
    cases hrest : es ++ t with
    | nil => simp [hrest] at htake
    | cons c u => simpa [hrest] using htake.2

theorem run_cons {p : Char → Bool} {c : Char} (h : p c = true) (t : Text) :
    run p (c :: t) = (c :: (run p t).1, (run p t).2) := by
  rw [run.eq_def]
  exact if_pos h

theorem run_stops {p : Char → Bool} {c : Char} (h : p c = false) (hline : c ≠ '_') (t : Text) :
    run p (c :: t) = ([], c :: t) := by
  rw [run.eq_def]
  simp [h, hline]

theorem run_read (hds : Digits ds) (ht : Stops t) (hline : t.head? ≠ some '_') :
    run Char.isDigit (ds ++ t) = (ds, t) := by
  induction ds with
  | nil =>
    cases t with
    | nil => rfl
    | cons c t => exact run_stops (ht c rfl) (by simpa using hline) t
  | cons d ds ih =>
    rw [digits_cons] at hds
    rw [List.cons_append, run_cons hds.1, ih hds.2]

theorem digits_of_read (hds : Digits ds) (hne : ds ≠ []) (ht : Stops t) (hline : t.head? ≠ some '_') :
    digits_of Char.isDigit (ds ++ t) = some (ds, t) := by
  obtain ⟨d, ds, rfl⟩ := List.exists_cons_of_ne_nil hne
  rw [digits_cons] at hds
  simp [digits_of, hds.1, run_read hds.2 ht hline]

theorem integer_part_read (h : Leading ds) (ht : Ends t) :
    integer_part (ds ++ t) = some (ds, t) := by
  unfold integer_part
  split
  next hzero =>
    rw [List.head?_append_of_ne_nil _ h.nonempty] at hzero
    rw [h.zero hzero]
    rfl
  · exact digits_of_read h.digits h.nonempty ht.stops (ht.others '_' (by simp))

theorem sign_read (negative : Bool) (hds : Digits ds) (hne : ds ≠ []) :
    sign (sign_text negative ++ ds ++ t) = (negative, ds ++ t) := by
  cases negative with
  | true => simp [sign, sign_text]
  | false =>
    have hhead : ∀ c : Char, c.isDigit = false → (ds ++ t).head? ≠ some c := by
      intro c hc
      rw [List.head?_append_of_ne_nil _ hne]
      exact hds.ne hc
    simp only [sign, sign_text, Bool.false_eq_true, if_false, List.nil_append]
    rw [if_neg (hhead '-' rfl), if_neg (hhead '+' rfl)]

/-- The point and the digits after it. -/
def fraction_text (frac : Option Text) : Text := (frac.map ('.' :: ·)).getD []

/-- An exponent with its sign, which is always written. -/
def exponent_text (exp : Option (Bool × Text)) : Text :=
  (exp.map fun e => 'e' :: (if e.1 then '-' else '+') :: e.2).getD []

def exponent_value (exp : Option (Bool × Text)) : Int :=
  (exp.map fun e =>
    let n := Nat.ofDigitChars 10 e.2 0
    if e.1 then -(n : Int) else n).getD 0

theorem fraction_read {frac : Option Text} (hfrac : ∀ fs ∈ frac, Digits fs ∧ fs ≠ [])
    (ht : Ends t) (hpoint : t.head? ≠ some '.') : fraction (fraction_text frac ++ t) = (frac, t) := by
  unfold fraction fraction_text
  cases frac with
  | none => simp [char_none hpoint]
  | some fs =>
    obtain ⟨hdigits, hne⟩ := hfrac fs rfl
    simp [digits_of_read hdigits hne ht.stops (ht.others '_' (by simp))]

theorem exponent_read {exp : Option (Bool × Text)} (hexp : ∀ e ∈ exp, Digits e.2 ∧ e.2 ≠ [])
    (h : Delimited rest) :
    exponent (exponent_text exp ++ rest) = (exp.map fun _ => exponent_value exp, rest) := by
  unfold exponent exponent_text
  cases exp with
  | none =>
    have hnot : ¬ (rest.head? = some 'e' ∨ rest.head? = some 'E') := by
      rw [not_or]
      exact ⟨h.head_ne (by decide), h.head_ne (by decide)⟩
    simp [hnot]
  | some e =>
    obtain ⟨negative, es⟩ := e
    obtain ⟨hdigits, hne⟩ := hexp _ rfl
    have hline : rest.head? ≠ some '_' := h.head_ne (by decide)
    have hread := digits_of_read hdigits hne h.stops hline
    cases negative <;> simp [sign, hread, exponent_value]

theorem ends_exponent (exp : Option (Bool × Text)) (h : Delimited rest) :
    Ends (exponent_text exp ++ rest) ∧ (exponent_text exp ++ rest).head? ≠ some '.' := by
  cases exp with
  | none => exact ⟨h.ends, h.head_ne (by decide)⟩
  | some e =>
    refine ⟨⟨?_, ?_⟩, ?_⟩ <;> simp [exponent_text, Stops]

theorem ends_fraction (frac : Option Text) (exp : Option (Bool × Text)) (h : Delimited rest) :
    Ends (fraction_text frac ++ (exponent_text exp ++ rest)) := by
  cases frac with
  | none => exact (ends_exponent exp h).1
  | some fs => exact ⟨by simp [fraction_text, Stops], by simp [fraction_text]⟩

/-! ### All of a number -/

/-- What is written reads as a scalar, with either sign and before anything that may follow. -/
def Reads (text : Text) (of : Bool → Scalar) : Prop :=
  ∀ negative rest, Delimited rest →
    scalar (sign_text negative ++ text ++ rest) = some (of negative, rest)

theorem scalar_decimal (negative : Bool) (hds : Leading ds) (ht : Ends t) {a : Scalar}
    (h : decimal (sign_text negative ++ ds ++ t) = some (a, rest)) :
    scalar (sign_text negative ++ ds ++ t) = some (a, rest) := by
  obtain ⟨hdate, htime⟩ := not_date negative hds.digits ht
  have hradix : ∀ name ∈ ['x', 'b', 'o'], ∀ base,
      radix name base (sign_text negative ++ ds ++ t) = none :=
    fun name hname base => radix_none base negative hds.digits hds.nonempty hname ht
  unfold scalar
  rw [hdate]
  dsimp only
  rw [htime]
  dsimp only
  rw [hradix 'x' (by simp), hradix 'b' (by simp), hradix 'o' (by simp), h]
  rfl

theorem int_reads (hds : Leading ds) :
    Reads ds fun negative =>
      .int (if negative then -(Nat.ofDigitChars 10 ds 0 : Int) else Nat.ofDigitChars 10 ds 0) := by
  intro negative rest h
  apply scalar_decimal negative hds h.ends
  have hfrac : fraction (fraction_text none ++ rest) = (none, rest) :=
    fraction_read (by simp) h.ends (h.head_ne (by decide))
  have hexp : exponent (exponent_text none ++ rest) = (none, rest) := exponent_read (by simp) h
  rw [fraction_text, Option.map_none, Option.getD_none, List.nil_append] at hfrac
  rw [exponent_text, Option.map_none, Option.getD_none, List.nil_append] at hexp
  unfold decimal
  rw [sign_read negative hds.digits hds.nonempty]
  dsimp only
  rw [integer_part_read hds h.ends, Option.map_some, hfrac]
  dsimp only
  rw [hexp, if_pos ⟨rfl, rfl⟩]

theorem float_reads {frac : Option Text} {exp : Option (Bool × Text)} (hds : Leading ds)
    (hfrac : ∀ fs ∈ frac, Digits fs ∧ fs ≠ []) (hexp : ∀ e ∈ exp, Digits e.2 ∧ e.2 ≠ [])
    (hsome : frac ≠ none ∨ exp ≠ none) :
    Reads (ds ++ (fraction_text frac ++ exponent_text exp)) fun negative =>
      .float (Binary64.of_decimal negative (Nat.ofDigitChars 10 (ds ++ frac.getD []) 0)
        (exponent_value exp - (frac.getD []).length)) := by
  intro negative rest h
  obtain ⟨hends, hpoint⟩ := ends_exponent exp h
  have hint := ends_fraction frac exp h
  have hassoc : sign_text negative ++ (ds ++ (fraction_text frac ++ exponent_text exp)) ++ rest =
      sign_text negative ++ ds ++ (fraction_text frac ++ (exponent_text exp ++ rest)) := by
    simp
  have hgetD : (exp.map fun _ => exponent_value exp).getD 0 = exponent_value exp := by
    cases exp <;> rfl
  rw [hassoc]
  apply scalar_decimal negative hds hint
  unfold decimal
  rw [sign_read negative hds.digits hds.nonempty]
  dsimp only
  rw [integer_part_read hds hint, Option.map_some, fraction_read hfrac hends hpoint]
  dsimp only
  rw [exponent_read hexp h, if_neg, hgetD]
  simpa [imp_iff_not_or] using hsome

end Numbers

/-! ### The shortest decimal -/

section Shortest

variable {ds : Text} {n c units : Nat}

theorem toDigits_leading (n : Nat) : Leading (Nat.toDigits 10 n) := by
  refine ⟨toDigits_digits n, Nat.toDigits_ne_nil, fun hzero => ?_⟩
  by_cases h : n = 0
  · rw [h]
    rfl
  · exact absurd hzero (Text.toDigits_head h)

theorem str_reads {text : Text} {n : Int} (h : str n = .ok text) {rest : Text}
    (hrest : Delimited rest) : scalar (text ++ rest) = some (.int n, rest) := by
  unfold str at h
  dsimp only at h
  split at h
  · cases h
  · have hread := int_reads (toDigits_leading n.natAbs) (n < 0) rest hrest
    rw [Nat.ofDigitChars_ten_toDigits] at hread
    have htext : sign_text (n < 0) ++ Nat.toDigits 10 n.natAbs = text := by
      rw [← Except.ok.inj h]
      by_cases hneg : n < 0 <;> simp [sign_text, hneg]
    have hvalue : (if decide (n < 0) then -(n.natAbs : Int) else n.natAbs) = n := by
      by_cases hneg : n < 0
      · rw [if_pos (by simpa using hneg), Int.ofNat_natAbs_of_nonpos (by omega), Int.neg_neg]
      · rw [if_neg (by simpa using hneg), Int.natAbs_of_nonneg (by omega)]
    rw [htext] at hread
    dsimp only at hread
    rw [hread, hvalue]

theorem exponent_digits_read (n : Nat) :
    Digits (exponent_digits n) ∧ exponent_digits n ≠ [] ∧
      Nat.ofDigitChars 10 (exponent_digits n) 0 = n := by
  unfold exponent_digits
  split
  next h =>
    exact ⟨padded_digits 2 n, List.ne_nil_of_length_pos (by simp), padded_value (by omega)⟩
  · exact ⟨toDigits_digits n, Nat.toDigits_ne_nil, Nat.ofDigitChars_ten_toDigits⟩

variable {of of' : Bool → Scalar}

theorem Reads.congr {text text' : Text} (h : Reads text of) (htext : text' = text)
    (hof : ∀ negative, of' negative = of negative) : Reads text' of' := by
  rw [htext, funext hof]
  exact h

/-- Digits of which the first is not zero. -/
structure Significant (ds : Text) : Prop where
  digits : Digits ds
  nonempty : ds ≠ []
  head : ds.head? ≠ some '0'

theorem Significant.leading (h : Significant ds) {es : Text} (hdigits : Digits es) (hne : es ≠ [])
    (heq : es.head? = ds.head?) : Leading es :=
  ⟨hdigits, hne, fun hzero => absurd (heq ▸ hzero) h.head⟩

/-- The number that digits stand for when the point is after so many of them. -/
def pointed (ds : Text) (point : Int) (negative : Bool) : Scalar :=
  .float (Binary64.of_decimal negative (Nat.ofDigitChars 10 ds 0) (point - ds.length))

theorem some_fraction (hds : Digits ds) (hne : ds ≠ []) :
    ∀ fs ∈ some ds, Digits fs ∧ fs ≠ [] := by
  simp [hds, hne]

theorem no_exponent : ∀ e ∈ (none : Option (Bool × Text)), Digits e.2 ∧ e.2 ≠ [] := by simp

theorem places_zeros_before (h : Significant ds) {point : Int} (hpoint : point ≤ 0) :
    Reads ('0' :: '.' :: (List.replicate (-point).toNat '0' ++ ds)) (pointed ds point) := by
  have hdigits : Digits (List.replicate (-point).toNat '0' ++ ds) :=
    digits_append.mpr ⟨digits_zeros _, h.digits⟩
  have hread := float_reads ⟨digits_zeros 1, by simp, by simp⟩
    (some_fraction hdigits (by simp [h.nonempty])) no_exponent (.inl (by simp))
  apply hread.congr
  · simp [fraction_text, exponent_text]
  · intro negative
    have hvalue : Nat.ofDigitChars 10 (List.replicate 1 '0' ++
        (List.replicate (-point).toNat '0' ++ ds)) 0 = Nat.ofDigitChars 10 ds 0 := by
      rw [Nat.ofDigitChars_append, Nat.ofDigitChars_append, Nat.ofDigitChars_replicate_zero,
        Nat.ofDigitChars_replicate_zero, Nat.mul_zero]
    simp only [pointed, Option.getD_some, hvalue]
    congr 2
    simp [exponent_value]
    omega

theorem places_zeros_after (h : Significant ds) {point : Int} (hpoint : ds.length ≤ point) :
    Reads (ds ++ List.replicate (point - ds.length).toNat '0' ++ ['.', '0']) (pointed ds point) := by
  obtain ⟨j, hj⟩ : ∃ j : Nat, point = ds.length + j :=
    ⟨(point - ds.length).toNat, by omega⟩
  have hdigits : Digits (ds ++ List.replicate j '0') :=
    digits_append.mpr ⟨h.digits, digits_zeros _⟩
  have hleading : Leading (ds ++ List.replicate j '0') := by
    apply h.leading hdigits
    · simp [h.nonempty]
    · rw [List.head?_append_of_ne_nil _ h.nonempty]
  have hread := float_reads hleading
    (some_fraction (digits_zeros 1) (by simp)) no_exponent (.inl (by simp))
  apply hread.congr
  · simp [hj, fraction_text, exponent_text]
  · intro negative
    have hvalue : Nat.ofDigitChars 10 (ds ++ List.replicate j '0' ++ List.replicate 1 '0') 0 =
        Nat.ofDigitChars 10 ds 0 * 10 ^ (j + 1) := by
      rw [Nat.ofDigitChars_append, Nat.ofDigitChars_append, Nat.ofDigitChars_replicate_zero,
        Nat.ofDigitChars_replicate_zero]
      ring
    simp only [pointed, Option.getD_some, hvalue]
    rw [hj, ← Binary64.of_decimal_shift negative _ (j + 1)]
    congr 2
    simp [exponent_value]

theorem places_between (h : Significant ds) {n : Nat} (hpos : 0 < n) (hlt : n < ds.length) :
    Reads (ds.take n ++ '.' :: ds.drop n) (pointed ds n) := by
  have hleading : Leading (ds.take n) := by
    apply h.leading
    · exact fun c hc => h.digits c (List.mem_of_mem_take hc)
    · simp [h.nonempty]
      omega
    · rw [List.head?_take, if_neg (by omega)]
  have hdigits : Digits (ds.drop n) := fun c hc => h.digits c (List.mem_of_mem_drop hc)
  have hread := float_reads hleading
    (some_fraction hdigits (by simp [hlt])) no_exponent (.inl (by simp))
  apply hread.congr
  · simp [fraction_text, exponent_text]
  · intro negative
    simp only [pointed, Option.getD_some, List.take_append_drop]
    congr 2
    simp [exponent_value]
    omega

theorem places_exponent (h : Significant ds) (point : Int) :
    Reads (ds.take 1 ++ (if ds.length = 1 then [] else '.' :: ds.drop 1) ++
      'e' :: (if point - 1 < 0 then '-' else '+') :: exponent_digits (point - 1).natAbs)
      (pointed ds point) := by
  obtain ⟨hdigits, hne, hvalue⟩ := exponent_digits_read (point - 1).natAbs
  have hpos : 0 < ds.length := List.length_pos_of_ne_nil h.nonempty
  have hleading : Leading (ds.take 1) := by
    apply h.leading
    · exact fun c hc => h.digits c (List.mem_of_mem_take hc)
    · simp [h.nonempty]
    · rw [List.head?_take, if_neg (by omega)]
  have hdrop : Digits (ds.drop 1) := fun c hc => h.digits c (List.mem_of_mem_drop hc)
  have hfrac : ∀ fs ∈ if ds.length = 1 then none else some (ds.drop 1), Digits fs ∧ fs ≠ [] := by
    split
    · simp
    · exact some_fraction hdrop (List.ne_nil_of_length_pos (by rw [List.length_drop]; omega))
  have hexp : ∀ e ∈ some (decide (point - 1 < 0), exponent_digits (point - 1).natAbs),
      Digits e.2 ∧ e.2 ≠ [] := by simp [hdigits, hne]
  have hread := float_reads hleading hfrac hexp (.inr (by simp))
  apply hread.congr
  · split <;> simp [fraction_text, exponent_text]
  · intro negative
    have hfrac : ds.take 1 ++ (if ds.length = 1 then none else some (ds.drop 1)).getD [] = ds := by
      split
      next hone => simp [List.take_of_length_le (Nat.le_of_eq hone)]
      · rw [Option.getD_some, List.take_append_drop]
    have hexp : exponent_value (some (decide (point - 1 < 0), exponent_digits (point - 1).natAbs)) =
        point - 1 := by
      simp only [exponent_value, Option.map_some, Option.getD_some, hvalue, decide_eq_true_eq]
      split
      next hneg => rw [Int.ofNat_natAbs_of_nonpos (by omega), Int.neg_neg]
      next hneg => exact Int.natAbs_of_nonneg (by omega)
    have hlen : ((if ds.length = 1 then none else some (ds.drop 1)).getD []).length =
        ds.length - 1 := by
      split <;> simp_all
    simp only [pointed, hfrac, hexp, hlen]
    congr 2
    omega

theorem places_reads (h : Significant ds) (point : Int) :
    Reads (places ds point) (pointed ds point) := by
  unfold places
  split
  · split
    next hle => exact places_zeros_before h hle
    next hle =>
      split
      next hlen => exact places_zeros_after h hlen
      next hlen =>
        have hnat : point = (point.toNat : Int) := by omega
        rw [hnat]
        exact places_between h (by omega) (by omega)
  · exact places_exponent h point

theorem trailing_zeros (ds : Text) :
    ∃ z, ds = ds.rdropWhile (· = '0') ++ List.replicate z '0' := by
  refine ⟨(ds.rtakeWhile (· = '0')).length, ?_⟩
  have hzeros : ds.rtakeWhile (· = '0') =
      List.replicate (ds.rtakeWhile (· = '0')).length '0' := by
    apply List.eq_replicate_of_mem
    intro c hc
    simpa using List.mem_rtakeWhile_imp hc
  rw [← hzeros, List.rdropWhile_append_rtakeWhile]

theorem significant_of_trailing {z : Nat} (hc : c ≠ 0)
    (h : Nat.toDigits 10 c = ds ++ List.replicate z '0') : Significant ds := by
  have hne : ds ≠ [] := by
    rintro rfl
    apply hc
    rw [← Nat.ofDigitChars_ten_toDigits (n := c), h, List.nil_append,
      Nat.ofDigitChars_replicate_zero, Nat.mul_zero]
  refine ⟨(digits_append.mp (h ▸ toDigits_digits c)).1, hne, ?_⟩
  have hhead := Text.toDigits_head hc
  rwa [h, List.head?_append_of_ne_nil _ hne] at hhead

theorem pointed_of_trailing {z : Nat} (h : Nat.toDigits 10 c = ds ++ List.replicate z '0')
    (e : Int) (negative : Bool) :
    pointed ds ((Nat.toDigits 10 c).length + e) negative =
      .float (Binary64.of_decimal negative c e) := by
  have hvalue : c = Nat.ofDigitChars 10 ds 0 * 10 ^ z := by
    rw [← Nat.ofDigitChars_ten_toDigits (n := c), h, Nat.ofDigitChars_append,
      Nat.ofDigitChars_replicate_zero, Nat.mul_comm]
  have hpoint : ((Nat.toDigits 10 c).length : Int) + e - ds.length = e + z := by
    rw [h, List.length_append, List.length_replicate]
    omega
  have hshift := Binary64.of_decimal_shift negative (Nat.ofDigitChars 10 ds 0) z (e + z)
  rw [← hvalue, show e + z - (z : Int) = e by omega] at hshift
  rw [pointed, hpoint, hshift]

theorem shortest_ne_zero (h : Binary64.Fits units) (hne : units ≠ 0) (i : Nat) :
    (Binary64.shortest units i).1 ≠ 0 := by
  intro hzero
  have hread := Binary64.shortest_reads h false i
  rw [hzero, Binary64.of_decimal_zero _ _ Binary64.fits_zero] at hread
  injection hread with _ hunits
  exact hne hunits.symm

theorem significant_eq (units : Nat) : significant units =
    ((Nat.toDigits 10 (Binary64.shortest units Binary64.PLACES).1).rdropWhile (· = '0'),
      (Nat.toDigits 10 (Binary64.shortest units Binary64.PLACES).1).length +
        (Binary64.shortest units Binary64.PLACES).2) := by
  unfold significant
  generalize Binary64.shortest units Binary64.PLACES = s
  rfl

theorem repr_reads (h : Binary64.Fits units) {rest : Text} (hrest : Delimited rest)
    (negative : Bool) :
    scalar (repr negative units ++ rest) = some (.float (.finite negative units h), rest) := by
  unfold repr
  by_cases hzero : units = 0
  · subst hzero
    have hread := float_reads (toDigits_leading 0) (some_fraction (digits_zeros 1) (by simp))
      no_exponent (.inl (by simp)) negative rest hrest
    have hvalue : Nat.ofDigitChars 10
        (Nat.toDigits 10 0 ++ (some (List.replicate 1 '0')).getD []) 0 = 0 := by decide
    rw [hvalue] at hread
    dsimp only at hread
    rw [Binary64.of_decimal_zero _ _ h] at hread
    exact hread
  · obtain ⟨z, hz⟩ := trailing_zeros (Nat.toDigits 10 (Binary64.shortest units Binary64.PLACES).1)
    have hread := places_reads (significant_of_trailing (shortest_ne_zero h hzero _) hz)
      ((Nat.toDigits 10 (Binary64.shortest units Binary64.PLACES).1).length +
        (Binary64.shortest units Binary64.PLACES).2) negative rest hrest
    rw [pointed_of_trailing hz, Binary64.shortest_reads h] at hread
    rw [if_neg hzero, significant_eq]
    exact hread

end Shortest

/-! ### The words for what is not finite -/

theorem scalar_word {c : Char} (hc : c.isDigit = false) (hzero : c ≠ '0') {t : Text}
    (h : integer_part (sign (c :: t)).2 = none) : scalar (c :: t) = special (c :: t) := by
  have hdate : datetime (c :: t) = none := by
    simp [datetime, calendar, digits_not_digit hc]
  have htime : local_time (c :: t) = none := by simp [local_time, digits_not_digit hc]
  have hradix : ∀ name base, radix name base (c :: t) = none := by
    intro name base
    unfold radix
    rw [if_neg]
    simp [hzero]
  unfold scalar
  rw [hdate]
  dsimp only
  rw [htime]
  dsimp only
  rw [hradix, hradix, hradix, decimal, h]
  rfl

theorem infinity_read (negative : Bool) (rest : Text) :
    scalar (sign_text negative ++ "inf".toList ++ rest) =
      some (.float (.infinity negative), rest) := by
  cases negative with
  | true => exact scalar_word rfl (by decide) rfl
  | false => exact scalar_word rfl (by decide) rfl

theorem nan_read (rest : Text) : scalar ("nan".toList ++ rest) = some (.float .nan, rest) :=
  scalar_word rfl (by decide) rfl

/-! ### Any scalar -/

theorem scalar_read {a : Scalar} {text rest : Text} (h : scalar_text (some a) = .ok text)
    (hrest : Delimited rest) : scalar (text ++ rest) = some (a, rest) := by
  cases a with
  | int n => exact str_reads h hrest
  | float x =>
    cases x with
    | nan =>
      obtain rfl := Except.ok.inj h
      exact nan_read rest
    | infinity negative =>
      obtain rfl := Except.ok.inj h
      have hread := infinity_read negative rest
      cases negative <;> exact hread
    | finite negative units hfits =>
      obtain rfl := Except.ok.inj h
      exact repr_reads hfits hrest negative
  | date d =>
    obtain rfl := Except.ok.inj h
    unfold scalar
    rw [datetime_read_date d hrest]
  | time t =>
    obtain rfl := Except.ok.inj h
    unfold scalar
    rw [datetime_time, local_time_read t hrest.stops (hrest.head_ne (by decide))]
  | datetime d t o =>
    obtain rfl := Except.ok.inj h
    unfold scalar
    rw [datetime_read d t o hrest]

end Fridica.Exec.Settings
