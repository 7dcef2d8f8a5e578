import Fridica.Exec.Settings.Toml.Spec

/-!
# Dates and times read back

What is written of a date or a time reads as it was, whatever may follow it in a document.
-/

namespace Fridica.Exec.Settings

open Fridica.Toml

/-! ## Digits -/

/-- All are digits of ten. -/
def Digits (ds : Text) : Prop := ∀ c ∈ ds, c.isDigit = true

/-- No digit is next. -/
def Stops (t : Text) : Prop := ∀ c ∈ t.head?, c.isDigit = false

section Digits

variable {ds t : Text} {n w : Nat}

theorem digits_nil : Digits [] := by simp [Digits]

theorem digits_cons {c : Char} : Digits (c :: ds) ↔ c.isDigit = true ∧ Digits ds := by simp [Digits]

theorem digits_append {es : Text} : Digits (ds ++ es) ↔ Digits ds ∧ Digits es := by
  simp [Digits, or_imp, forall_and]

theorem digits_zeros (n : Nat) : Digits (List.replicate n '0') := by
  intro c hc
  rw [List.eq_of_mem_replicate hc]
  rfl

theorem digitChar_isDigit (h : n < 10) : n.digitChar.isDigit = true := by
  simpa [Nat.isDigit_digitChar] using h

theorem padded_digits (w n : Nat) : Digits (padded w n) := by
  induction w generalizing n with
  | zero => exact digits_nil
  | succ w ih =>
    unfold padded
    rw [digits_append, digits_cons]
    exact ⟨ih _, digitChar_isDigit (Nat.mod_lt n (by omega)), digits_nil⟩

@[simp] theorem padded_length (w n : Nat) : (padded w n).length = w := by
  induction w generalizing n with
  | zero => rfl
  | succ w ih => simp [padded, ih]

theorem padded_value (h : n < 10 ^ w) : Nat.ofDigitChars 10 (padded w n) 0 = n := by
  induction w generalizing n with
  | zero =>
    rw [padded, Nat.ofDigitChars_nil]
    simp at h
    omega
  | succ w ih =>
    have hlt : n / 10 < 10 ^ w := by
      rw [Nat.div_lt_iff_lt_mul (by omega), ← Nat.pow_succ]
      exact h
    rw [padded, Nat.ofDigitChars_append, ih hlt,
      Nat.ofDigitChars_cons_digitChar_of_lt_ten (Nat.mod_lt n (by omega)), Nat.ofDigitChars_nil]
    omega

theorem toDigits_digits (n : Nat) : Digits (Nat.toDigits 10 n) :=
  fun _ hc => Nat.isDigit_of_mem_toDigits (by omega) (by omega) hc

theorem takeWhile_digits (hds : Digits ds) (ht : Stops t) :
    (ds ++ t).takeWhile Char.isDigit = ds := by
  rw [List.takeWhile_append_of_pos hds]
  cases t with
  | nil => simp
  | cons c t => rw [List.takeWhile_cons_of_neg (by simp [ht c rfl]), List.append_nil]

theorem digits_of_padded (h : n < 10 ^ w) : digits w (padded w n ++ t) = some (n, t) := by
  have htake : (padded w n ++ t).take w = padded w n := by simp
  have hdrop : (padded w n ++ t).drop w = t := by simp
  unfold digits
  rw [htake, hdrop, if_pos ⟨padded_length w n, List.all_eq_true.mpr (padded_digits w n)⟩,
    padded_value h]

theorem digits_span (hds : Digits ds) (ht : Stops t) : digits w (ds ++ t) =
    if w ≤ ds.length then some (Nat.ofDigitChars 10 (ds.take w) 0, ds.drop w ++ t) else none := by
  unfold digits
  split
  next h =>
    obtain ⟨hlen, hall⟩ := h
    split
    next hle => rw [List.take_append_of_le_length hle, List.drop_append_of_le_length hle]
    next hle =>
      have hlt : ds.length < w := by omega
      cases t with
      | nil =>
        simp at hlen
        omega
      | cons c t =>
        have hmem : c ∈ (ds ++ c :: t).take w := by
          rw [List.take_append, List.mem_append]
          obtain ⟨k, hk⟩ := Nat.exists_eq_add_of_lt hlt
          exact .inr (by simp [show w - ds.length = k + 1 by omega])
        have hdigit := List.all_eq_true.mp hall c hmem
        rw [ht c rfl] at hdigit
        cases hdigit
  next h =>
    rw [if_neg]
    intro hle
    apply h
    rw [List.take_append_of_le_length hle]
    exact ⟨by simp [hle], List.all_eq_true.mpr fun c hc => hds c (List.mem_of_mem_take hc)⟩

theorem digits_not_digit {c : Char} (hc : c.isDigit = false) {w : Nat} (t : Text) :
    digits (w + 1) (c :: t) = none := by
  unfold digits
  rw [if_neg]
  simp [hc]

@[simp] theorem char_cons (c : Char) (t : Text) : char c (c :: t) = some t := by simp [char]

theorem char_none {c : Char} (h : t.head? ≠ some c) : char c t = none := if_neg h

end Digits

/-! ## What follows a value -/

/-- A value ends before a comma, a bracket, a brace after a blank, or a newline. -/
inductive Delimited : Text → Prop
  | comma (t : Text) : Delimited (',' :: t)
  | bracket (t : Text) : Delimited (']' :: t)
  | brace (t : Text) : Delimited (' ' :: '\x7d' :: t)
  | newline (t : Text) : Delimited ('\n' :: t)

theorem Delimited.stops {t : Text} (h : Delimited t) : Stops t := by
  cases h <;> simp [Stops]

theorem Delimited.head_ne {t : Text} {c : Char} (h : Delimited t) (hc : c ∉ [',', ']', ' ', '\n']) :
    t.head? ≠ some c := by
  intro heq
  apply hc
  cases h <;> obtain rfl := Option.some.inj heq <;> decide

/-! ## Dates and times -/

section Dates

variable {rest : Text}

theorem fraction_of_second_read {micro : Nat} (hmicro : micro < 1000000) (hstops : Stops rest)
    (hpoint : rest.head? ≠ some '.') :
    fraction_of_second ((if micro = 0 then [] else '.' :: padded 6 micro) ++ rest) =
      (micro, rest) := by
  unfold fraction_of_second
  split
  next hzero => simp [hpoint, hzero]
  · have hne : padded 6 micro ≠ [] := List.ne_nil_of_length_pos (by simp)
    simp only [List.cons_append, List.head?_cons, List.tail_cons, if_true]
    rw [takeWhile_digits (padded_digits 6 micro) hstops, if_neg hne,
      List.take_append_of_le_length (by simp), List.take_of_length_le (by simp),
      padded_value hmicro, List.drop_left]

theorem local_time_read (time : Time) (hstops : Stops rest) (hpoint : rest.head? ≠ some '.') :
    local_time (Time.isoformat time ++ rest) = some (time, rest) := by
  obtain ⟨hour, minute, second, micro, hvalid⟩ := time
  unfold local_time Time.isoformat
  simp only [List.append_assoc, List.cons_append]
  rw [digits_of_padded (by omega)]
  simp only [Option.bind_eq_bind, Option.bind_some, char_cons]
  rw [digits_of_padded (by omega)]
  simp only [Option.bind_some, char_cons]
  rw [digits_of_padded (by omega)]
  simp only [Option.bind_some]
  rw [fraction_of_second_read hvalid.2.2.2 hstops hpoint, dif_pos hvalid]

theorem clock_read {n : Nat} (h : n < 1440) :
    clock (padded 2 (n / 60) ++ ':' :: (padded 2 (n % 60) ++ rest)) = some (⟨n, h⟩, rest) := by
  have hclock : n / 60 < 24 ∧ n % 60 < 60 := by omega
  unfold clock
  rw [digits_of_padded (by omega)]
  simp only [Option.bind_eq_bind, Option.bind_some, char_cons]
  rw [digits_of_padded (by omega)]
  simp only [Option.bind_some]
  rw [dif_pos hclock]
  congr 3
  omega

theorem time_offset_read (o : Toml.Offset) :
    time_offset (Offset.isoformat o ++ rest) = some (o, rest) := by
  obtain ⟨minutes, hvalid⟩ := o
  unfold time_offset Offset.isoformat
  rw [List.cons_append, List.append_assoc, List.cons_append, List.head?_cons, List.tail_cons]
  dsimp only
  by_cases hneg : minutes < 0
  · rw [if_pos hneg, if_pos rfl, clock_read hvalid, Option.map_some]
    congr 3
    dsimp only
    omega
  · rw [if_neg hneg, if_neg (by decide), char_cons, Option.bind_some, clock_read hvalid,
      Option.map_some]
    congr 3
    dsimp only
    omega

theorem offset_read (o : Option Toml.Offset) (h : Delimited rest) :
    offset ((o.map Offset.isoformat).getD [] ++ rest) = (o, rest) := by
  unfold offset
  cases o with
  | none =>
    have hnone : time_offset rest = none := by
      cases h <;> rfl
    rw [Option.map_none, Option.getD_none, List.nil_append, hnone, if_neg]
    rw [not_or]
    exact ⟨h.head_ne (by decide), h.head_ne (by decide)⟩
  | some o =>
    rw [Option.map_some, Option.getD_some, time_offset_read, if_neg]
    unfold Offset.isoformat
    rw [List.cons_append, List.head?_cons]
    split <;> decide

theorem local_time_delimited (h : Delimited rest) :
    (if rest.head?.any (['T', 't', ' '].contains ·) then local_time rest.tail else none) = none := by
  cases h <;> simp [local_time, digits]

theorem date_of_valid (d : Toml.Date) : date_of d.year d.month d.day = some d := by
  unfold date_of
  rw [dif_pos d.valid_year, dif_pos d.valid_month, dif_pos d.valid_day]

theorem calendar_read (d : Toml.Date) :
    calendar (Date.isoformat d ++ rest) = some ((d.year, d.month, d.day), rest) := by
  have hyear := d.valid_year
  have hmonth := d.valid_month
  have hday : 1 ≤ d.day ∧ d.day ≤ 31 := by
    have hvalid := d.valid_day
    unfold days_in_month at hvalid
    split_ifs at hvalid <;> omega
  unfold calendar Date.isoformat
  simp only [List.append_assoc, List.cons_append]
  rw [digits_of_padded (by omega)]
  simp only [Option.bind_eq_bind, Option.bind_some, char_cons]
  rw [digits_of_padded (by omega)]
  simp only [Option.bind_some, char_cons]
  rw [digits_of_padded (by omega)]
  simp only [Option.bind_some]
  rw [if_pos ⟨hmonth.1, hmonth.2, hday.1, hday.2⟩]

theorem datetime_read_date (d : Toml.Date) (h : Delimited rest) :
    datetime (Date.isoformat d ++ rest) = some (some (.date d), rest) := by
  unfold datetime
  rw [calendar_read, Option.map_some]
  dsimp only
  rw [local_time_delimited h, date_of_valid]
  rfl

theorem datetime_read (d : Toml.Date) (t : Toml.Time) (o : Option Toml.Offset) (h : Delimited rest) :
    datetime (Date.isoformat d ++ 'T' :: (Time.isoformat t ++ (o.map Offset.isoformat).getD []) ++
      rest) = some (some (.datetime d t o), rest) := by
  have hstops : Stops ((o.map Offset.isoformat).getD [] ++ rest) ∧
      ((o.map Offset.isoformat).getD [] ++ rest).head? ≠ some '.' := by
    cases o with
    | none => exact ⟨h.stops, h.head_ne (by decide)⟩
    | some o =>
      unfold Offset.isoformat Stops
      rw [Option.map_some, Option.getD_some, List.cons_append, List.head?_cons]
      split <;> simp
  unfold datetime
  rw [List.append_assoc, calendar_read, Option.map_some]
  dsimp only
  rw [List.cons_append, List.head?_cons, List.tail_cons, if_pos (by rfl), List.append_assoc,
    local_time_read t hstops.1 hstops.2]
  dsimp only
  rw [date_of_valid, offset_read o h]
  rfl

theorem datetime_time (t : Toml.Time) (rest : Text) :
    datetime (Time.isoformat t ++ rest) = none := by
  have hcolon : (Time.isoformat t ++ rest).take 4 =
      padded 2 t.hour ++ ':' :: (padded 2 t.minute).take 1 := by
    simp [Time.isoformat, List.take_append]
  have hdigits : digits 4 (Time.isoformat t ++ rest) = none := by
    unfold digits
    rw [hcolon, if_neg]
    simp
  unfold datetime calendar
  rw [hdigits]
  rfl

end Dates

end Fridica.Exec.Settings
