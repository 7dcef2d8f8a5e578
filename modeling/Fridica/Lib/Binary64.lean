import Mathlib.Algebra.Order.Group.Nat
import Mathlib.Data.Nat.Basic
import Mathlib.Tactic.Ring

/-!
# Floating point numbers of 64 bits

Finite numbers count units of 2^-1074, with 53 significant bits. A decimal is read as the nearest of
them. The shortest decimal of a number is the one of fewest places that reads as it.
-/

namespace Fridica.Binary64

/-- The exponent of the unit. -/
def BIAS : Nat := 1074

/-- Where the magnitudes end, in units. -/
def LIMIT : Nat := 2 ^ 2098

/-- A magnitude with 53 significant bits at most. -/
structure Fits (u : Nat) : Prop where
  lt : u < LIMIT
  dvd : 2 ^ (u.log2 - 52) ∣ u

end Binary64

open Binary64 in
inductive Binary64
  | nan
  | infinity (negative : Bool)
  | finite (negative : Bool) (units : Nat) (h : Fits units)

namespace Binary64

/-! ## Rounding -/

/-- The nearest integer to a quotient, and the even one of two. -/
def half_even (n d : Nat) : Nat :=
  if d < 2 * (n % d) ∨ d = 2 * (n % d) ∧ n / d % 2 = 1 then n / d + 1 else n / d

/-- The exponent of the last significant bit of a magnitude. -/
def last_bit (n d : Nat) : Nat := (n / d).log2 - 52

/-- The nearest magnitude to a quotient, were there no limit. -/
def round (n d : Nat) : Nat := half_even n (d * 2 ^ last_bit n d) * 2 ^ last_bit n d

section Round

variable {n d k m u : Nat}

theorem half_even_le (n d : Nat) : half_even n d ≤ n / d + 1 := by
  unfold half_even
  split <;> omega

theorem half_even_exact (hd : 0 < d) : half_even (m * d) d = m := by
  unfold half_even
  rw [Nat.mul_mod_left, Nat.mul_div_cancel m hd]
  simp
  omega

theorem half_even_scale (n d : Nat) (hk : 0 < k) : half_even (n * k) (d * k) = half_even n d := by
  have hless : d * k < 2 * (n % d * k) ↔ d < 2 * (n % d) := by
    rw [← Nat.mul_assoc, Nat.mul_lt_mul_right hk]
  have heq : d * k = 2 * (n % d * k) ↔ d = 2 * (n % d) := by
    rw [← Nat.mul_assoc, Nat.mul_left_inj (by omega)]
  unfold half_even
  simp only [Nat.mul_div_mul_right _ _ hk, Nat.mul_mod_mul_right, hless, heq]

theorem round_scale (n d : Nat) (hk : 0 < k) : round (n * k) (d * k) = round n d := by
  unfold round last_bit
  rw [Nat.mul_div_mul_right _ _ hk, Nat.mul_right_comm, half_even_scale _ _ hk]

theorem round_congr {n' d' : Nat} (hd : 0 < d) (hd' : 0 < d') (h : n * d' = n' * d) :
    round n d = round n' d' := by
  rw [← round_scale n d hd', h, Nat.mul_comm d d', round_scale n' d' hd]

theorem log2_dvd (hm : m ≤ 2 ^ 53) : 2 ^ ((m * 2 ^ k).log2 - 52) ∣ m * 2 ^ k := by
  rcases Nat.lt_or_eq_of_le hm with hlt | rfl
  · by_cases hzero : m = 0
    · simp [hzero]
    have hne : m * 2 ^ k ≠ 0 := Nat.mul_ne_zero hzero (Nat.two_pow_pos k).ne'
    have hlog : (m * 2 ^ k).log2 < 53 + k := by
      rw [Nat.log2_lt hne, Nat.pow_add]
      exact Nat.mul_lt_mul_of_pos_right hlt (Nat.two_pow_pos k)
    exact (Nat.pow_dvd_pow 2 (by omega)).trans (Nat.dvd_mul_left _ _)
  · rw [← Nat.pow_add, Nat.log2_two_pow]
    exact Nat.pow_dvd_pow 2 (by omega)

theorem quotient_lt (n d : Nat) : n / (d * 2 ^ last_bit n d) < 2 ^ 53 := by
  rw [← Nat.div_div_eq_div_mul, Nat.div_lt_iff_lt_mul (Nat.two_pow_pos _), ← Nat.pow_add]
  have hlog := Nat.lt_log2_self (n := n / d)
  refine hlog.trans_le (Nat.pow_le_pow_right (by omega) ?_)
  unfold last_bit
  omega

theorem round_fits (h : round n d < LIMIT) : Fits (round n d) := by
  refine ⟨h, log2_dvd ?_⟩
  have hle := half_even_le n (d * 2 ^ last_bit n d)
  have hlt := quotient_lt n d
  omega

/-- A number reads as itself. -/
theorem round_exact (h : Fits u) (hd : 0 < d) : round (u * d) d = u := by
  unfold round last_bit
  rw [Nat.mul_div_cancel u hd]
  obtain ⟨m, hm⟩ := h.dvd
  have hsplit : u * d = m * (d * 2 ^ (u.log2 - 52)) := by
    conv_lhs => rw [hm]
    ring
  rw [hsplit, half_even_exact (Nat.mul_pos hd (Nat.two_pow_pos _)), Nat.mul_comm, ← hm]

end Round

/-! ## Decimals -/

def of_quotient (negative : Bool) (n d : Nat) : Binary64 :=
  if h : round n d < LIMIT then .finite negative (round n d) (round_fits h) else .infinity negative

/-- Ten to a power, above and below a fraction bar. -/
def above (e : Int) : Nat := 10 ^ e.toNat

def below (e : Int) : Nat := 10 ^ (-e).toNat

/-- The number nearest to so many times a power of ten. -/
def of_decimal (negative : Bool) (c : Nat) (e : Int) : Binary64 :=
  of_quotient negative (c * above e * 2 ^ BIAS) (below e)

section Decimal

variable {n d u c : Nat} {e : Int}

theorem below_pos (e : Int) : 0 < below e := Nat.pow_pos (by omega)

theorem of_quotient_congr {n' d' : Nat} (hd : 0 < d) (hd' : 0 < d') (h : n * d' = n' * d)
    (negative : Bool) : of_quotient negative n d = of_quotient negative n' d' := by
  unfold of_quotient
  simp only [round_congr hd hd' h]

theorem of_quotient_units (negative : Bool) (h : Fits u) (heq : round n d = u) :
    of_quotient negative n d = .finite negative u h := by
  subst heq
  exact dif_pos h.lt

theorem fits_zero : Fits 0 := ⟨by decide +kernel, Nat.dvd_zero _⟩

theorem of_decimal_zero (negative : Bool) (e : Int) (h : Fits 0) :
    of_decimal negative 0 e = .finite negative 0 h := by
  have hround := round_exact h (below_pos e)
  rw [Nat.zero_mul] at hround
  unfold of_decimal
  rw [Nat.zero_mul, Nat.zero_mul]
  exact of_quotient_units negative h hround

theorem powers (e : Int) (j : Nat) : 10 ^ j * above (e - j) * below e = above e * below (e - j) := by
  unfold above below
  rw [← Nat.pow_add, ← Nat.pow_add, ← Nat.pow_add]
  congr 1
  omega

theorem of_decimal_shift (negative : Bool) (c j : Nat) (e : Int) :
    of_decimal negative (c * 10 ^ j) (e - j) = of_decimal negative c e := by
  apply of_quotient_congr (below_pos _) (below_pos _)
  calc c * 10 ^ j * above (e - j) * 2 ^ BIAS * below e
      = c * (10 ^ j * above (e - j) * below e) * 2 ^ BIAS := by ring
    _ = c * above e * 2 ^ BIAS * below (e - j) := by rw [powers]; ring

end Decimal

/-! ## The shortest decimal -/

/-- The two multiples of a power of ten around a number, the nearer one first. -/
def multiples (u : Nat) (e : Int) : List Nat :=
  let n := u * below e
  let d := 2 ^ BIAS * above e
  if half_even n d = n / d then [n / d, n / d + 1] else [n / d + 1, n / d]

def reads_as (u : Nat) (e : Int) (c : Nat) : Bool := round (c * above e * 2 ^ BIAS) (below e) = u

/-- The first decimal that reads as a number, when its places are taken one more at a time. -/
def shortest (u : Nat) : Nat → Nat × Int
  | 0 => (u * 5 ^ BIAS, -BIAS)
  | i + 1 =>
    let e := (i + 1 : Int) - BIAS
    match (multiples u e).find? (reads_as u e) with
    | some c => (c, e)
    | none => shortest u i

/-- No number is as large as ten to the power that this begins with. -/
def PLACES : Nat := 309 + BIAS

theorem shortest_reads {u : Nat} (h : Fits u) (negative : Bool) (i : Nat) :
    of_decimal negative (shortest u i).1 (shortest u i).2 = .finite negative u h := by
  induction i with
  | zero =>
    apply of_quotient_units
    have hexact : u * 5 ^ BIAS * above (-BIAS) * 2 ^ BIAS = u * below (-BIAS) := by
      have hpow : below (-BIAS) = 5 ^ BIAS * 2 ^ BIAS := by
        unfold below
        rw [← Nat.mul_pow]
        congr 1
      have hone : above (-BIAS) = 1 := by simp [above]
      rw [hpow, hone]
      ring
    simp only [shortest]
    rw [hexact, round_exact h (below_pos _)]
  | succ i ih =>
    unfold shortest
    dsimp only
    split
    next c hc =>
      apply of_quotient_units
      simpa [reads_as] using List.find?_some hc
    · exact ih

end Binary64

end Fridica
