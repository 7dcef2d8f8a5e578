import Mathlib.Algebra.GroupWithZero.Nat
import Mathlib.Data.List.Induction

/-!
# Reading bytes as text

`String::from_utf8_lossy`: every byte sequence that is no character, as far as it could be the
beginning of one, reads as one replacement character. Between two newlines the bytes read as they
do alone.
-/

namespace Fridica.Utf8

abbrev Bytes := List UInt8

def NEWLINE : UInt8 := 10

def replacement : Char := Char.ofNat 0xFFFD

/-- A character that was begun: the bits so far, the range of its next byte, and how many bytes
come after that. -/
structure Pending where
  code : Nat
  low : Nat
  high : Nat
  more : Nat
deriving DecidableEq

/-- What was read at a byte, and the character that is begun there. -/
abbrev Step := List Char × Option Pending

/-- A byte between two characters. -/
def start (b : UInt8) : Step :=
  let n := b.toNat
  if n < 0x80 then ([Char.ofNat n], none)
  else if 0xC2 ≤ n ∧ n ≤ 0xDF then ([], some ⟨n - 0xC0, 0x80, 0xBF, 0⟩)
  else if n = 0xE0 then ([], some ⟨0, 0xA0, 0xBF, 1⟩)
  else if n = 0xED then ([], some ⟨0xD, 0x80, 0x9F, 1⟩)
  else if 0xE1 ≤ n ∧ n ≤ 0xEF then ([], some ⟨n - 0xE0, 0x80, 0xBF, 1⟩)
  else if n = 0xF0 then ([], some ⟨0, 0x90, 0xBF, 2⟩)
  else if n = 0xF4 then ([], some ⟨4, 0x80, 0x8F, 2⟩)
  else if 0xF1 ≤ n ∧ n ≤ 0xF3 then ([], some ⟨n - 0xF0, 0x80, 0xBF, 2⟩)
  else ([replacement], none)

/-- The next byte of a character that was begun. -/
def go_on (p : Pending) (code : Nat) : Step :=
  match p.more with
  | 0 => ([Char.ofNat code], none)
  | more + 1 => ([], some ⟨code, 0x80, 0xBF, more⟩)

def step : Option Pending → UInt8 → Step
  | none, b => start b
  | some p, b =>
    if p.low ≤ b.toNat ∧ b.toNat ≤ p.high then go_on p (p.code * 64 + (b.toNat - 0x80))
    else (replacement :: (start b).1, (start b).2)

/-- The bytes end in a character that was begun. -/
def finish : Option Pending → List Char
  | none => []
  | some _ => [replacement]

def run (s : Option Pending) : Bytes → List Char
  | [] => finish s
  | b :: bs => (step s b).1 ++ run (step s b).2 bs

def lossy (bs : Bytes) : List Char := run none bs

/-! ## Newlines -/

/-- No newline comes of such a character. -/
def Beyond (s : Option Pending) : Prop :=
  ∀ p, s = some p → 0x80 ≤ p.low ∧ (0 < p.code ∨ 0x80 < p.low ∧ 0 < p.more)

theorem ofNat_ne_newline {n : Nat} (h : n ≠ 10) : Char.ofNat n ≠ '\n' := by
  intro heq
  by_cases hn : n.isValidChar
  · have htoNat : (Char.ofNat n).toNat = n := by
      rw [Char.ofNat, dif_pos hn]
      rfl
    rw [heq] at htoNat
    exact h htoNat.symm
  · rw [Char.ofNat, dif_neg hn] at heq
    exact absurd heq (by decide)

theorem toNat_ne_newline {b : UInt8} (h : b ≠ NEWLINE) : b.toNat ≠ 10 :=
  fun hb => h (UInt8.toNat_inj.mp hb)

theorem beyond_none : Beyond none := fun _ h => nomatch h

theorem start_beyond (b : UInt8) : Beyond (start b).2 := by
  unfold start Beyond
  dsimp only
  intro p hp
  split_ifs at hp <;> simp at hp <;> subst hp <;> simp <;> omega

theorem start_newline : start NEWLINE = (['\n'], none) := rfl

theorem start_other {b : UInt8} (h : b ≠ NEWLINE) : '\n' ∉ (start b).1 := by
  have hb := toNat_ne_newline h
  unfold start
  dsimp only
  split_ifs <;> simp [replacement]
  exact Ne.symm (ofNat_ne_newline hb)

variable {s : Option Pending}

theorem step_begun {p : Pending} {b : UInt8} (h : p.low ≤ b.toNat ∧ b.toNat ≤ p.high) :
    step (some p) b = go_on p (p.code * 64 + (b.toNat - 0x80)) := if_pos h

theorem step_broken {p : Pending} {b : UInt8} (h : ¬ (p.low ≤ b.toNat ∧ b.toNat ≤ p.high)) :
    step (some p) b = (replacement :: (start b).1, (start b).2) := if_neg h

theorem step_beyond (b : UInt8) (h : Beyond s) : Beyond (step s b).2 := by
  cases s with
  | none => exact start_beyond b
  | some p =>
    obtain ⟨hlow, hcode⟩ := h p rfl
    by_cases hb : p.low ≤ b.toNat ∧ b.toNat ≤ p.high
    · rw [step_begun hb, go_on]
      cases hmore : p.more with
      | zero => exact beyond_none
      | succ more =>
        intro q hq
        rw [← Option.some.inj hq]
        exact ⟨Nat.le_refl _, .inl (by dsimp only; omega)⟩
    · rw [step_broken hb]
      exact start_beyond b

theorem step_newline (h : Beyond s) : step s NEWLINE = (finish s ++ ['\n'], none) := by
  cases s with
  | none => rfl
  | some p =>
    have hlow := (h p rfl).1
    have hout : ¬ (p.low ≤ NEWLINE.toNat ∧ NEWLINE.toNat ≤ p.high) := by
      have hten : NEWLINE.toNat = 10 := rfl
      omega
    rw [step_broken hout, start_newline]
    rfl

theorem step_other {b : UInt8} (h : Beyond s) (hb : b ≠ NEWLINE) : '\n' ∉ (step s b).1 := by
  cases s with
  | none => exact start_other hb
  | some p =>
    obtain ⟨hlow, hcode⟩ := h p rfl
    by_cases hbyte : p.low ≤ b.toNat ∧ b.toNat ≤ p.high
    · rw [step_begun hbyte, go_on]
      cases hmore : p.more with
      | zero =>
        refine fun hmem => ofNat_ne_newline ?_ (List.mem_singleton.mp hmem).symm
        omega
      | succ more => exact List.not_mem_nil
    · rw [step_broken hbyte, List.mem_cons, not_or]
      exact ⟨Ne.symm (ofNat_ne_newline (by decide)), start_other hb⟩

theorem run_append_newline (h : Beyond s) (a b : Bytes) :
    run s (a ++ NEWLINE :: b) = run s a ++ '\n' :: lossy b := by
  induction a generalizing s with
  | nil =>
    rw [List.nil_append, run, run, step_newline h, List.append_assoc]
    cases s <;> rfl
  | cons x a ih =>
    rw [List.cons_append, run, ih (step_beyond x h), run, List.append_assoc]

theorem newline_not_mem_run (h : Beyond s) {a : Bytes} (ha : NEWLINE ∉ a) : '\n' ∉ run s a := by
  induction a generalizing s with
  | nil =>
    cases s with
    | none => exact List.not_mem_nil
    | some p => exact fun hmem => ofNat_ne_newline (by decide) (List.mem_singleton.mp hmem).symm
  | cons x a ih =>
    rw [List.mem_cons, not_or] at ha
    rw [run, List.mem_append, not_or]
    exact ⟨step_other h (Ne.symm ha.1), ih (step_beyond x h) ha.2⟩

theorem lossy_append_newline (a b : Bytes) :
    lossy (a ++ NEWLINE :: b) = lossy a ++ '\n' :: lossy b := run_append_newline beyond_none a b

theorem newline_not_mem_lossy {a : Bytes} (ha : NEWLINE ∉ a) : '\n' ∉ lossy a :=
  newline_not_mem_run beyond_none ha

/-! ## Text without a fault -/

/-- A byte that can come here. -/
def accepts : Option Pending → UInt8 → Bool
  | none, b => b.toNat < 0x80 || (0xC2 ≤ b.toNat && b.toNat ≤ 0xF4)
  | some p, b => p.low ≤ b.toNat && b.toNat ≤ p.high

/-- The characters of the bytes and what they leave begun, when all bytes can come. -/
def read (s : Option Pending) : Bytes → Option (List Char × Option Pending)
  | [] => some ([], s)
  | b :: bs =>
    if accepts s b then (read (step s b).2 bs).map fun r => ((step s b).1 ++ r.1, r.2) else none

/-- `str::from_utf8` -/
def from_utf8 (bs : Bytes) : Option (List Char) :=
  (read none bs).bind fun r => if r.2 = none then some r.1 else none

theorem read_append (s : Option Pending) (a b : Bytes) :
    read s (a ++ b) = (read s a).bind fun r => (read r.2 b).map fun q => (r.1 ++ q.1, q.2) := by
  induction a generalizing s with
  | nil => simp [read]
  | cons x a ih =>
    rw [List.cons_append, read, read]
    split
    · rw [ih]
      cases read (step s x).2 a with
      | none => rfl
      | some r =>
        rw [Option.bind_some, Option.map_some, Option.bind_some, Option.map_map]
        refine congrArg (Option.map · _) ?_
        funext q
        simp
    · rfl

/-- `str::len` -/
def len (t : List Char) : Nat := (t.map Char.utf8Size).sum

theorem len_append (a b : List Char) : len (a ++ b) = len a + len b := by
  unfold len
  rw [List.map_append, List.sum_append]

theorem utf8Size_ofNat (n : Nat) :
    (Char.ofNat n).utf8Size ≤ if n < 0x80 then 1 else if n < 0x800 then 2 else
      if n < 0x10000 then 3 else 4 := by
  by_cases hn : n.isValidChar
  · have hval : (Char.ofNat n).val.toNat = n := by
      rw [Char.ofNat, dif_pos hn]
      rfl
    unfold Char.utf8Size
    simp only [UInt32.le_iff_toNat_le, hval]
    simp
    split_ifs <;> omega
  · rw [Char.ofNat, dif_neg hn]
    have hone : Char.utf8Size ⟨0, by decide⟩ = 1 := rfl
    refine Nat.le_trans (Nat.le_of_eq hone) ?_
    split_ifs <;> omega

/-- A character was begun this many bytes ago. -/
def Begun (ago : Nat) (p : Pending) : Prop :=
  p.high ≤ 0xBF ∧
    (ago = 1 ∧ (p.more = 0 ∧ p.code < 0x20 ∨ p.more = 1 ∧ p.code < 0x10 ∨ p.more = 2) ∨
      ago = 2 ∧ (p.more = 0 ∧ p.code < 0x400 ∨ p.more = 1) ∨ ago = 3 ∧ p.more = 0)

/-- The characters of bytes take no more room than these, and what is begun was begun after
them. -/
def Left (a : Bytes) (u : List Char) : Option Pending → Prop
  | none => len u ≤ a.length
  | some p => ∃ ago, len u + ago ≤ a.length ∧ Begun ago p ∧
      read none (a.take (a.length - ago)) = some (u, none)

theorem start_begun {b : UInt8} {p : Pending} (h : (start b).2 = some p) :
    Begun 1 p ∧ (start b).1 = [] := by
  unfold start at h ⊢
  dsimp only at h ⊢
  split_ifs at h ⊢ <;> simp at h <;> subst h <;> simp [Begun] <;> omega

theorem start_whole {b : UInt8} (hb : accepts none b = true) (h : (start b).2 = none) :
    len (start b).1 ≤ 1 := by
  unfold accepts at hb
  unfold start at h ⊢
  dsimp only at hb h ⊢
  simp only [Bool.or_eq_true, Bool.and_eq_true, decide_eq_true_eq] at hb
  split_ifs at h ⊢
  · have hsize := utf8Size_ofNat b.toNat
    rw [if_pos (by assumption)] at hsize
    simpa [len] using hsize
  · omega

variable {a : Bytes} {u : List Char}

theorem Left.step {b : UInt8} (h : Left a u s) (hread : read none a = some (u, s))
    (hb : accepts s b = true) :
    Left (a ++ [b]) (u ++ (step s b).1) (step s b).2 := by
  cases s with
  | none =>
    have hlen : len u ≤ a.length := h
    rw [Utf8.step]
    cases hs : (start b).2 with
    | none =>
      have hone := start_whole hb hs
      unfold Left
      rw [len_append, List.length_append, List.length_singleton]
      omega
    | some p =>
      obtain ⟨hbegun, hout⟩ := start_begun hs
      refine ⟨1, ?_, hbegun, ?_⟩
      · rw [hout, List.append_nil, List.length_append, List.length_singleton]
        omega
      · rw [hout, List.append_nil, List.length_append, List.length_singleton, Nat.add_sub_cancel,
          List.take_left, hread]
  | some p =>
    obtain ⟨ago, hlen, ⟨hhigh, hbegun⟩, hwhole⟩ := h
    have hrange : p.low ≤ b.toNat ∧ b.toNat ≤ p.high := by
      unfold accepts at hb
      simpa using hb
    rw [step_begun hrange, go_on]
    cases hmore : p.more with
    | zero =>
      have hsize := utf8Size_ofNat (p.code * 64 + (b.toNat - 0x80))
      have hone : len [Char.ofNat (p.code * 64 + (b.toNat - 0x80))] ≤ ago + 1 := by
        unfold len
        rw [List.map_singleton, List.sum_singleton]
        split_ifs at hsize <;> omega
      unfold Left
      dsimp only
      rw [len_append, List.length_append, List.length_singleton]
      omega
    | succ more =>
      refine ⟨ago + 1, ?_, ⟨Nat.le_refl _, ?_⟩, ?_⟩
      · rw [List.append_nil, List.length_append, List.length_singleton]
        omega
      · dsimp only
        omega
      · rw [List.append_nil, List.length_append, List.length_singleton, Nat.add_sub_add_right,
          List.take_append_of_le_length (Nat.sub_le _ _), hwhole]

theorem read_left (h : read none a = some (u, s)) : Left a u s := by
  induction a using List.reverseRecOn generalizing u s with
  | nil =>
    obtain ⟨rfl, rfl⟩ := Prod.mk.inj (Option.some.inj h)
    exact Nat.le_refl _
  | append_singleton a b ih =>
    rw [read_append, Option.bind_eq_some_iff] at h
    obtain ⟨⟨u', s'⟩, hread, hlast⟩ := h
    obtain ⟨⟨v, s''⟩, hb, heq⟩ := Option.map_eq_some_iff.mp hlast
    rw [read] at hb
    split at hb
    next haccepts =>
      have hstep := (ih hread).step hread haccepts
      rw [read, Option.map_some, List.append_nil] at hb
      obtain ⟨rfl, rfl⟩ := Prod.mk.inj (Option.some.inj hb)
      obtain ⟨rfl, rfl⟩ := Prod.mk.inj heq
      exact hstep
    next => cases hb

theorem from_utf8_eq_some {t : List Char} : from_utf8 a = some t ↔ read none a = some (t, none) := by
  unfold from_utf8
  rw [Option.bind_eq_some_iff]
  constructor
  · rintro ⟨⟨u, s⟩, hread, hend⟩
    split at hend
    next hs =>
      obtain rfl : s = none := hs
      have hu : u = t := Option.some.inj hend
      rw [hread, hu]
    next => cases hend
  · intro h
    exact ⟨(t, none), h, if_pos rfl⟩

theorem len_le {t : List Char} (h : from_utf8 a = some t) : len t ≤ a.length :=
  read_left (from_utf8_eq_some.mp h)

/-- What text begins with is text but for fewer than four bytes. -/
theorem from_utf8_take {t : List Char} (h : from_utf8 a = some t) {n : Nat} (hn : n ≤ a.length) :
    ∃ d < 4, d ≤ n ∧ ∃ u, from_utf8 (a.take (n - d)) = some u := by
  rw [from_utf8_eq_some, ← List.take_append_drop n a, read_append, Option.bind_eq_some_iff] at h
  obtain ⟨⟨u, s⟩, hread, -⟩ := h
  cases s with
  | none => exact ⟨0, by omega, Nat.zero_le _, u, from_utf8_eq_some.mpr hread⟩
  | some p =>
    obtain ⟨ago, hlen, ⟨-, hbegun⟩, hwhole⟩ := read_left hread
    rw [List.length_take, Nat.min_eq_left hn] at hlen hwhole
    rw [List.take_take, Nat.min_eq_left (Nat.sub_le _ _)] at hwhole
    exact ⟨ago, by omega, by omega, u, from_utf8_eq_some.mpr hwhole⟩

theorem from_utf8_prefix {t v : List Char} {n : Nat} (h : from_utf8 a = some t)
    (hv : from_utf8 (a.take n) = some v) : v <+: t := by
  rw [from_utf8_eq_some, ← List.take_append_drop n a, read_append, from_utf8_eq_some.mp hv,
    Option.bind_some] at h
  obtain ⟨q, -, heq⟩ := Option.map_eq_some_iff.mp h
  exact ⟨q.1, (Prod.mk.inj heq).1⟩

end Fridica.Utf8
