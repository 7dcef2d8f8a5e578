import Fridica.Control.Target.Proofs
import Fridica.Github.Client.Spec
import Fridica.Lib.Lines

/-!
# An endpoint is one read

An accepted request becomes its own suffix below its own repository, and no other request becomes
the same endpoint.
-/

namespace Fridica.Github.Client

open Fridica.Checked
open Fridica.Control.Target (Text byte bytes decode decode_cons decode_escape
  to_digit is_ascii_alphanumeric is_ascii_graphic)

/-! ## The repository -/

theorem repository_ok {value : Text} (h : repository value = true) :
    ∃ owner repo, Repository owner repo value := by
  unfold repository at h
  split at h
  · cases h
  next owner repo hsplit =>
    simp only [owner_ok, repo_ok, Bool.and_eq_true, Bool.or_eq_true, List.all_eq_true, beq_iff_eq,
      Bool.not_eq_true', List.isEmpty_eq_false_iff, List.contains_eq_mem, List.mem_cons,
      List.not_mem_nil, or_false, decide_eq_true_eq, decide_eq_false_iff_not, not_or] at h
    obtain ⟨⟨⟨-, hfirst⟩, howner⟩, ⟨⟨hne, -⟩, hdot, hdots⟩, hrepo⟩ := h
    refine ⟨owner, repo, (Infix.split_once_eq_some.mp hsplit).1, ?_, howner, hne, hrepo, hdot, hdots⟩
    rintro rfl
    simp at hfirst

/-! ## The suffix -/

theorem sha_iff {h : Text} : sha h = true ↔ Commit h := by
  simp only [sha, Bool.and_eq_true, Bool.or_eq_true, beq_iff_eq, List.all_eq_true]
  exact ⟨fun ⟨hlen, hall⟩ => ⟨hlen, hall⟩, fun ⟨hlen, hall⟩ => ⟨hlen, hall⟩⟩

@[simp] theorem head_ok {h : Text} {u : Unit} : head h = .ok u ↔ Commit h := by
  unfold head
  rw [← sha_iff]
  split <;> simp_all

@[simp] theorem number_ok {n m : Nat} : number n = .ok m ↔ 1 ≤ n ∧ n ≤ 999999999 ∧ n = m := by
  unfold number
  split <;> simp <;> omega

@[simp] theorem page_ok {p q : Nat} : page p = .ok q ↔ 1 ≤ p ∧ p ≤ 3 ∧ p = q := by
  unfold page
  split <;> simp <;> omega

theorem base_admitted {base : Text} (h : ¬ base_refused base = true) :
    base ≠ [] ∧ ¬ bytes ".." <:+: base := by
  simp only [base_refused, Bool.or_eq_true, not_or, List.isEmpty_iff, decide_eq_true_eq] at h
  exact ⟨h.1.1.1, h.1.2⟩

theorem suffix_ok {op : Operation} {s : Text} (h : suffix op = .ok s) : Fixed op s := by
  cases op with
  | issue n =>
    simp only [suffix, bind_ok, pure_ok, number_ok] at h
    obtain ⟨n, ⟨hlow, hhigh, rfl⟩, rfl⟩ := h
    exact .issue hlow hhigh
  | pull n =>
    simp only [suffix, bind_ok, pure_ok, number_ok] at h
    obtain ⟨n, ⟨hlow, hhigh, rfl⟩, rfl⟩ := h
    exact .pull hlow hhigh
  | tree head =>
    simp only [suffix, bind_ok, pure_ok, head_ok] at h
    obtain ⟨-, hcommit, rfl⟩ := h
    exact .tree hcommit
  | compare base head =>
    simp only [suffix, bind_ok, head_ok] at h
    obtain ⟨-, hcommit, h⟩ := h
    split at h
    · cases h
    next hbase =>
      rw [pure_ok] at h
      rw [← h]
      obtain ⟨hne, hdots⟩ := base_admitted hbase
      exact .compare hcommit hne hdots
  | checks head page =>
    simp only [suffix, bind_ok, pure_ok, head_ok, page_ok] at h
    obtain ⟨-, hcommit, p, ⟨hlow, hhigh, rfl⟩, rfl⟩ := h
    exact .checks hcommit hlow hhigh
  | reviews n page =>
    simp only [suffix, bind_ok, pure_ok, number_ok, page_ok] at h
    obtain ⟨n, ⟨hlow, hhigh, rfl⟩, p, ⟨hfirst, hlast, rfl⟩, rfl⟩ := h
    exact .reviews hlow hhigh hfirst hlast

theorem endpoint_ok {r : Request} {e : Text} (h : r.endpoint = .ok e) :
    ∃ owner repo s, Repository owner repo r.repo ∧ Fixed r.operation s ∧
      e = bytes "/repos/" ++ owner ++ byte '/' :: (repo ++ byte '/' :: s) := by
  unfold Request.endpoint at h
  split at h
  next hrepo =>
    rw [bind_ok] at h
    obtain ⟨s, hs, h⟩ := h
    rw [pure_ok] at h
    obtain ⟨owner, repo, hr⟩ := repository_ok hrepo
    refine ⟨owner, repo, s, hr, suffix_ok hs, ?_⟩
    rw [← h, hr.value]
    simp
  next => cases h

/-! ## The base -/

theorem not_mem_of_all {p : UInt8 → Bool} {l : Text} {d : UInt8} (h : ∀ c ∈ l, p c = true)
    (hd : p d = false) : d ∉ l := by
  intro hmem
  simp [h d hmem] at hd

theorem to_digit_hex_digit : ∀ n < 16, to_digit (hex_digit n) = some n := by decide

theorem encode_cons (b : UInt8) (base : Text) : encode (b :: base) = encode_byte b ++ encode base :=
  List.flatMap_cons

theorem decode_encode (base : Text) : decode (encode base) = some base := by
  induction base with
  | nil => rfl
  | cons b base ih =>
    rw [encode_cons, encode_byte]
    split
    next hkept =>
      have hplain : b ≠ byte '%' := by
        rintro rfl
        exact absurd hkept (by decide)
      rw [List.singleton_append, decode_cons hplain, ih]
      rfl
    next =>
      have hb := b.toNat_lt
      have hbyte : (b.toNat / 16 * 16 + b.toNat % 16).toUInt8 = b := by
        rw [Nat.div_add_mod']
        exact UInt8.ofNat_toNat
      simp only [List.cons_append, List.nil_append]
      rw [decode_escape, to_digit_hex_digit _ (by omega), to_digit_hex_digit _ (by omega), ih]
      simp only [Option.bind_some, Option.map_some, hbyte]

theorem encode_injective {a b : Text} (h : encode a = encode b) : a = b := by
  apply Option.some.inj
  rw [← decode_encode a, h, decode_encode]

theorem plain_of_alphanumeric {c : UInt8} (h : is_ascii_alphanumeric c = true) : Plain c := by
  simp only [is_ascii_alphanumeric, Bool.or_eq_true, Bool.and_eq_true, decide_eq_true_eq] at h
  refine ⟨?_, ?_, ?_⟩
  · simp only [is_ascii_graphic, Bool.and_eq_true, decide_eq_true_eq]
    omega
  · rintro rfl
    exact absurd h (by decide)
  · rintro rfl
    exact absurd h (by decide)

theorem hex_digit_alphanumeric : ∀ n < 16, is_ascii_alphanumeric (hex_digit n) = true := by decide

theorem encode_byte_plain (b : UInt8) : ∀ c ∈ encode_byte b, Plain c := by
  intro c hc
  have hb := b.toNat_lt
  unfold encode_byte at hc
  split at hc
  next hkept =>
    simp only [kept, Bool.or_eq_true, List.contains_eq_mem, List.mem_cons, List.not_mem_nil,
      or_false, decide_eq_true_eq] at hkept
    rw [List.mem_singleton.mp hc]
    rcases hkept with halnum | rfl | rfl | rfl | rfl | rfl
    · exact plain_of_alphanumeric halnum
    all_goals exact ⟨by decide, by decide, by decide⟩
  next =>
    simp only [List.mem_cons, List.not_mem_nil, or_false] at hc
    rcases hc with rfl | rfl | rfl
    · exact ⟨by decide, by decide, by decide⟩
    · exact plain_of_alphanumeric (hex_digit_alphanumeric _ (by omega))
    · exact plain_of_alphanumeric (hex_digit_alphanumeric _ (by omega))

theorem encode_plain (base : Text) : ∀ c ∈ encode base, Plain c := by
  intro c hc
  obtain ⟨b, -, hc⟩ := List.mem_flatMap.mp hc
  exact encode_byte_plain b c hc

theorem hex_digit_ne_dot : ∀ n < 16, hex_digit n ≠ byte '.' := by decide

theorem dot_of_encode {base t : Text} (h : encode base = byte '.' :: t) :
    ∃ rest, base = byte '.' :: rest := by
  cases base with
  | nil => cases h
  | cons b base =>
    rw [encode_cons, encode_byte] at h
    split at h
    next =>
      obtain ⟨rfl, -⟩ := List.cons.inj h
      exact ⟨base, rfl⟩
    next => exact absurd (List.cons.inj h).1 (by decide)

theorem encode_no_dots {base : Text} (h : ¬ bytes ".." <:+: base) :
    ¬ bytes ".." <:+: encode base := by
  have hdots : bytes ".." = [byte '.', byte '.'] := rfl
  rw [hdots] at h ⊢
  induction base with
  | nil => exact h
  | cons b base ih =>
    rw [List.infix_cons_iff, not_or] at h
    have hb := b.toNat_lt
    rw [encode_cons, encode_byte]
    split
    next =>
      rw [List.singleton_append, List.infix_cons_iff, not_or]
      refine ⟨fun hpre => h.1 ?_, ih h.2⟩
      rw [List.cons_prefix_cons] at hpre
      obtain ⟨rfl, t, ht⟩ := hpre
      obtain ⟨rest, rfl⟩ := dot_of_encode ht.symm
      simp
    next =>
      simp only [List.cons_append, List.nil_append, List.infix_cons_iff, List.cons_prefix_cons]
      have hhigh := hex_digit_ne_dot (b.toNat / 16) (by omega)
      have hlow := hex_digit_ne_dot (b.toNat % 16) (by omega)
      rintro (⟨hpercent, -⟩ | ⟨hdot, -⟩ | ⟨hdot, -⟩ | hin)
      · exact absurd hpercent (by decide)
      · exact hhigh hdot.symm
      · exact hlow hdot.symm
      · exact ih h.2 hin

/-! ## Numbers and commits -/

theorem digit_byte {c : Char} (h : c.isDigit = true) :
    48 ≤ (byte c).toNat ∧ (byte c).toNat ≤ 57 ∧ Char.ofNat (byte c).toNat = c := by
  simp only [Char.isDigit, Bool.and_eq_true, decide_eq_true_eq, ge_iff_le] at h
  have hlow : 48 ≤ c.toNat := h.1
  have hhigh : c.toNat ≤ 57 := h.2
  have hbyte : (byte c).toNat = c.toNat := by
    simp only [byte, Nat.toUInt8, UInt8.toNat_ofNat']
    omega
  rw [hbyte]
  exact ⟨hlow, hhigh, Char.ofNat_toNat c⟩

theorem mem_decimal {n : Nat} {c : UInt8} (h : c ∈ decimal n) :
    is_ascii_hexdigit c = true := by
  obtain ⟨d, hd, rfl⟩ := List.mem_map.mp h
  have hdigit := digit_byte (Nat.isDigit_of_mem_toDigits (by omega) (by omega) hd)
  simp only [is_ascii_hexdigit, Bool.or_eq_true, Bool.and_eq_true, decide_eq_true_eq]
  omega

theorem decimal_injective {n m : Nat} (h : decimal n = decimal m) : n = m := by
  have hback : ∀ n, Nat.ofDigitChars 10 ((decimal n).map fun c => Char.ofNat c.toNat) 0 = n := by
    intro n
    have hsame : (decimal n).map (fun c => Char.ofNat c.toNat) = Nat.toDigits 10 n := by
      unfold decimal
      rw [List.map_map]
      refine (List.map_congr_left fun c hc => ?_).trans (List.map_id _)
      exact (digit_byte (Nat.isDigit_of_mem_toDigits (by omega) (by omega) hc)).2.2
    rw [hsame, Nat.ofDigitChars_toDigits (by omega) (by omega)]
  rw [← hback n, h, hback]

/-! ## One request for an endpoint -/

/-- What stands before the first slash of a suffix. -/
def kind : Operation → Text
  | .issue _ => bytes "issues"
  | .pull _ | .reviews _ _ => bytes "pulls"
  | .tree _ => bytes "git"
  | .compare _ _ => bytes "compare"
  | .checks _ _ => bytes "commits"

/-- What stands after it. -/
def below : Operation → Text
  | .issue n | .pull n => decimal n
  | .tree h => bytes "commits/" ++ h
  | .compare base h => encode base ++ bytes "..." ++ h
  | .checks h p => h ++ byte '/' :: (bytes "check-runs?per_page=100&page=" ++ decimal p)
  | .reviews n p => decimal n ++ byte '/' :: (bytes "reviews?per_page=100&page=" ++ decimal p)

theorem fixed_kind {op : Operation} {s : Text} (h : Fixed op s) :
    s = kind op ++ byte '/' :: below op := by
  cases h <;> simp [kind, below, bytes, byte]

theorem slash_kind (op : Operation) : byte '/' ∉ kind op := by
  cases op <;> simp [kind, bytes, byte]

theorem slash_decimal (n : Nat) : byte '/' ∉ decimal n := fun h => absurd (mem_decimal h) (by decide)

theorem decimal_ne (n : Nat) (a b : Text) : decimal n ≠ a ++ byte '/' :: b := by
  intro h
  exact slash_decimal n (by simp [h])

theorem Commit.slash {h : Text} (hc : Commit h) : byte '/' ∉ h := not_mem_of_all hc.digits (by decide)

theorem Commit.dot {h : Text} (hc : Commit h) : byte '.' ∉ h := not_mem_of_all hc.digits (by decide)

theorem base_and_head {a b h k : Text} (hh : Commit h) (hk : Commit k)
    (heq : a ++ bytes "..." ++ h = b ++ bytes "..." ++ k) : a = b ∧ h = k := by
  have hrev : h.reverse ++ byte '.' :: (byte '.' :: byte '.' :: a.reverse) =
      k.reverse ++ byte '.' :: (byte '.' :: byte '.' :: b.reverse) := by
    simpa [bytes] using congrArg List.reverse heq
  have hdot : byte '.' ∉ h.reverse := by simpa using hh.dot
  have kdot : byte '.' ∉ k.reverse := by simpa using hk.dot
  obtain ⟨hhead, hbase⟩ := Infix.cut hdot kdot hrev
  exact ⟨by simpa using hbase, by simpa using hhead⟩

theorem fixed_injective {op op' : Operation} {s s' : Text} (h : Fixed op s) (h' : Fixed op' s')
    (heq : s = s') : op = op' := by
  rw [fixed_kind h, fixed_kind h'] at heq
  obtain ⟨hkind, hbelow⟩ := Infix.cut (slash_kind op) (slash_kind op') heq
  clear heq
  cases h with
  | issue =>
    cases h' with
    | issue => rw [decimal_injective hbelow]
    | _ => simp [kind, bytes, byte] at hkind
  | pull =>
    cases h' with
    | pull => rw [decimal_injective hbelow]
    | reviews => exact absurd hbelow (decimal_ne _ _ _)
    | _ => simp [kind, bytes, byte] at hkind
  | tree =>
    cases h' with
    | tree => rw [List.append_cancel_left hbelow]
    | _ => simp [kind, bytes, byte] at hkind
  | compare hc =>
    cases h' with
    | compare hc' =>
      obtain ⟨hbase, rfl⟩ := base_and_head hc hc' hbelow
      rw [encode_injective hbase]
    | _ => simp [kind, bytes, byte] at hkind
  | checks hc =>
    cases h' with
    | checks hc' =>
      obtain ⟨rfl, hpage⟩ := Infix.cut hc.slash hc'.slash hbelow
      rw [decimal_injective (List.append_cancel_left hpage)]
    | _ => simp [kind, bytes, byte] at hkind
  | reviews =>
    cases h' with
    | pull => exact absurd hbelow.symm (decimal_ne _ _ _)
    | reviews =>
      obtain ⟨hnumber, hpage⟩ := Infix.cut (slash_decimal _) (slash_decimal _) hbelow
      rw [decimal_injective hnumber, decimal_injective (List.append_cancel_left hpage)]
    | _ => simp [kind, bytes, byte] at hkind

/-! ## The segments -/

theorem unmarked {a : Text} (hmark : byte '?' ∉ a) :
    ∀ c ∈ a, decide (c ≠ byte '?') = true := by
  intro c hc
  simp only [decide_eq_true_eq]
  rintro rfl
  exact hmark hc

theorem segments_cons {a : Text} (b : Text) (hslash : byte '/' ∉ a) (hmark : byte '?' ∉ a) :
    segments (a ++ byte '/' :: b) = a :: segments b := by
  unfold segments
  rw [List.takeWhile_append_of_pos (unmarked hmark), List.takeWhile_cons_of_pos (by decide),
    List.splitOn_append_cons_self_of_not_mem hslash]

theorem segments_self {a : Text} (hslash : byte '/' ∉ a) (hmark : byte '?' ∉ a) :
    segments a = [a] := by
  unfold segments
  rw [List.takeWhile_eq_self_iff.mpr (unmarked hmark), List.splitOn_eq_singleton hslash]

theorem segments_query {a : Text} (b : Text) (hslash : byte '/' ∉ a) (hmark : byte '?' ∉ a) :
    segments (a ++ byte '?' :: b) = [a] := by
  unfold segments
  rw [List.takeWhile_append_of_pos (unmarked hmark), List.takeWhile_cons_of_neg (by decide),
    List.append_nil, List.splitOn_eq_singleton hslash]

theorem ne_dots {w : Text} (h : byte '.' ∉ w) : bytes ".." ≠ w := by
  rintro rfl
  simp [bytes] at h

theorem mark_decimal (n : Nat) : byte '?' ∉ decimal n := fun h => absurd (mem_decimal h) (by decide)

theorem dot_decimal (n : Nat) : byte '.' ∉ decimal n := fun h => absurd (mem_decimal h) (by decide)

theorem Commit.mark {h : Text} (hc : Commit h) : byte '?' ∉ h := not_mem_of_all hc.digits (by decide)

theorem compare_segments {base h : Text} (hc : Commit h) (hdots : ¬ bytes ".." <:+: base) :
    bytes ".." ∉ segments (encode base ++ bytes "..." ++ h) := by
  have hmark : byte '?' ∉ encode base ++ bytes "..." ++ h := by
    intro hmem
    simp only [List.mem_append] at hmem
    rcases hmem with (hmem | hmem) | hmem
    · exact (encode_plain base _ hmem).2.1 rfl
    · exact absurd hmem (by decide)
    · exact hc.mark hmem
  have hslash : byte '/' ∉ bytes "..." ++ h := by
    intro hmem
    rcases List.mem_append.mp hmem with hmem | hmem
    · exact absurd hmem (by decide)
    · exact hc.slash hmem
  intro hmem
  unfold segments at hmem
  rw [List.takeWhile_eq_self_iff.mpr (unmarked hmark), List.append_assoc] at hmem
  rcases Lines.mem_splitOn_append hslash hmem with hpiece | hsuffix
  · exact encode_no_dots hdots ((Infix.splitOnP_parts _ _).2 _ hpiece)
  · have hlen := hsuffix.length_le
    simp [bytes] at hlen

theorem fixed_segments {op : Operation} {s : Text} (h : Fixed op s) : bytes ".." ∉ segments s := by
  have hkind : byte '?' ∉ kind op ∧ bytes ".." ≠ kind op := by
    cases op <;> simp [kind, bytes, byte]
  rw [fixed_kind h, segments_cons _ (slash_kind op) hkind.1, List.mem_cons, not_or]
  refine ⟨hkind.2, ?_⟩
  cases h with
  | issue | pull =>
    rw [below, segments_self (slash_decimal _) (mark_decimal _), List.mem_singleton]
    exact ne_dots (dot_decimal _)
  | @tree h hc =>
    have hcommits : below (.tree h) = bytes "commits" ++ byte '/' :: h := rfl
    rw [hcommits, segments_cons _ (by decide) (by decide), segments_self hc.slash hc.mark]
    simp only [List.mem_cons, List.not_mem_nil, or_false, not_or]
    exact ⟨by decide, ne_dots hc.dot⟩
  | compare hc _ hdots => exact compare_segments hc hdots
  | @checks h p hc =>
    have hquery : bytes "check-runs?per_page=100&page=" ++ decimal p =
        bytes "check-runs" ++ byte '?' :: (bytes "per_page=100&page=" ++ decimal p) := rfl
    rw [below, segments_cons _ hc.slash hc.mark, hquery, segments_query _ (by decide) (by decide)]
    simp only [List.mem_cons, List.not_mem_nil, or_false, not_or]
    exact ⟨ne_dots hc.dot, by decide⟩
  | @reviews n p =>
    have hquery : bytes "reviews?per_page=100&page=" ++ decimal p =
        bytes "reviews" ++ byte '?' :: (bytes "per_page=100&page=" ++ decimal p) := rfl
    rw [below, segments_cons _ (slash_decimal n) (mark_decimal n), hquery,
      segments_query _ (by decide) (by decide)]
    simp only [List.mem_cons, List.not_mem_nil, or_false, not_or]
    exact ⟨ne_dots (dot_decimal n), by decide⟩

/-! ## The repository in the path -/

section Repository

variable {owner repo value : Text}

theorem Repository.owner_plain (h : Repository owner repo value) : ∀ c ∈ owner, Plain c := by
  intro c hc
  rcases h.owner_admitted c hc with halnum | rfl
  · exact plain_of_alphanumeric halnum
  · exact ⟨by decide, by decide, by decide⟩

theorem Repository.repo_plain (h : Repository owner repo value) : ∀ c ∈ repo, Plain c := by
  intro c hc
  rcases h.repo_admitted c hc with halnum | rfl | rfl | rfl
  · exact plain_of_alphanumeric halnum
  all_goals exact ⟨by decide, by decide, by decide⟩

theorem Repository.owner_no (h : Repository owner repo value) {d : UInt8}
    (hd : is_ascii_alphanumeric d = false ∧ d ≠ byte '-') : d ∉ owner := by
  intro hmem
  rcases h.owner_admitted d hmem with halnum | heq
  · simp [hd.1] at halnum
  · exact hd.2 heq

theorem Repository.repo_slash (h : Repository owner repo value) : byte '/' ∉ repo := by
  intro hmem
  exact absurd (h.repo_admitted _ hmem) (by decide)

theorem Repository.segments (h : Repository owner repo value) (s : Text) :
    segments (bytes "/repos/" ++ owner ++ byte '/' :: (repo ++ byte '/' :: s)) =
      [] :: bytes "repos" :: owner :: repo :: Client.segments s := by
  have hpath : bytes "/repos/" ++ owner ++ byte '/' :: (repo ++ byte '/' :: s) =
      [] ++ byte '/' :: (bytes "repos" ++ byte '/' :: (owner ++ byte '/' ::
        (repo ++ byte '/' :: s))) := by
    simp [bytes, byte]
  rw [hpath, segments_cons _ (by decide) (by decide), segments_cons _ (by decide) (by decide),
    segments_cons _ (h.owner_no (by decide)) (h.owner_no (by decide)),
    segments_cons _ h.repo_slash fun hmem => (h.repo_plain _ hmem).2.1 rfl]

end Repository

/-- **An endpoint is one read.** It is the operation's own suffix below the repository, what the
caller supplies adds nothing that a path does not keep, and it is the endpoint of no other
request. -/
theorem endpoint_safe :
    (∀ r e, Request.endpoint r = .ok e →
      (∃ owner repo s, Repository owner repo r.repo ∧ Fixed r.operation s ∧
        e = bytes "/repos/" ++ owner ++ byte '/' :: (repo ++ byte '/' :: s)) ∧
      (∀ c ∈ r.repo, Plain c) ∧
      (∀ base head, r.operation = .compare base head → ∀ c ∈ encode base, Plain c) ∧
      bytes ".." ∉ segments e) ∧
    ∀ r r' e, Request.endpoint r = .ok e → Request.endpoint r' = .ok e → r = r' := by
  constructor
  · intro r e h
    obtain ⟨owner, repo, s, hrepo, hs, rfl⟩ := endpoint_ok h
    refine ⟨⟨owner, repo, s, hrepo, hs, rfl⟩, ?_, fun base _ _ => encode_plain base, ?_⟩
    · intro c hc
      rw [hrepo.value, List.mem_append, List.mem_cons] at hc
      rcases hc with hc | rfl | hc
      · exact hrepo.owner_plain c hc
      · exact ⟨by decide, by decide, by decide⟩
      · exact hrepo.repo_plain c hc
    · rw [hrepo.segments]
      simp only [List.mem_cons, not_or]
      exact ⟨by decide, by decide, ne_dots (hrepo.owner_no (by decide)), Ne.symm hrepo.no_dots,
        fixed_segments hs⟩
  · intro r r' e h h'
    obtain ⟨owner, repo, s, hrepo, hs, rfl⟩ := endpoint_ok h
    obtain ⟨owner', repo', s', hrepo', hs', heq⟩ := endpoint_ok h'
    rw [List.append_assoc, List.append_assoc] at heq
    obtain ⟨howner, htail⟩ := Infix.cut (hrepo.owner_no (by decide)) (hrepo'.owner_no (by decide))
      (List.append_cancel_left heq)
    obtain ⟨hname, hsuffix⟩ := Infix.cut hrepo.repo_slash hrepo'.repo_slash htail
    have hvalue : r.repo = r'.repo := by rw [hrepo.value, hrepo'.value, howner, hname]
    have hop : r.operation = r'.operation := fixed_injective hs hs' hsuffix
    cases r
    cases r'
    simp_all

theorem endpoint_safe_compare :
    let h := List.replicate 40 (byte 'a')
    let r : Request := ⟨bytes "octo/app.rs", .compare (bytes "x y/z") h⟩
    let e := bytes "/repos/octo/app.rs/compare/x%20y/z..." ++ h
    bytes ".." ∉ segments e ∧ ∀ r', r'.endpoint = .ok e → r' = r := by
  intro h r e
  have hr : r.endpoint = .ok e := rfl
  exact ⟨(endpoint_safe.1 r e hr).2.2.2, fun r' hr' => endpoint_safe.2 r' r e hr' hr⟩

end Fridica.Github.Client
