import Fridica.Github.View.Spec

/-!
# What is shown of GitHub

The commit that a text names is its first run of letters and digits that can be one. A claim of a
body is said to match only what it is the beginning of. The reviews are those of each reviewer,
unless the name made up for one of them is taken.
-/

namespace Fridica.Github.View

open Fridica.Json Fridica.Regex
open Fridica.Github.Links (Aux to_ascii_lowercase)

/-! ## The commit that a text names -/

section Sha

/-- A run of letters and digits that can be a commit. -/
def commit_id (run : Text) : Bool := 7 ≤ run.length && run.length ≤ 40 && run.all hex

/-- The first of the runs that can be one, in lower case. -/
def first_commit (t : Text) : Option Text :=
  ((t.splitOnP fun c => !is_alphanumeric c).find? commit_id).map (·.map Char.toLower)

theorem hex_alphanumeric {c : Char} (h : hex c = true) : is_alphanumeric c = true := by
  have ha : 'a'.toNat = 97 := rfl
  have hf : 'f'.toNat = 102 := rfl
  have hA : 'A'.toNat = 65 := rfl
  have hF : 'F'.toNat = 70 := rfl
  have hz : 'z'.toNat = 122 := rfl
  have hZ : 'Z'.toNat = 90 := rfl
  unfold hex at h
  unfold is_alphanumeric Char.isAlpha Char.isUpper Char.isLower
  simp only [Bool.or_eq_true, Bool.and_eq_true, decide_eq_true_eq, Char.le_def,
    UInt32.le_iff_toNat_le, Char.toNat_val, ge_iff_le] at h ⊢
  rcases h with (hdigit | hlower) | hupper
  · exact .inr hdigit
  · exact .inl (.inr (by omega))
  · exact .inl (.inl (by omega))

/-- A match that `claim_sha` takes. -/
def whole (m : Match Text) : Bool :=
  !m.start.before.head?.any is_alphanumeric && boundary m.stop

/-- What `claim_sha` takes after a place. -/
def taken (skip : Nat) (before t : Text) : Option Text :=
  (((parts HEX skip before t).filterMap Part.found?).find? whole).map (·.value)

theorem claim_sha_taken (t : Text) : claim_sha t = (taken 0 [] t).map (·.map Char.toLower) := by
  unfold taken
  rw [Option.map_map]
  rfl

variable {before u r : Text} {c : Char} {skip : Nat}

theorem taken_none (h : at_place HEX ⟨before, c :: u⟩ = none) :
    taken 0 before (c :: u) = taken 0 (c :: before) u := by
  unfold taken
  rw [parts_none h, List.filterMap_cons_none (f := Part.found?) rfl]

theorem taken_some {m : Match Text} (h : at_place HEX ⟨before, c :: u⟩ = some m) :
    taken 0 before (c :: u) =
      if whole m then some m.value
      else taken (u.length - m.stop.after.length) (c :: before) u := by
  unfold taken
  rw [parts_some h, List.filterMap_cons_some (f := Part.found?) rfl]
  split
  next hm => rw [List.find?_cons_of_pos hm, Option.map_some]
  next hm => rw [List.find?_cons_of_neg hm]

theorem reach_run (hr : r.head?.any is_alphanumeric = false) :
    reach (some 40) hex (u ++ r) = min 40 (u.takeWhile hex).length := by
  have hend : r.takeWhile hex = [] := by
    cases r with
    | nil => rfl
    | cons c r =>
      refine List.takeWhile_cons_of_neg fun hc => ?_
      rw [List.head?_cons, Option.any_some, hex_alphanumeric hc] at hr
      cases hr
  unfold reach
  dsimp only
  rw [List.takeWhile_append, hend, List.append_nil]
  split
  next h => rw [h]
  · rfl

theorem commit_id_iff (hr : r.head?.any is_alphanumeric = false) :
    commit_id u = true ↔
      7 ≤ reach (some 40) hex (u ++ r) ∧ reach (some 40) hex (u ++ r) = u.length := by
  unfold commit_id
  rw [reach_run hr, Bool.and_eq_true, Bool.and_eq_true, decide_eq_true_iff, decide_eq_true_iff]
  constructor
  · rintro ⟨⟨hlow, hhigh⟩, hall⟩
    rw [List.takeWhile_eq_self_iff.mpr (List.all_eq_true.mp hall)]
    omega
  · rintro ⟨hlow, heq⟩
    have hle := (List.takeWhile_sublist (l := u) hex).length_le
    have hfull : u.takeWhile hex = u := (List.takeWhile_sublist hex).eq_of_length (by omega)
    exact ⟨⟨by omega, by omega⟩, List.all_eq_true.mpr (List.takeWhile_eq_self_iff.mp hfull)⟩

theorem boundary_run (before : Text) (hu : ∀ c ∈ u, is_alphanumeric c = true)
    (hr : r.head?.any is_alphanumeric = false) {n : Nat} (hn : n ≤ u.length) :
    boundary ((⟨before, u ++ r⟩ : Place).advance n) = true ↔ n = u.length := by
  unfold boundary Place.advance
  dsimp only
  rw [List.drop_append_of_le_length hn]
  constructor
  · intro h
    by_contra hne
    have hlt : n < u.length := by omega
    rw [List.drop_eq_getElem_cons hlt, List.cons_append, List.head?_cons, Option.any_some,
      hu _ (List.getElem_mem hlt)] at h
    cases h
  · rintro rfl
    rw [List.drop_length, List.nil_append, hr]
    rfl

theorem taken_step (hu : ∀ d ∈ c :: u, is_alphanumeric d = true)
    (hr : r.head?.any is_alphanumeric = false) {after : Option Text}
    (hgo : ∀ k ≤ u.length, taken k (c :: before) (u ++ r) = after) :
    taken 0 before (c :: (u ++ r)) =
      if before.head?.any is_alphanumeric = false ∧ commit_id (c :: u) then some (c :: u)
      else after := by
  have hid := commit_id_iff (u := c :: u) hr
  have hle : reach (some 40) hex (c :: u ++ r) ≤ (c :: u).length := by
    rw [reach_run hr]
    exact (Nat.min_le_right _ _).trans (List.takeWhile_sublist hex).length_le
  have hend := boundary_run before hu hr hle
  have hat : at_place HEX ⟨before, c :: u ++ r⟩ = _ := at_place_greedy
  dsimp only at hat
  generalize reach (some 40) hex (c :: u ++ r) = n at hid hle hend hat
  split at hat
  next hlow =>
    rw [taken_some (u := u ++ r) hat]
    have hwhole : ∀ value,
        whole ⟨⟨before, c :: u ++ r⟩, value, Place.advance ⟨before, c :: u ++ r⟩ n⟩ = true ↔
          before.head?.any is_alphanumeric = false ∧ commit_id (c :: u) := by
      intro value
      unfold whole
      rw [Bool.and_eq_true, Bool.not_eq_true', hend, hid]
      exact and_congr_right fun _ => (and_iff_right hlow).symm
    simp only [hwhole]
    split
    next h => rw [(hid.mp h.2).2, List.take_left]
    next =>
      apply hgo
      simp only [Place.advance, List.length_drop, List.length_append, List.length_cons] at hle ⊢
      omega
  next hlow =>
    rw [taken_none (u := u ++ r) hat, hgo 0 (Nat.zero_le _), if_neg]
    exact fun h => hlow (hid.mp h.2).1

theorem taken_inside (hu : ∀ c ∈ u, is_alphanumeric c = true)
    (hr : r.head?.any is_alphanumeric = false) (hskip : skip ≤ u.length)
    (hbefore : before.head?.any is_alphanumeric = true) :
    taken skip before (u ++ r) = taken 0 (u.reverse ++ before) r := by
  induction u generalizing skip before with
  | nil =>
    obtain rfl := Nat.le_zero.mp hskip
    rfl
  | cons c u ih =>
    have hc : (c :: before).head?.any is_alphanumeric = true := hu c List.mem_cons_self
    have hgo : ∀ k ≤ u.length, taken k (c :: before) (u ++ r) =
        taken 0 ((c :: u).reverse ++ before) r := by
      intro k hk
      rw [ih (fun d hd => hu d (List.mem_cons_of_mem c hd)) hk hc, List.reverse_cons,
        List.append_assoc, List.singleton_append]
    cases skip with
    | succ skip => exact hgo skip (Nat.le_of_succ_le_succ hskip)
    | zero =>
      rw [List.cons_append, taken_step hu hr hgo, if_neg]
      intro h
      rw [hbefore] at h
      cases h.1

/-- A run is taken as a whole, or nothing of it is. -/
theorem taken_run (hu : ∀ c ∈ u, is_alphanumeric c = true)
    (hr : r.head?.any is_alphanumeric = false)
    (hbefore : before.head?.any is_alphanumeric = false) :
    taken 0 before (u ++ r) =
      if commit_id u then some u else taken 0 (u.reverse ++ before) r := by
  cases u with
  | nil => rfl
  | cons c u =>
    have hc : (c :: before).head?.any is_alphanumeric = true := hu c List.mem_cons_self
    have hgo : ∀ k ≤ u.length, taken k (c :: before) (u ++ r) =
        taken 0 ((c :: u).reverse ++ before) r := by
      intro k hk
      rw [taken_inside (fun d hd => hu d (List.mem_cons_of_mem c hd)) hr hk hc, List.reverse_cons,
        List.append_assoc, List.singleton_append]
    rw [List.cons_append, taken_step hu hr hgo]
    simp only [hbefore, true_and]

theorem taken_other (hc : is_alphanumeric c = false) :
    taken 0 before (c :: u) = taken 0 (c :: before) u := by
  have hhex : hex c = false := by
    by_contra h
    rw [hex_alphanumeric (Bool.of_not_eq_false h)] at hc
    cases hc
  have hat : at_place HEX ⟨before, c :: u⟩ = _ := at_place_greedy
  refine taken_none (hat.trans (if_neg ?_))
  unfold reach
  dsimp only
  rw [List.takeWhile_cons_of_neg (by simp [hhex]), List.length_nil]
  omega

theorem taken_eq (before t : Text) (hbefore : before.head?.any is_alphanumeric = false) :
    taken 0 before t = (t.splitOnP fun c => !is_alphanumeric c).find? commit_id := by
  induction h : t.length using Nat.strong_induction_on generalizing t before with
  | _ n ih =>
    have ht := List.takeWhile_append_dropWhile (p := is_alphanumeric) (l := t)
    have hu : ∀ c ∈ t.takeWhile is_alphanumeric, is_alphanumeric c = true :=
      fun c => List.mem_takeWhile_imp
    have hsplit : ∀ c ∈ t.takeWhile is_alphanumeric, (!is_alphanumeric c) = false :=
      fun c hc => by rw [hu c hc]; rfl
    generalize t.takeWhile is_alphanumeric = u at ht hu hsplit
    cases hrest : t.dropWhile is_alphanumeric with
    | nil =>
      rw [hrest] at ht
      rw [← ht, taken_run hu rfl hbefore, List.append_nil, List.splitOnP_eq_singleton hsplit]
      split
      next hid => exact (List.find?_cons_of_pos hid).symm
      next hid =>
        rw [List.find?_cons_of_neg hid]
        rfl
    | cons c r =>
      have hc : is_alphanumeric c = false := by
        have hhead := List.head?_dropWhile_not is_alphanumeric t
        rwa [hrest] at hhead
      have hr : (c :: r).head?.any is_alphanumeric = false := hc
      have hlen : r.length < n := by
        rw [← h, ← ht, hrest, List.length_append, List.length_cons]
        omega
      rw [hrest] at ht
      rw [← ht, taken_run hu hr hbefore,
        List.splitOnP_append_cons_of_forall_mem hsplit c (by rw [hc]; rfl)]
      split
      next hid => exact (List.find?_cons_of_pos hid).symm
      next hid => rw [List.find?_cons_of_neg hid, taken_other hc, ih r.length hlen (c :: _) r hc rfl]

theorem claim_sha_eq_first_commit (t : Text) : claim_sha t = first_commit t := by
  rw [claim_sha_taken, taken_eq [] t rfl]
  rfl

end Sha

/-! ## What becomes of a claim -/

section Claims

variable {out : Outside} {repo key claim : String} {value : Value} {aux : Aux}

/-- What the item of a pull request says of a claim. -/
def reported (item : List (String × Value)) (key : String) : Option String :=
  (((Value.object item).field "claims").field key).as_str

/-- The value that a claim is about, when it is available. -/
def real (value : Value) (aux : Aux) (key : String) : Option String :=
  if key = "head" then ((value.field "head").field "sha").as_str else tree aux

theorem real_head {found : Links.Found} (h : Links.commits value = .ok found) :
    real value aux "head" = some (head value) := by
  unfold Links.commits at h
  split at h
  next sha _ hsha _ =>
    have hstr := (Option.filter_eq_some_iff.mp hsha).1
    unfold real head
    rw [if_pos rfl, hstr, Option.getD_some]
  next => cases h

theorem lookup_actual {found : Links.Found} (h : Links.commits value = .ok found)
    (hkey : key ∈ ["head", "tree"]) : (actual value aux).lookup key = some (real value aux key) := by
  rw [List.mem_cons, List.mem_singleton] at hkey
  rcases hkey with rfl | rfl
  · rw [real_head h]
    rfl
  · rfl

theorem verdicts_lookup (claims : Found) (l : List (String × Option String)) :
    (verdicts claims l).lookup key =
      (l.lookup key).bind fun real => (claims.lookup key).map (held real) := by
  induction l with
  | nil => rfl
  | cons kv l ih =>
    obtain ⟨k, real⟩ := kv
    unfold verdicts at ih ⊢
    by_cases hk : key = k
    · subst hk
      rw [List.lookup_cons_self, Option.bind_some]
      cases hclaim : claims.lookup key with
      | none =>
        rw [List.filterMap_cons_none (by rw [hclaim]; rfl), ih, hclaim]
        cases l.lookup key <;> rfl
      | some claim =>
        rw [List.filterMap_cons_some (by rw [hclaim]; rfl), List.lookup_cons_self]
        rfl
    · rw [Value.lookup_ne hk, ← ih]
      cases hclaim : claims.lookup k with
      | none => rw [List.filterMap_cons_none (by rw [hclaim]; rfl)]
      | some claim =>
        rw [List.filterMap_cons_some (by rw [hclaim]; rfl), Value.lookup_ne hk]

theorem verdicts_nodup (value : Value) (aux : Aux) (claims : Found) :
    ((verdicts claims (actual value aux)).map (·.1)).Nodup := by
  unfold verdicts actual
  rw [List.filterMap_cons, List.filterMap_cons, List.filterMap_nil]
  cases claims.lookup "head" <;> cases claims.lookup "tree" <;> simp

theorem reported_pull :
    reported (pull out repo value aux) key =
      ((verdicts (status_lines out (value.field "body")).2 (actual value aux)).lookup key).map
        Held.text := by
  unfold reported pull
  dsimp only
  have hnodup := verdicts_nodup value aux
    (status_lines out (value.field "body")).2
  generalize verdicts (status_lines out (value.field "body")).2 (actual value aux) = l at hnodup
  rw [Value.field, Value.lookup_insert_ne (by decide)]
  split
  next h =>
    rw [h, Value.lookup_extend]
    rfl
  next =>
    have hkeys : ((l.map fun kv => (kv.1, Value.string kv.2.text)).map (·.1)).Nodup := by
      rwa [List.map_map]
    rw [Value.lookup_insert, Option.getD_some, Value.field_of_nodup hkeys,
      Value.lookup_map fun h => Value.string (Held.text h)]
    cases l.lookup key <;> rfl

theorem reported_eq {found : Links.Found} (h : Links.commits value = .ok found)
    (hkey : key ∈ ["head", "tree"]) :
    reported (pull out repo value aux) key =
      ((status_lines out (value.field "body")).2.lookup key).map fun claim =>
        (held (real value aux key) claim).text := by
  rw [reported_pull, verdicts_lookup, lookup_actual h hkey, Option.bind_some, Option.map_map]
  rfl

theorem text_inj {a b : Held} (h : a.text = b.text) : a = b := by
  cases a <;> cases b <;> first | rfl | exact absurd h (by decide)

theorem held_matching {actual : Option String} (h : held actual claim = .matching) :
    ∃ sha actual', claim_sha claim.toList = some sha ∧ actual = some actual' ∧
      sha <+: (to_ascii_lowercase actual').toList := by
  unfold held at h
  split at h
  · cases h
  · cases h
  next actual' sha hsha =>
    split at h
    next hpre => exact ⟨sha, actual', hsha, rfl, hpre⟩
    next => cases h

theorem held_not_matching {actual : Option String} (h : held actual claim = .not_matching) :
    ∃ sha actual', claim_sha claim.toList = some sha ∧ actual = some actual' ∧
      ¬ sha <+: (to_ascii_lowercase actual').toList := by
  unfold held at h
  split at h
  · cases h
  · cases h
  next actual' sha hsha =>
    split at h
    next => cases h
    next hpre => exact ⟨sha, actual', hsha, rfl, hpre⟩

theorem held_unverified {actual : Option String} :
    held actual claim = .unverified ↔ actual = none := by
  cases actual with
  | none => simp [held]
  | some actual =>
    unfold held
    cases claim_sha claim.toList with
    | none => simp
    | some sha =>
      dsimp only
      split <;> simp

/-- A commit is read off a text as its first run that can be one. A claim is said to match, or not
to, only where a commit is claimed, and as it is the beginning of the real one or not; it is
unverified when the real one is not available. -/
theorem claims_checked (out : Outside) :
    (∀ t, claim_sha t = first_commit t) ∧
    ∀ repo value aux found, Links.commits value = .ok found → ∀ key ∈ ["head", "tree"],
      let claimed := (status_lines out (value.field "body")).2.lookup key
      let report := reported (pull out repo value aux) key
      (report = some (Held.text .matching) → ∃ claim sha actual, claimed = some claim ∧
        claim_sha claim.toList = some sha ∧ real value aux key = some actual ∧
        sha <+: (to_ascii_lowercase actual).toList) ∧
      (report = some (Held.text .not_matching) → ∃ claim sha actual, claimed = some claim ∧
        claim_sha claim.toList = some sha ∧ real value aux key = some actual ∧
        ¬ sha <+: (to_ascii_lowercase actual).toList) ∧
      (report = some (Held.text .unverified) ↔
        claimed.isSome ∧ real value aux key = none) := by
  refine ⟨claim_sha_eq_first_commit, fun repo value aux found h key hkey => ?_⟩
  dsimp only
  rw [reported_eq h hkey]
  cases (status_lines out (value.field "body")).2.lookup key with
  | none => simp
  | some claim =>
    rw [Option.map_some, Option.some_inj, Option.some_inj, Option.some_inj]
    refine ⟨fun hm => ?_, fun hm => ?_, fun hm => ?_, fun hm => ?_⟩
    · obtain ⟨sha, actual, hsha, hreal, hpre⟩ := held_matching (text_inj hm)
      exact ⟨claim, sha, actual, rfl, hsha, hreal, hpre⟩
    · obtain ⟨sha, actual, hsha, hreal, hpre⟩ := held_not_matching (text_inj hm)
      exact ⟨claim, sha, actual, rfl, hsha, hreal, hpre⟩
    · exact ⟨rfl, held_unverified.mp (text_inj hm)⟩
    · rw [held_unverified.mpr hm.2]

/-- Numbers and letters as they are in ASCII. -/
def plain : Outside where
  to_string
    | .number (.unsigned n) => toString n
    | _ => "null"
  word c := is_alphanumeric c || c == '_'

/-- A pull request whose body claims its head. -/
def claimed_pull : Value := .object [
  ("number", .number (.unsigned 7)),
  ("head", .object [("sha", .string "0123456789abcdef0123456789abcdef01234567")]),
  ("base", .object [("ref", .string "main")]),
  ("body", .string "Head: 0123456")]

theorem claims_checked_head :
    reported (pull plain "o/r" claimed_pull ⟨none, none, none, none⟩) "head" =
        some (Held.text .matching) ∧
      ∃ claim sha actual,
        (status_lines plain (claimed_pull.field "body")).2.lookup "head" = some claim ∧
          claim_sha claim.toList = some sha ∧
          real claimed_pull ⟨none, none, none, none⟩ "head" = some actual ∧
          sha <+: (to_ascii_lowercase actual).toList := by
  obtain ⟨hmatching, -, -⟩ := (claims_checked plain).2 "o/r" claimed_pull ⟨none, none, none, none⟩
    (.pull claimed_pull "0123456789abcdef0123456789abcdef01234567" "main") (by rfl) "head"
    (by simp)
  have hreport : reported (pull plain "o/r" claimed_pull ⟨none, none, none, none⟩) "head" =
    some (Held.text .matching) := by decide +kernel
  exact ⟨hreport, hmatching hreport⟩

end Claims

/-! ## The reviewers -/

section Reviews

variable (out : Outside)

/-- A reviewer with the review that counts. One without a login stands for one review. -/
structure Reviewer where
  login : Option String
  review : Review

/-- The reviewer with this login has a new review, or comes after the others. -/
def settle (l : String) (review : Review) : List Reviewer → List Reviewer
  | [] => [⟨some l, review⟩]
  | old :: rest =>
    if old.login = some l then ⟨some l, review⟩ :: rest else old :: settle l review rest

def attend (reviewers : List Reviewer) (r : Value) : List Reviewer :=
  match verdict r with
  | none => reviewers
  | some v =>
    let review := ⟨name out reviewers.length r, v, (r.field "commit_id").as_str.getD ""⟩
    match login r with
    | some l => settle l review reviewers
    | none => reviewers ++ [⟨none, review⟩]

def reviewers (rs : List Value) : List Reviewer := rs.foldl (attend out) []

/-- An approval of the head. -/
def Review.current (head : String) (r : Review) : Bool :=
  r.verdict = .approved && r.commit = head

/-- Another approval. -/
def Review.stale (head : String) (r : Review) : Bool := r.verdict = .approved && r.commit ≠ head

def Review.decisive (r : Review) : Bool := r.verdict ≠ .dismissed

/-- The reviews that count of each reviewer, and how many of them are of which kind. -/
def reference (rs : List Value) (head : String) : Reviews :=
  let kept := (reviewers out rs).map (·.review)
  ⟨kept.map (·.line head),
    kept.countP (·.current head), kept.countP (·.stale head), kept.countP (·.decisive)⟩

/-- The logins and names of the reviewers, as they come up. -/
def appear (seen : List (Option String × String)) (r : Value) : List (Option String × String) :=
  if (verdict r).isNone ∨ (login r).isSome ∧ login r ∈ seen.map (·.1) then seen
  else seen ++ [(login r, name out seen.length r)]

def reviewer_names (rs : List Value) : List String := (rs.foldl (appear out) []).map (·.2)

variable {out} {latest : List Review} {rest : List Reviewer} {review : Review} {l : String}
  {seen : List (Option String × String)} {r : Value}

theorem names_replace (review : Review) (latest : List Review) :
    (replace review latest).map (·.name) =
      if review.name ∈ latest.map (·.name) then latest.map (·.name)
      else latest.map (·.name) ++ [review.name] := by
  induction latest with
  | nil => rfl
  | cons old latest ih =>
    unfold replace
    by_cases h : old.name = review.name
    · simp [h]
    · rw [if_neg h, List.map_cons, ih]
      simp only [List.map_cons, List.mem_cons, Ne.symm h, false_or]
      split <;> rfl

theorem replace_new (h : review.name ∉ latest.map (·.name)) :
    replace review latest = latest ++ [review] := by
  induction latest with
  | nil => rfl
  | cons old latest ih =>
    rw [List.map_cons, List.mem_cons, not_or] at h
    unfold replace
    rw [if_neg (Ne.symm h.1), ih h.2, List.cons_append]

theorem settle_new (h : some l ∉ rest.map (·.login)) :
    settle l review rest = rest ++ [⟨some l, review⟩] := by
  induction rest with
  | nil => rfl
  | cons old rest ih =>
    rw [List.map_cons, List.mem_cons, not_or] at h
    unfold settle
    rw [if_neg (Ne.symm h.1), ih h.2, List.cons_append]

/-- Reviewers with a login are named by it. -/
def Named (reviewers : List Reviewer) : Prop :=
  ∀ e ∈ reviewers, ∀ l, e.login = some l → e.review.name = l

def identity (e : Reviewer) : Option String × String := (e.login, e.review.name)

theorem identity_settle (hnamed : Named rest) (hname : review.name = l)
    (h : some l ∈ rest.map (·.login)) :
    (settle l review rest).map identity = rest.map identity := by
  induction rest with
  | nil => cases h
  | cons old rest ih =>
    unfold settle
    by_cases hold : old.login = some l
    · rw [if_pos hold, List.map_cons, List.map_cons, identity, identity, hold, hname,
        hnamed old List.mem_cons_self l hold]
    · rw [List.map_cons, List.mem_cons] at h
      rw [if_neg hold, List.map_cons, List.map_cons,
        ih (fun e he => hnamed e (List.mem_cons_of_mem _ he))
          (h.resolve_left (Ne.symm hold))]

theorem replace_settle (hnamed : Named rest) (hname : review.name = l)
    (h : some l ∈ rest.map (·.login)) (hnodup : (rest.map (·.review.name)).Nodup) :
    replace review (rest.map (·.review)) = (settle l review rest).map (·.review) := by
  induction rest with
  | nil => cases h
  | cons old rest ih =>
    rw [List.map_cons, List.nodup_cons] at hnodup
    unfold settle
    rw [List.map_cons, replace]
    by_cases hold : old.login = some l
    · rw [if_pos hold, if_pos ((hnamed old List.mem_cons_self l hold).trans hname.symm),
        List.map_cons]
    · rw [List.map_cons, List.mem_cons] at h
      have hin := h.resolve_left (Ne.symm hold)
      have hrest : Named rest := fun e he => hnamed e (List.mem_cons_of_mem _ he)
      have hne : old.review.name ≠ review.name := by
        obtain ⟨e, he, hlogin⟩ := List.mem_map.mp hin
        intro heq
        refine hnodup.1 (List.mem_map.mpr ⟨e, he, ?_⟩)
        rw [hrest e he l hlogin, heq, hname]
      rw [if_neg hold, if_neg hne, List.map_cons, ih hrest hin hnodup.2]

/-- What is kept of the reviews so far, beside the reviewers so far. -/
structure Joined (latest : List Review) (reviewers : List Reviewer)
    (seen : List (Option String × String)) : Prop where
  identities : reviewers.map identity = seen
  named : Named reviewers
  kept : ∀ e ∈ reviewers, ∀ l, e.login = some l → l ∈ latest.map (·.name)
  alike : (seen.map (·.2)).Nodup → latest = reviewers.map (·.review)
  fewer : ¬ (seen.map (·.2)).Nodup → latest.length < reviewers.length

namespace Joined

variable {reviewers : List Reviewer}

theorem logins (h : Joined latest reviewers seen) : seen.map (·.1) = reviewers.map (·.login) := by
  rw [← h.identities, List.map_map]
  rfl

theorem names (h : Joined latest reviewers seen) :
    seen.map (·.2) = reviewers.map (·.review.name) := by
  rw [← h.identities, List.map_map]
  rfl

theorem length (h : Joined latest reviewers seen) : seen.length = reviewers.length := by
  rw [← h.identities, List.length_map]

theorem again (h : Joined latest reviewers seen) (hname : review.name = l)
    (hknown : some l ∈ reviewers.map (·.login)) :
    Joined (replace review latest) (settle l review reviewers) seen := by
  have hidentity := identity_settle h.named hname hknown
  have hlength : (settle l review reviewers).length = reviewers.length := by
    simpa using congrArg List.length hidentity
  have hnames : (replace review latest).map (·.name) = latest.map (·.name) := by
    obtain ⟨e, he, hlogin⟩ := List.mem_map.mp hknown
    rw [names_replace, if_pos (by rw [hname]; exact h.kept e he l hlogin)]
  have hmem : ∀ e ∈ settle l review reviewers, ∃ e' ∈ reviewers, identity e' = identity e := by
    intro e he
    have hid := List.mem_map_of_mem (f := identity) he
    rw [hidentity] at hid
    exact List.mem_map.mp hid
  refine ⟨hidentity.trans h.identities, ?_, ?_, ?_, ?_⟩
  · intro e he m hm
    obtain ⟨e', he', hid⟩ := hmem e he
    obtain ⟨hlogin, hsame⟩ := Prod.mk.inj hid
    rw [← hsame]
    exact h.named e' he' m (hlogin.trans hm)
  · intro e he m hm
    obtain ⟨e', he', hid⟩ := hmem e he
    rw [hnames]
    exact h.kept e' he' m ((Prod.mk.inj hid).1.trans hm)
  · intro hnodup
    rw [h.alike hnodup]
    rw [h.names] at hnodup
    exact replace_settle h.named hname hknown hnodup
  · intro hdup
    have hsame : (replace review latest).length = latest.length := by
      simpa using congrArg List.length hnames
    rw [hsame, hlength]
    exact h.fewer hdup

theorem first (h : Joined latest reviewers seen) (review : Review) {login : Option String}
    {review' : Review}
    (hlogin : ∀ l, login = some l → review.name = l ∧ review'.name = l)
    (hsame : latest.length = reviewers.length → review' = review) :
    Joined (replace review' latest) (reviewers ++ [⟨login, review⟩])
      (seen ++ [(login, review.name)]) := by
  have hgrow : (replace review' latest).length ≤ latest.length + 1 := by
    have hlen := congrArg List.length (names_replace review' latest)
    split at hlen <;> simp at hlen <;> omega
  have hmem : ∀ e ∈ reviewers ++ [⟨login, review⟩], e ∈ reviewers ∨ e = ⟨login, review⟩ := by
    intro e he
    rwa [List.mem_append, List.mem_singleton] at he
  refine ⟨?_, ?_, ?_, ?_, ?_⟩
  · rw [List.map_append, h.identities]
    rfl
  · intro e he l hl
    rcases hmem e he with he | rfl
    · exact h.named e he l hl
    · exact (hlogin l hl).1
  · intro e he l hl
    rw [names_replace]
    rcases hmem e he with he | rfl
    · have hin := h.kept e he l hl
      split
      · exact hin
      · exact List.mem_append_left _ hin
    · rw [← (hlogin l hl).2]
      split
      next hin => exact hin
      next => exact List.mem_append_right _ (List.mem_singleton.mpr rfl)
  · intro hnodup
    rw [List.map_append, List.nodup_append] at hnodup
    obtain ⟨hbefore, -, hdisjoint⟩ := hnodup
    have hlatest := h.alike hbefore
    have hreview := hsame (by rw [hlatest, List.length_map])
    have hnew : review.name ∉ latest.map (·.name) := by
      intro hin
      refine hdisjoint review.name ?_ review.name (List.mem_singleton.mpr rfl) rfl
      rw [h.names]
      rwa [hlatest, List.map_map] at hin
    rw [hreview, replace_new hnew, hlatest, List.map_append]
    rfl
  · intro hdup
    rw [List.length_append, List.length_singleton]
    by_cases hbefore : (seen.map (·.2)).Nodup
    · have hlatest := h.alike hbefore
      have hlen : latest.length = reviewers.length := by rw [hlatest, List.length_map]
      have htaken : review.name ∈ latest.map (·.name) := by
        by_contra hnew
        refine hdup ?_
        rw [List.map_append, List.nodup_append]
        refine ⟨hbefore, List.pairwise_singleton _ _, fun a ha b hb heq => hnew ?_⟩
        rw [h.names, heq, List.mem_singleton.mp hb] at ha
        rw [hlatest, List.map_map]
        exact ha
      have hkeep := congrArg List.length (names_replace review' latest)
      rw [hsame hlen, if_pos htaken, List.length_map, List.length_map] at hkeep
      rw [hsame hlen]
      omega
    · have hless := h.fewer hbefore
      omega

theorem step (h : Joined latest reviewers seen) (r : Value) :
    Joined (keep out latest r) (attend out reviewers r) (appear out seen r) := by
  unfold keep attend appear
  cases hv : verdict r with
  | none => exact h
  | some v =>
    rw [h.length, h.logins]
    dsimp only
    cases hl : login r with
    | none =>
      rw [if_neg (by simp)]
      refine h.first ⟨name out reviewers.length r, v, _⟩ (fun l hl => by cases hl) ?_
      intro hlen
      rw [hlen]
    | some l =>
      have hname : ∀ n, name out n r = l := fun n => by rw [name, hl, Option.getD_some]
      dsimp only
      rw [hname, hname]
      by_cases hknown : some l ∈ reviewers.map (·.login)
      · rw [if_pos (.inr ⟨rfl, hknown⟩)]
        exact h.again rfl hknown
      · rw [if_neg (by simpa using hknown), settle_new hknown]
        exact h.first ⟨l, v, _⟩
          (fun m hm => ⟨Option.some_inj.mp hm, Option.some_inj.mp hm⟩) fun _ => rfl

theorem run (rs : List Value) (h : Joined latest reviewers seen) :
    Joined (rs.foldl (keep out) latest) (rs.foldl (attend out) reviewers)
      (rs.foldl (appear out) seen) := by
  induction rs generalizing latest reviewers seen with
  | nil => exact h
  | cons r rs ih => exact ih (h.step r)

end Joined

theorem joined (out : Outside) (rs : List Value) :
    Joined (rs.foldl (keep out) []) (reviewers out rs) (rs.foldl (appear out) []) :=
  Joined.run rs {
    identities := rfl
    named := List.forall_mem_nil _
    kept := List.forall_mem_nil _
    alike := fun _ => rfl
    fewer := fun h => absurd List.nodup_nil h }

def Reviews.add (s : Reviews) (head : String) (latest : List Review) : Reviews :=
  ⟨s.lines ++ latest.map (·.line head),
    s.current + latest.countP (·.current head), s.stale + latest.countP (·.stale head),
    s.decisive + latest.countP (·.decisive)⟩

theorem tally_run (head : String) (latest : List Review) (s : Reviews) :
    latest.foldl (tally head) s = s.add head latest := by
  induction latest generalizing s with
  | nil => simp [Reviews.add]
  | cons r latest ih =>
    rw [List.foldl_cons, ih]
    unfold tally Reviews.add
    simp only [List.countP_cons, Review.current, Review.stale, Review.decisive]
    cases hv : r.verdict with
    | approved => by_cases hc : r.commit = head <;> simp [hc] <;> omega
    | changes_requested =>
      simp
      omega
    | dismissed => simp

theorem reviews_add (rs : List Value) (head : String) :
    reviews out rs head = Reviews.add ⟨[], 0, 0, 0⟩ head (rs.foldl (keep out) []) :=
  tally_run head _ _

theorem reference_add (rs : List Value) (head : String) :
    reference out rs head =
      Reviews.add ⟨[], 0, 0, 0⟩ head ((reviewers out rs).map (·.review)) := by
  simp only [reference, Reviews.add, List.nil_append, Nat.zero_add]

theorem current_add_stale_le (rs : List Value) (head : String) :
    (reviews out rs head).current + (reviews out rs head).stale ≤
      (reviews out rs head).decisive := by
  rw [reviews_add]
  simp only [Reviews.add, Nat.zero_add]
  induction rs.foldl (keep out) [] with
  | nil => exact Nat.le_refl _
  | cons r latest ih =>
    have hone : (if r.current head then 1 else 0) + (if r.stale head then 1 else 0) ≤
        (if r.decisive then 1 else 0) := by
      unfold Review.current Review.stale Review.decisive
      cases r.verdict with
      | approved => by_cases hc : r.commit = head <;> simp [hc]
      | changes_requested => simp
      | dismissed => simp
    rw [List.countP_cons, List.countP_cons, List.countP_cons]
    omega

/-- The reviews are those of each reviewer exactly when no two reviewers have one name. -/
theorem reviews_exact (rs : List Value) (head : String) :
    (reviews out rs head = reference out rs head ∧
      (reviews out rs head).current + (reviews out rs head).stale ≤
        (reviews out rs head).decisive) ↔ (reviewer_names out rs).Nodup := by
  have h := joined out rs
  constructor
  · rintro ⟨heq, -⟩
    by_contra hdup
    have hless := h.fewer hdup
    rw [reviews_add, reference_add] at heq
    have hlines := congrArg (·.lines.length) heq
    simp only [Reviews.add, List.length_append, List.length_map] at hlines
    omega
  · intro hnodup
    rw [reference_add, ← h.alike hnodup]
    exact ⟨reviews_add rs head, current_add_stale_le rs head⟩

/-- An approval by a user, and a change request whose author is gone. -/
def merged_reviews : List Value := [
  .object [("state", .string "APPROVED"), ("id", .number (.unsigned 4)),
    ("commit_id", .string "0123456"), ("user", .object [("login", .string "unknown-5")])],
  .object [("state", .string "CHANGES_REQUESTED"), ("id", .number (.unsigned 5)),
    ("commit_id", .string "0123456"), ("user", .null)]]

theorem reviews_merged : ¬ ∀ rs head, reviews plain rs head = reference plain rs head := fun h =>
  absurd (congrArg (·.lines.length) (h merged_reviews "0123456")) (by decide)

end Reviews

end Fridica.Github.View
