import Fridica.Github.Checks.Spec
import Mathlib.Data.Rat.Cast.Order
import Mathlib.Tactic.Linarith

/-!
# A certified commit

A commit is certified only on evidence that no check run was left out, unless the server leaves the
total out, or writes it in a way that `as_u64` does not read.
-/

namespace Fridica.Github

open Fridica.Json

/-! ## The pages of the server -/

section Pages

variable (get : Operation → Except Failure Value) (head : String)

def Holds (page : Nat) (batch : List Value) (total : Value) : Prop :=
  ∃ value, get (.checks head page) = .ok value ∧
    (value.field "check_runs").as_array = some batch ∧ value.field "total_count" = total

/-- The page is full and there are more check runs than these. -/
def Full (page : Nat) (batch : List Value) : Prop :=
  batch.length = 100 ∧ ∃ total n, Holds get head page batch total ∧ total.as_u64 = some n ∧
    page * 100 < n

/-- The pages before `page` are full, with these check runs on them. -/
inductive Reached : Nat → List Value → Prop
  | first : Reached 1 []
  | next {page items batch} : Reached page items → Full get head page batch →
      Reached (page + 1) (items ++ batch)

/-- Page `page` is the last one read, and `items` are the check runs of all of them. -/
structure LastRead (page : Nat) (items batch : List Value) (total : Value) : Prop where
  before : ∃ earlier, Reached get head page earlier ∧ items = earlier ++ batch
  page_le : page ≤ 3
  holds : Holds get head page batch total
  last : page = 3 ∨ ¬ Full get head page batch

end Pages

/-- Positive evidence that nothing was left out. -/
def Evidence (items batch : List Value) (total : Value) : Prop :=
  (batch.length < 100 ∧ ∀ n, total.as_number = some n → n ≤ items.length) ∨
    ∃ n, total.as_number = some n ∧ n ≤ items.length

def Stops (run : Value) : Prop :=
  run.is_object = true ∧ (kind run = .failure ∨ kind run = .cancelled ∨ kind run = .pending)

def Succeeds (run : Value) : Prop := run.is_object = true ∧ kind run = .success

/-! ## One page at a time -/

theorem Reached.length {get : Operation → Except Failure Value} {head : String} {page : Nat}
    {items : List Value} (h : Reached get head page items) :
    1 ≤ page ∧ items.length = (page - 1) * 100 := by
  induction h with
  | first => simp
  | next _ hfull ih =>
    rw [List.length_append, hfull.1]
    omega

theorem count_pos {runs : List Value} {k : Kind} :
    0 < count runs k ↔ ∃ run ∈ runs, run.is_object = true ∧ kind run = k := by
  unfold count
  rw [List.countP_pos_iff]
  simp [and_assoc]

theorem certifies_iff {runs : List Value} :
    (checks runs).1.certifies = true ↔ ∀ run ∈ runs, ¬ Stops run := by
  have hstop : (∃ run ∈ runs, Stops run) ↔
      0 < count runs .failure ∨ 0 < count runs .cancelled ∨ 0 < count runs .pending := by
    simp only [count_pos, Stops]
    constructor
    · rintro ⟨run, hrun, hobj, h | h | h⟩
      · exact .inl ⟨run, hrun, hobj, h⟩
      · exact .inr (.inl ⟨run, hrun, hobj, h⟩)
      · exact .inr (.inr ⟨run, hrun, hobj, h⟩)
    · rintro (⟨run, hrun, hobj, h⟩ | ⟨run, hrun, hobj, h⟩ | ⟨run, hrun, hobj, h⟩)
      · exact ⟨run, hrun, hobj, .inl h⟩
      · exact ⟨run, hrun, hobj, .inr (.inl h)⟩
      · exact ⟨run, hrun, hobj, .inr (.inr h)⟩
  have hall : (∀ run ∈ runs, ¬ Stops run) ↔ ¬ ∃ run ∈ runs, Stops run := by
    push Not
    rfl
  rw [hall, hstop]
  unfold checks
  dsimp only
  by_cases hf : 0 < count runs .failure
  · simp [hf, Ci.certifies]
  by_cases hc : 0 < count runs .cancelled
  · simp [hf, hc, Ci.certifies]
  by_cases hp : 0 < count runs .pending
  · simp [hf, hc, hp, Ci.certifies]
  simp only [gt_iff_lt, hf, hc, hp, if_false, or_self, not_false_eq_true, iff_true]
  split
  · rfl
  · split <;> rfl

theorem success_of_checks {runs : List Value} (h : (checks runs).1 = .success) :
    ∃ run ∈ runs, Succeeds run := by
  unfold checks at h
  dsimp only at h
  exact count_pos.mp (by grind)

section Server

variable {get : Operation → Except Failure Value} {head : String}

/-- The loop from a page on: where it ends, and what it says there. -/
theorem read_pages_ok {page rest : Nat} {items all : List Value} {complete : Bool}
    (hreached : Reached get head page items) (hrest : page + rest = 4)
    (h : read_pages get (.checks head) (List.range' page rest) items = .ok (all, complete)) :
    complete = false ∨ ∃ last batch total, LastRead get head last all batch total ∧
      batch.length ≤ 100 ∧ complete = decide (total.as_u64.getD all.length ≤ all.length) := by
  induction rest generalizing page items with
  | zero =>
    unfold read_pages at h
    exact .inl (by simpa using (congrArg Prod.snd (Except.ok.inj h)).symm)
  | succ rest ih =>
    rw [List.range'_succ] at h
    unfold read_pages at h
    obtain ⟨hpos, hlen⟩ := hreached.length
    cases hget : get (.checks head page) with
    | error failure =>
      simp only [Subject.operation, hget] at h
      cases h
    | ok value =>
      simp only [Subject.operation, hget, Subject.batch] at h
      cases hb : (value.field "check_runs").as_array with
      | none =>
        simp only [hb] at h
        cases h
      | some batch =>
        simp only [hb] at h
        have hholds : Holds get head page batch (value.field "total_count") :=
          ⟨value, hget, hb, rfl⟩
        split at h
        · exact .inl (by simpa using (congrArg Prod.snd (Except.ok.inj h)).symm)
        next hover =>
        have hall : (items ++ batch).length = (page - 1) * 100 + batch.length := by
          rw [List.length_append, hlen]
        split at h
        · next hstop =>
          obtain ⟨rfl, rfl⟩ := Prod.mk.inj (Except.ok.inj h)
          refine .inr ⟨page, batch, _, ⟨⟨items, hreached, rfl⟩, by omega, hholds, ?_⟩,
            by omega, ?_⟩
          · refine .inr fun hfull => ?_
            obtain ⟨hfull, total, n, hh, hn, hlt⟩ := hfull
            obtain ⟨value', hget', -, rfl⟩ := hh
            obtain rfl : value = value' := Except.ok.inj (hget.symm.trans hget')
            rw [hn, Option.getD_some] at hstop
            omega
          · unfold items_len_complete
            rw [hall]
        · next hmore =>
          push Not at hmore
          have hfull : Full get head page batch := by
            refine ⟨by omega, _, (value.field "total_count").as_u64.getD 0, hholds, ?_, ?_⟩
            · cases hn : (value.field "total_count").as_u64 with
              | none =>
                rw [hn, Option.getD_none] at hmore
                omega
              | some n => rfl
            · cases hn : (value.field "total_count").as_u64 with
              | none =>
                rw [hn, Option.getD_none] at hmore
                omega
              | some n =>
                rw [hn, Option.getD_some] at hmore
                rw [Option.getD_some]
                omega
          exact ih (.next hreached hfull) (by omega) h

theorem pages_ok {all : List Value} {complete : Bool}
    (h : pages get (.checks head) = .ok (all, complete)) :
    complete = false ∨ ∃ last batch total, LastRead get head last all batch total ∧
      batch.length ≤ 100 ∧ complete = decide (total.as_u64.getD all.length ≤ all.length) :=
  read_pages_ok .first (show 1 + 3 = 4 from rfl) h

theorem pages_of_reached {page : Nat} {items : List Value} (h : Reached get head page items)
    (hle : page ≤ 3) : pages get (.checks head) =
      read_pages get (.checks head) (List.range' page (4 - page)) items := by
  induction h with
  | first => rfl
  | @next page items batch hreached hfull ih =>
    obtain ⟨hlen, total, n, ⟨value, hget, hb, rfl⟩, hn, hlt⟩ := hfull
    obtain ⟨hpos, hitems⟩ := hreached.length
    obtain ⟨rest, hrest⟩ : ∃ rest, 4 - page = rest + 1 := ⟨3 - page, by omega⟩
    have hgo : ¬ ((items ++ batch).length ≥ n ∨ batch.length < 100) := by
      rw [List.length_append, hitems, hlen]
      omega
    rw [ih (by omega), hrest, List.range'_succ, show 4 - (page + 1) = rest by omega]
    conv_lhs => unfold read_pages
    simp only [Subject.operation, hget, Subject.batch, hb, hn, Option.getD_some]
    rw [if_neg (by omega), if_neg hgo]

theorem Holds.unique {page : Nat} {batch batch' : List Value} {total total' : Value}
    (h : Holds get head page batch total) (h' : Holds get head page batch' total') :
    batch = batch' ∧ total = total' := by
  obtain ⟨value, hget, hb, rfl⟩ := h
  obtain ⟨value', hget', hb', rfl⟩ := h'
  obtain rfl : value = value' := Except.ok.inj (hget.symm.trans hget')
  exact ⟨Option.some_inj.mp (hb.symm.trans hb'), rfl⟩

theorem Full.holds {page : Nat} {batch : List Value} (h : Full get head page batch) :
    ∃ total, Holds get head page batch total := by
  obtain ⟨-, total, -, hh, -⟩ := h
  exact ⟨total, hh⟩

theorem Reached.unique {page : Nat} {items items' : List Value} (h : Reached get head page items)
    (h' : Reached get head page items') : items = items' := by
  induction h generalizing items' with
  | first =>
    cases h' with
    | first => rfl
    | next h' => exact absurd h'.length.1 (by omega)
  | next hreached hfull ih =>
    cases h' with
    | first => exact absurd hreached.length.1 (by omega)
    | next h' hfull' =>
      obtain ⟨_, hh⟩ := hfull.holds
      obtain ⟨_, hh'⟩ := hfull'.holds
      rw [ih h', (hh.unique hh').1]

theorem Reached.full {page later : Nat} {items : List Value} (h : Reached get head later items)
    (hpos : 1 ≤ page) (hlt : page < later) : ∃ batch, Full get head page batch := by
  induction h with
  | first => omega
  | next hreached hfull ih =>
    rcases Nat.lt_succ_iff_lt_or_eq.mp hlt with hlt | rfl
    · exact ih hlt
    · exact ⟨_, hfull⟩

theorem LastRead.page_le_of {page page' : Nat} {items items' batch batch' : List Value}
    {total total' : Value} (h : LastRead get head page items batch total)
    (h' : LastRead get head page' items' batch' total') : page' ≤ page := by
  by_contra hlt
  obtain ⟨earlier, hreached, -⟩ := h.before
  obtain ⟨earlier', hreached', -⟩ := h'.before
  obtain ⟨full, hfull⟩ := hreached'.full hreached.length.1 (by omega)
  obtain ⟨_, hh⟩ := hfull.holds
  rcases h.last with hlast | hlast
  · have := h'.page_le
    omega
  · exact hlast ((hh.unique h.holds).1 ▸ hfull)

theorem LastRead.unique {page page' : Nat} {items items' batch batch' : List Value}
    {total total' : Value} (h : LastRead get head page items batch total)
    (h' : LastRead get head page' items' batch' total') :
    items = items' ∧ batch = batch' ∧ total = total' := by
  obtain rfl : page = page' := le_antisymm (h'.page_le_of h) (h.page_le_of h')
  obtain ⟨hb, ht⟩ := h.holds.unique h'.holds
  obtain ⟨earlier, hreached, rfl⟩ := h.before
  obtain ⟨earlier', hreached', rfl⟩ := h'.before
  exact ⟨by rw [hreached.unique hreached', hb], hb, ht⟩

theorem LastRead.pages {page : Nat} {items batch : List Value} {total : Value}
    (h : LastRead get head page items batch total) (hle : batch.length ≤ 100) :
    pages get (.checks head) =
      .ok (items, decide (total.as_u64.getD items.length ≤ items.length)) := by
  obtain ⟨earlier, hreached, rfl⟩ := h.before
  obtain ⟨hpos, hearlier⟩ := hreached.length
  have hpage := h.page_le
  obtain ⟨rest, hrest⟩ : ∃ rest, 4 - page = rest + 1 := ⟨3 - page, by omega⟩
  obtain ⟨value, hget, hb, rfl⟩ := h.holds
  have hitems : (earlier ++ batch).length = (page - 1) * 100 + batch.length := by
    rw [List.length_append, hearlier]
  rw [pages_of_reached hreached hpage, hrest, List.range'_succ]
  unfold read_pages
  simp only [Subject.operation, hget, Subject.batch, hb]
  rw [if_neg (by omega)]
  by_cases hstop : (earlier ++ batch).length ≥
      (value.field "total_count").as_u64.getD (earlier ++ batch).length ∨ batch.length < 100
  · rw [if_pos hstop]
    unfold items_len_complete
    rw [hitems]
  · rw [if_neg hstop]
    push Not at hstop
    cases hn : (value.field "total_count").as_u64 with
    | none =>
      rw [hn, Option.getD_none] at hstop
      omega
    | some n =>
      rw [hn, Option.getD_some] at hstop
      rcases h.last with rfl | hlast
      · obtain rfl : rest = 0 := by omega
        unfold read_pages
        rw [Option.getD_some, decide_eq_false (by omega)]
        rfl
      · refine absurd ⟨by omega, _, n, ⟨value, hget, hb, rfl⟩, hn, ?_⟩ hlast
        omega

/-! ## Evidence -/

/-- The page has no total that the code reads, and either the total that it has is more than the
check runs read, or it has none and is full. -/
def Unread (items batch : List Value) (total : Value) : Prop :=
  total.as_u64 = none ∧
    match total.as_number with
    | some n => items.length < n
    | none => batch.length = 100

theorem evidence_of_not_unread {items batch : List Value} {total : Value}
    (hle : batch.length ≤ 100) (hc : total.as_u64.getD items.length ≤ items.length)
    (h : ¬ Unread items batch total) : Evidence items batch total := by
  cases hn : total.as_u64 with
  | some n =>
    rw [hn, Option.getD_some] at hc
    exact .inr ⟨n, Value.as_number_of_u64 hn, by exact_mod_cast hc⟩
  | none =>
    unfold Unread at h
    cases hq : total.as_number with
    | none =>
      simp only [hn, hq, true_and] at h
      exact .inl ⟨by omega, by simp [hq]⟩
    | some q =>
      simp only [hn, hq, true_and, not_lt] at h
      exact .inr ⟨q, hq, h⟩

theorem not_evidence_of_unread {items batch : List Value} {total : Value}
    (h : Unread items batch total) : ¬ Evidence items batch total := by
  obtain ⟨hn, hmatch⟩ := h
  cases hq : total.as_number with
  | none =>
    rw [hq] at hmatch
    rintro (⟨hlt, -⟩ | ⟨n, hn', -⟩)
    · dsimp only at hmatch
      omega
    · rw [hq] at hn'
      cases hn'
  | some q =>
    rw [hq] at hmatch
    rintro (⟨-, hall⟩ | ⟨n, hn', hle⟩)
    · exact absurd (hall q hq) (not_le.mpr hmatch)
    · obtain rfl : q = n := Option.some_inj.mp (hq.symm.trans hn')
      exact absurd hle (not_le.mpr hmatch)

theorem shown_eq {verdict : Ci} (h : shown get head = .ok verdict)
    (hcert : verdict.certifies = true) : ∃ all, pages get (.checks head) = .ok (all, true) ∧
      verdict = (checks all).1 := by
  unfold shown at h
  cases hpages : pages get (.checks head) with
  | error failure =>
    rw [hpages] at h
    cases failure <;> simp only [optional, reduceCtorEq] at h <;>
      · obtain rfl := Except.ok.inj h
        cases hcert
  | ok runs =>
    obtain ⟨all, complete⟩ := runs
    rw [hpages] at h
    simp only [optional] at h
    obtain rfl := Except.ok.inj h
    unfold ci at hcert ⊢
    dsimp only at hcert ⊢
    cases complete with
    | true => exact ⟨all, rfl, by simp⟩
    | false =>
      cases hc : (checks all).1.certifies with
      | true =>
        rw [hc] at hcert
        cases hcert
      | false =>
        rw [hc] at hcert
        simp only [Bool.not_false, Bool.true_and, Bool.false_eq_true, if_false] at hcert
        rw [hc] at hcert
        cases hcert

/-- **A commit is certified on evidence exactly when no last page hides its total**, or a run on the
pages stops the commit in any case. -/
theorem certified_iff (get : Operation → Except Failure Value) (head : String) :
    (∀ verdict, shown get head = .ok verdict → verdict.certifies = true →
      ∃ page items batch total, LastRead get head page items batch total ∧
        batch.length ≤ 100 ∧ Evidence items batch total ∧ (∀ run ∈ items, ¬ Stops run) ∧
        (verdict = .success → ∃ run ∈ items, Succeeds run)) ↔
      ∀ page items batch total, LastRead get head page items batch total →
        batch.length ≤ 100 → Unread items batch total → ∃ run ∈ items, Stops run := by
  constructor
  · intro hsound page items batch total hlast hle hunread
    by_contra hnone
    push Not at hnone
    have hcert := certifies_iff.mpr hnone
    have hpages := hlast.pages hle
    rw [hunread.1, Option.getD_none, decide_eq_true le_rfl] at hpages
    have hshown : shown get head = .ok (checks items).1 := by
      unfold shown
      rw [hpages]
      simp [optional, ci]
    obtain ⟨_, _, _, _, hlast', -, hev, -⟩ := hsound _ hshown hcert
    obtain ⟨rfl, rfl, rfl⟩ := hlast.unique hlast'
    exact not_evidence_of_unread hunread hev
  · intro hcond verdict hshown hcert
    obtain ⟨all, hpages, rfl⟩ := shown_eq hshown hcert
    have hstop := certifies_iff.mp hcert
    rcases pages_ok hpages with hfalse | ⟨page, batch, total, hlast, hle, hcomplete⟩
    · cases hfalse
    · refine ⟨page, all, batch, total, hlast, hle, ?_, hstop, success_of_checks⟩
      refine evidence_of_not_unread hle (by simpa using hcomplete) fun hunread => ?_
      obtain ⟨run, hrun, hstops⟩ := hcond page all batch total hlast hle hunread
      exact hstop run hrun hstops

end Server

/-! ## A server that leaves the total out -/

def green : Value :=
  .object [("status", .string "completed"), ("conclusion", .string "success")]

def silent : Operation → Except Failure Value := fun _ =>
  .ok (.object [("check_runs", .array (List.replicate 100 green))])

set_option maxRecDepth 4000 in
theorem silent_success : shown silent "abc" = .ok .success ∧
    ¬ ∃ page items batch total, LastRead silent "abc" page items batch total ∧
      Evidence items batch total := by
  refine ⟨rfl, ?_⟩
  rintro ⟨page, items, batch, total, hlast, hev⟩
  obtain ⟨value, hget, hb, rfl⟩ := hlast.holds
  obtain rfl := Except.ok.inj hget
  obtain rfl := Option.some_inj.mp hb
  rcases hev with ⟨hlt, -⟩ | ⟨n, hn, -⟩
  · simp at hlt
  · cases hn

end Fridica.Github
