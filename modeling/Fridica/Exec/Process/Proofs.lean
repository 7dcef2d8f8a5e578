import Fridica.Exec.Process.Spec

/-!
# Nothing secret in a diagnostic

A mark is put in the place of what is secret, and no step afterwards can make up what was taken out:
it has nothing of a mark and no white space in it.
-/

namespace Fridica.Exec.Process

open Fridica.Infix Fridica.Utf8

variable {text token q u : Text} {secrets : List String}

/-- Text of which no mark has anything. -/
abbrev Apart (q : Text) : Prop := Unmarked '[' ']' "redacted".toList q

/-! ## Secrets -/

theorem mem_sorted {s : String} : s ∈ sorted secrets ↔ s ∈ secrets ∧ s ≠ "" := by
  unfold sorted
  rw [List.mem_mergeSort, List.mem_filter, decide_eq_true_iff]

/-- Secrets one after the other. -/
def redact_all (l : List String) (text : Text) : Text :=
  l.foldl (fun text secret => Infix.replace secret.toList REDACTED 0 text) text

theorem redact_all_within {l : List String} (hl : ∀ s ∈ l, s ≠ "") (hq : Apart q)
    (h : q <:+: redact_all l text) : q <:+: text := by
  induction l generalizing text with
  | nil => exact h
  | cons s l ih =>
    obtain ⟨hs, hrest⟩ := List.forall_mem_cons.mp hl
    exact replace_within (fun hnil => hs (String.toList_eq_nil_iff.mp hnil)) hq (ih hrest h)

theorem redact_all_secret {l : List String} (hl : ∀ s ∈ l, s ≠ "") (hall : ∀ s ∈ l, Apart s.toList)
    (text : Text) : ∀ s ∈ l, ¬ s.toList <:+: redact_all l text := by
  induction l generalizing text with
  | nil => exact List.forall_mem_nil _
  | cons s l ih =>
    obtain ⟨hs, hrest⟩ := List.forall_mem_cons.mp hall
    have hne := (List.forall_mem_cons.mp hl).2
    refine List.forall_mem_cons.mpr ⟨fun h => ?_, ih hne hrest _⟩
    exact replace_self hs (redact_all_within hne hs h)

/-! ## Tokens -/

/-- A token that can be taken out: no mark has anything of it, and it does not begin with its
end. -/
structure Erasable (token : Text) : Prop where
  apart : Apart token
  begins : ∀ c ∈ token.head?, stops c = false

theorem token_erasable : ∀ token ∈ TOKEN_PREFIXES, Erasable token := by
  have hcheck : ∀ token ∈ TOKEN_PREFIXES, '[' ∉ token ∧ ']' ∉ token ∧
      ¬ token <:+: "redacted".toList ∧ token.head?.all (fun c => !stops c) = true := by
    decide
  intro token htoken
  obtain ⟨hleft, hright, hword, hbegins⟩ := hcheck token htoken
  refine ⟨⟨hleft, hright, hword⟩, fun c hc => ?_⟩
  rw [Option.mem_def.mp hc] at hbegins
  simpa using hbegins

theorem rest_length {b : Text} (h : Erasable token) (hb : token <+: b) :
    (b.dropWhile (!stops ·)).length < b.length := by
  obtain ⟨c, t, rfl⟩ := List.exists_cons_of_ne_nil h.apart.ne_nil
  obtain ⟨more, rfl⟩ := hb
  have hc : stops c = false := h.begins c rfl
  rw [List.cons_append, List.dropWhile_cons_of_pos (by rw [hc]; rfl)]
  exact Nat.lt_succ_of_le (List.dropWhile_sublist _).length_le

theorem erase_none (h : find token text = none) {n fuel : Nat} (hfuel : fuel > n) :
    erase fuel text token = some text := by
  obtain ⟨k, rfl⟩ := Nat.exists_eq_succ_of_ne_zero (Nat.ne_zero_of_lt hfuel)
  rw [erase, h]

theorem erase_some {a b : Text} (h : find token text = some (a, b)) (fuel : Nat) :
    erase (fuel + 1) text token =
      erase fuel (a ++ REDACTED ++ b.dropWhile (!stops ·)) token := by
  rw [erase, h]

/-- Each round goes on after the last mark, so there are no more rounds than characters. -/
theorem erase_spec (h : Erasable token) (text : Text) (n : Nat)
    (hn : ∀ a b, find token text = some (a, b) → b.length ≤ n) :
    ∃ u, (∀ fuel > n, erase fuel text token = some u) ∧ ¬ token <:+: u ∧
      ∀ q, Apart q → q <:+: u → q <:+: text := by
  induction n generalizing text with
  | zero =>
    cases hfind : find token text with
    | none => exact ⟨text, fun _ => erase_none hfind, find_none hfind, fun _ _ hq => hq⟩
    | some f =>
      have hb := (find_some h.apart.ne_nil hfind).2.1.length_le
      have hpos := List.length_pos_of_ne_nil h.apart.ne_nil
      have hzero := hn f.1 f.2 hfind
      omega
  | succ n ih =>
    cases hfind : find token text with
    | none => exact ⟨text, fun _ => erase_none hfind, find_none hfind, fun _ _ hq => hq⟩
    | some f =>
      obtain ⟨a, b⟩ := f
      obtain ⟨rfl, hb, ha⟩ := find_some h.apart.ne_nil hfind
      have hshort := rest_length h hb
      have hlen := hn a b hfind
      obtain ⟨u, hu, hfree, hparts⟩ := ih (a ++ REDACTED ++ b.dropWhile (!stops ·)) <| by
        -- The next token begins after the mark.
        intro a' b' hfind'
        obtain ⟨heq, hb', -⟩ := find_some h.apart.ne_nil hfind'
        have hafter := h.apart.after_mark ha hb' heq.symm
        have hle := hafter.length_le
        omega
      refine ⟨u, fun fuel hfuel => ?_, hfree, fun q hq hin => ?_⟩
      · obtain ⟨k, rfl⟩ := Nat.exists_eq_succ_of_ne_zero (Nat.ne_zero_of_lt hfuel)
        rw [erase_some hfind]
        exact hu k (Nat.lt_of_succ_lt_succ hfuel)
      · rcases hq.infix_marked (hparts q hq hin) with hbefore | hrest
        · exact hbefore.trans (List.prefix_append a b).isInfix
        · exact hrest.trans
            ((List.dropWhile_suffix _).isInfix.trans (List.suffix_append a b).isInfix)

theorem erase_all_spec {tokens : List Text} (h : ∀ token ∈ tokens, Erasable token) (text : Text) :
    ∃ u n, (∀ fuel > n, tokens.foldlM (erase fuel) text = some u) ∧
      (∀ token ∈ tokens, ¬ token <:+: u) ∧ ∀ q, Apart q → q <:+: u → q <:+: text := by
  induction tokens generalizing text with
  | nil => exact ⟨text, 0, fun _ _ => rfl, List.forall_mem_nil _, fun _ _ hq => hq⟩
  | cons token tokens ih =>
    obtain ⟨htoken, hrest⟩ := List.forall_mem_cons.mp h
    obtain ⟨v, hv, hvfree, hvparts⟩ := erase_spec htoken text text.length <| by
      intro a b hfind
      obtain ⟨rfl, -⟩ := find_some htoken.apart.ne_nil hfind
      exact (List.suffix_append a b).length_le
    obtain ⟨u, n, hu, hufree, huparts⟩ := ih hrest v
    refine ⟨u, max text.length n, fun fuel hfuel => ?_, ?_, fun q hq hin => ?_⟩
    · rw [List.foldlM_cons, hv fuel (by omega)]
      exact hu fuel (by omega)
    · exact List.forall_mem_cons.mpr
        ⟨fun hin => hvfree (huparts token htoken.apart hin), hufree⟩
    · exact hvparts q hq (huparts q hq hin)

/-! ## The line -/

theorem line_within (hne : q ≠ []) (hspace : ∀ c ∈ q, Text.whitespace c = false)
    (h : q <:+: line text) : q <:+: text := by
  have hblank : ' ' ∉ q := fun hmem => absurd (hspace ' ' hmem) (by decide)
  obtain ⟨w, hw, hin⟩ := infix_intercalate hne hblank h
  exact hin.trans ((splitOnP_parts _ text).2 w (List.mem_filter.mp hw).1)

theorem tail_within (limit : Nat) (h : q <:+: tail limit text) : q <:+: text :=
  h.trans (List.drop_suffix _ text).isInfix

/-- A secret that no mark and no change of white space can make up. -/
structure Plain (secret : Text) : Prop where
  space : ∀ c ∈ secret, Text.whitespace c = false
  brackets : '[' ∉ secret ∧ ']' ∉ secret
  word : ¬ secret <:+: "redacted".toList

/-- A diagnostic is written after finitely many rounds. It has no token in it, and none of the
secrets when they are plain. -/
theorem diagnostic_safe (bytes : Bytes) (limit : Nat) (secrets : List String) :
    ∃ u n, (∀ fuel > n, diagnostic fuel bytes limit secrets = some u) ∧
      (∀ token ∈ TOKEN_PREFIXES, ¬ token <:+: u) ∧
      ((∀ s ∈ secrets, s ≠ "" → Plain s.toList) →
        ∀ s ∈ secrets, s ≠ "" → ¬ s.toList <:+: u) := by
  obtain ⟨u, n, hu, hfree, hparts⟩ :=
    erase_all_spec token_erasable (redact secrets (lossy bytes))
  refine ⟨tail limit (line u), n, fun fuel hfuel => ?_, fun token htoken hin => ?_,
    fun hplain s hs hne hin => ?_⟩
  · unfold diagnostic
    rw [hu fuel hfuel]
    rfl
  · have hspace : ∀ token ∈ TOKEN_PREFIXES, token.all (fun c => !Text.whitespace c) = true := by
      decide
    have hspace : ∀ c ∈ token, Text.whitespace c = false := fun c hc => by
      simpa using List.all_eq_true.mp (hspace token htoken) c hc
    exact hfree token htoken (line_within (token_erasable token htoken).apart.ne_nil
      hspace (tail_within limit hin))
  · have happart : ∀ s ∈ secrets, s ≠ "" → Apart s.toList := fun s hs hne =>
      ⟨(hplain s hs hne).brackets.1, (hplain s hs hne).brackets.2, (hplain s hs hne).word⟩
    have hs' := happart s hs hne
    have htext := hparts _ hs'
      (line_within hs'.ne_nil (hplain s hs hne).space (tail_within limit hin))
    exact redact_all_secret (fun s hs => (mem_sorted.mp hs).2)
      (fun s hs => happart s (mem_sorted.mp hs).1 (mem_sorted.mp hs).2) _ s
      (mem_sorted.mpr ⟨hs, hne⟩) htext

end Fridica.Exec.Process
