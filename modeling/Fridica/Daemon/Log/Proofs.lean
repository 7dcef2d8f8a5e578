import Fridica.Daemon.Log.Spec
import Fridica.Lib.Infix
import Mathlib.Data.List.Infix

/-!
# The error of a parent backend, as it is shown

Unwrapping ends because a message inside a JSON text is shorter than the text. What is shown is one
line, from the last error event on stdout or else from the last line on stderr.
-/

namespace Fridica.Daemon.Log

open Fridica.Json
open Fridica.Lines (Text lines trim blank Tidy)

/-! ## One line -/

theorem word_of_line {t w : Text}
    (h : w ∈ (t.splitOnP Text.whitespace).filter (· ≠ [])) :
    w ≠ [] ∧ (∀ c ∈ w, blank c = false) ∧ ∀ c ∈ w, c ∈ t := by
  obtain ⟨hmem, hne⟩ := List.mem_filter.mp h
  refine ⟨by simpa using hne, Lines.not_mem_splitOnP hmem, ?_⟩
  exact fun c hc => ((Infix.splitOnP_parts _ t).2 w hmem).subset hc

theorem line_tidy (t : Text) : Tidy (Exec.Process.line t) := by
  apply Tidy.join
  intro w hw
  obtain ⟨hne, hword, -⟩ := word_of_line hw
  exact ⟨hne, hword⟩

theorem mem_line {t : Text} {c : Char} (h : c ∈ Exec.Process.line t) : c = ' ' ∨ c ∈ t := by
  by_cases hc : c = ' '
  · exact .inl hc
  · have hin := (List.singleton_infix_iff c _).mpr h
    obtain ⟨w, hw, hin⟩ := Infix.infix_intercalate (by simp) (by simpa using Ne.symm hc) hin
    exact .inr ((word_of_line hw).2.2 c ((List.singleton_infix_iff c w).mp hin))

theorem line_no_control (t : Text) :
    ∀ c ∈ Exec.Process.line (t.map fun c => if Text.is_control c then ' ' else c),
      Text.is_control c = false := by
  intro c hc
  rcases mem_line hc with rfl | hc
  · decide
  · obtain ⟨d, -, rfl⟩ := List.mem_map.mp hc
    split
    · decide
    · simp_all

theorem one_line_some {t shown : Text} (h : one_line t = some shown) : OneLine shown := by
  unfold one_line at h
  dsimp only at h
  have htidy := line_tidy (t.map fun c => if Text.is_control c then ' ' else c)
  have hcontrol := line_no_control t
  generalize Exec.Process.line (t.map fun c => if Text.is_control c then ' ' else c) = line at *
  split at h
  · cases h
  next hne =>
    obtain rfl := Option.some.inj h
    split
    · refine ⟨by simp, by simp [BACKEND_ERROR_CHARS], ?_, htidy.cut _ (by decide)⟩
      intro c hc
      rcases List.mem_append.mp hc with hc | hc
      · exact hcontrol c (List.mem_of_mem_take hc)
      · rw [List.mem_singleton.mp hc]
        decide
    next hlen =>
      refine ⟨hne, ?_, hcontrol, htidy⟩
      unfold BACKEND_ERROR_CHARS at hlen
      omega

/-! ## Messages -/

section Messages

variable {from_str : String → Option Value} {v : Value} {m : String}

theorem message_within (h : message v = some m) : Value.Within m v := by
  unfold message at h
  rcases Option.or_eq_some_iff.mp h with h | ⟨-, h⟩
  · exact (Value.Within.of_str h).of_field.of_field
  · exact (Value.Within.of_str h).of_field

theorem carried_within (h : carried v = some m) : Value.Within m v := by
  unfold carried at h
  split at h
  · exact (Value.Within.of_str h).of_field
  · split at h
    · exact message_within h
    · cases h

theorem innermost_ends (hquoted : Quoted from_str) {fuel : Nat} {m : String}
    (hfuel : m.length < fuel) :
    ∃ last, innermost from_str fuel m = some last ∧ Innermost from_str m last := by
  induction fuel generalizing m with
  | zero => omega
  | succ fuel ih =>
    unfold innermost
    cases hv : from_str m with
    | none =>
      refine ⟨m, rfl, .here ?_⟩
      simp [hv]
    | some v =>
      dsimp only
      cases hm : message v with
      | none =>
        refine ⟨m, rfl, .here ?_⟩
        simp [hv, hm]
      | some nested =>
        have hshort := hquoted m v nested hv (message_within hm)
        obtain ⟨last, hlast, h⟩ := ih (m := nested) (by omega)
        exact ⟨last, hlast, .inside hv hm h⟩

theorem Innermost.unique {a b : String} (ha : Innermost from_str m a) (hb : Innermost from_str m b) :
    a = b := by
  induction ha with
  | here hnone =>
    cases hb with
    | here => rfl
    | inside hv hm => simp [hnone _ hv] at hm
  | inside hv hm _ ih =>
    cases hb with
    | here hnone => simp [hnone _ hv] at hm
    | inside hv' hm' hb =>
      rw [hv] at hv'
      obtain rfl := Option.some.inj hv'
      rw [hm] at hm'
      obtain rfl := Option.some.inj hm'
      exact ih hb

theorem length_le_of_mem_lines {t l : Text} (h : l ∈ lines t) : l.length ≤ t.length := by
  have hpart : ∀ w ∈ t.splitOn Lines.NEWLINE, w.length ≤ t.length := by
    intro w hw
    rw [List.splitOn_eq_splitOnP] at hw
    exact ((Infix.splitOnP_parts _ t).2 w hw).length_le
  unfold lines at h
  rcases List.mem_append.mp h with h | h
  · obtain ⟨w, hw, rfl⟩ := List.mem_map.mp h
    have hlen := hpart w (List.mem_of_mem_dropLast hw)
    unfold Lines.strip_return
    split
    · simp
      omega
    · exact hlen
  · split at h
    · cases h
    next hne =>
      rw [List.mem_singleton.mp h]
      refine hpart _ ((List.mem_cons.mp (List.getLastD_mem_cons ..)).resolve_left hne)

theorem event_message_length (hquoted : Quoted from_str) {t l : Text} (hl : l ∈ lines t)
    (h : event_message from_str l = some m) : m.length < t.length := by
  obtain ⟨v, hv, hcarried⟩ := Option.bind_eq_some_iff.mp h
  have hshort := hquoted _ v m hv (carried_within hcarried)
  have htrim : (trim l).length ≤ l.length := by
    obtain ⟨a, b, heq, -⟩ := Lines.exists_trim l
    have := congrArg List.length heq
    simp at this
    omega
  have hline := length_le_of_mem_lines hl
  simp at hshort
  omega

end Messages

/-! ## The last of a list -/

section Last

variable {α β : Type} {f : α → Option β} {l : List α} {b : β}

theorem last_of_reverse : l.reverse.findSome? f = some b ↔ Last f l b := by
  rw [List.findSome?_eq_some_iff]
  constructor
  · rintro ⟨after, a, before, heq, ha, hnone⟩
    refine ⟨before.reverse, a, after.reverse, ?_, ha, ?_⟩
    · rw [← List.reverse_reverse l, heq]
      simp
    · simpa using hnone
  · rintro ⟨before, a, after, rfl, ha, hnone⟩
    exact ⟨after.reverse, a, before.reverse, by simp, ha, by simpa using hnone⟩

end Last

/-- **The log shows one line of an output**: whatever the output is, it ends with nothing or with a
bounded line, from the last error event of stdout, or else from the last line of stderr. -/
theorem backend_error_shows {from_str : String → Option Value} (hquoted : Quoted from_str)
    (output : Value) : ∃ shown,
    (∀ fuel, (decode (output.field "stdout")).length < fuel →
      backend_error from_str fuel output = some shown) ∧
    Shows from_str output shown ∧ ∀ line ∈ shown, OneLine line := by
  cases hfound : (lines (decode (output.field "stdout"))).reverse.findSome?
      (event_message from_str) with
  | some m =>
    have hlast := last_of_reverse.mp hfound
    obtain ⟨before, l, after, heq, hm, -⟩ := id hlast
    have hmem : l ∈ lines (decode (output.field "stdout")) := by simp [heq]
    have hlen := event_message_length hquoted hmem hm
    obtain ⟨last, -, hinner⟩ := innermost_ends hquoted (Nat.lt_succ_self m.length)
    refine ⟨one_line last.toList, ?_, .event hlast hinner, fun line h => one_line_some h⟩
    intro fuel hfuel
    obtain ⟨last', hsome, hinner'⟩ := innermost_ends hquoted (hlen.trans hfuel)
    simp [backend_error, hfound, hsome, hinner.unique hinner']
  | none =>
    have hnone : ∀ l ∈ lines (decode (output.field "stdout")), event_message from_str l = none := by
      simpa [List.findSome?_eq_none_iff] using hfound
    refine ⟨((lines (decode (output.field "stderr"))).reverse.find? nonblank).bind one_line,
      fun fuel _ => ?_, ?_, ?_⟩
    · simp only [backend_error, hfound]
    · cases hline : (lines (decode (output.field "stderr"))).reverse.find? nonblank with
      | some line =>
        rw [← List.findSome?_guard] at hline
        exact .stderr hnone (last_of_reverse.mp hline)
      | none => exact .nothing hnone (by simpa using hline)
    · intro line hline
      obtain ⟨l, -, h⟩ := Option.bind_eq_some_iff.mp hline
      exact one_line_some h

/-- A message of the API inside an error event. -/
def nested (t : String) : Option Value :=
  if t = "\x7b\"message\":\"quota\"\x7d" then some (.object [("message", .string "quota")])
  else if t = "\x7b\"type\":\"error\",\"message\":\"\x7b\\\"message\\\":\\\"quota\\\"\x7d\"\x7d" then
    some (.object [("type", .string "error"),
      ("message", .string "\x7b\"message\":\"quota\"\x7d")])
  else none

theorem nested_quoted : Quoted nested := by
  intro t v s hv hs
  unfold nested at hv
  split at hv
  next ht =>
    obtain rfl := Option.some.inj hv
    have hs : s = "quota" := by simpa using hs
    rw [ht, hs]
    decide
  · split at hv
    next ht =>
      obtain rfl := Option.some.inj hv
      have hs : s = "error" ∨ s = "\x7b\"message\":\"quota\"\x7d" := by simpa using hs
      rw [ht]
      rcases hs with rfl | rfl <;> decide
    · cases hv

theorem backend_error_shows_nested :
    let output := Value.object [("stdout", .string
      "\x7b\"type\":\"error\",\"message\":\"\x7b\\\"message\\\":\\\"quota\\\"\x7d\"\x7d\n"),
      ("stderr", .string "failed\n")]
    ∃ shown, (∀ fuel, (decode (output.field "stdout")).length < fuel →
        backend_error nested fuel output = some shown) ∧
      Shows nested output shown ∧ ∀ line ∈ shown, OneLine line :=
  backend_error_shows nested_quoted _

end Fridica.Daemon.Log
