import Fridica.Parent.Cli.Spec

/-!
# No order of events hides a tool call

What one line changes, what all lines amount to, and from it when Codex has decided.
-/

namespace Fridica.Parent.Cli

open Fridica.Checked Fridica.Json Fridica.Utf8

variable {from_str : FromStr} {s t : Scan} {event item : Value} {events : List Value}

/-! ## One line -/

@[simp] theorem read_json_ok {code : String} {text : Text} {v : Value} :
    read_json from_str code text = .ok v ↔ from_str text = some v := by
  unfold read_json
  split <;> simp_all

theorem one_of_iff {names : List String} {v : Value} :
    one_of names v = true ↔ ∃ name ∈ names, type_of v = some name := by
  unfold one_of
  cases type_of v <;> simp

instance (name : String) (event : Value) : Decidable (Item name event) :=
  decidable_of_iff ((event.get "item").any fun item => type_of item = some name) (by
    unfold Item
    simp [Option.any_eq_true])

instance (event : Value) : Decidable (Message event) := inferInstanceAs (Decidable (_ ∧ _))

/-- The state after an event. -/
def advance (s : Scan) (event : Value) : Scan where
  text := if Message event then message_text event else s.text
  started := s.started || decide (Event "turn.started" event)
  completed := s.completed || decide (Event "turn.completed" event)
  diagnostics := s.diagnostics || decide (Item "error" event)

/-- An error item comes before the turn. -/
def Timely (s : Scan) (event : Value) : Prop :=
  Item "error" event → (advance s event).started = false

theorem item_of_get (h : event.get "item" = some item) (name : String) :
    Item name event ↔ type_of item = some name := by
  unfold Item
  simp [h]

theorem message_of_get (h : event.get "item" = some item) :
    Message event ↔ type_of event = some "item.completed" ∧ type_of item = some "agent_message" :=
  and_congr Iff.rfl (item_of_get h "agent_message")

theorem read_item_ok (h : event.get "item" = some item) :
    read_item event item s = .ok t ↔
      (item.is_object = true ∧ ∃ name ∈ ITEMS, type_of item = some name) ∧
        (Item "error" event → s.started = false) ∧
        t = { s with
          text := if Message event then message_text event else s.text
          diagnostics := s.diagnostics || decide (Item "error" event) } := by
  have htext : message_text event = (item.field "text").as_str := by
    unfold message_text
    rw [h, Option.bind_some]
  have herror : decide (type_of item = some "error") = decide (Item "error" event) :=
    decide_eq_decide.mpr (item_of_get h "error").symm
  unfold read_item
  simp only [bind_ok, refuse_ok, not_or, Bool.not_eq_false, one_of_iff, herror, htext,
    ← message_of_get h, exists_const]
  refine and_congr Iff.rfl (and_congr ?_ ?_)
  · simp
  · split <;> rw [pure_ok, eq_comm]

theorem read_event_ok :
    read_event event s = .ok t ↔ Harmless event ∧ Timely s event ∧ t = advance s event := by
  have hharmless : Harmless event ↔ event.is_object = true ∧ (∃ name ∈ EVENTS, Event name event) ∧
      (∀ name ∈ FAILURES, ¬ Event name event) ∧ ∀ item, event.get "item" = some item →
        item.is_object = true ∧ ∃ name ∈ ITEMS, type_of item = some name :=
    ⟨fun h => ⟨h.object, h.known, h.no_failure, h.no_tool⟩,
      fun ⟨hobject, hknown, hfailure, htool⟩ => ⟨hobject, hknown, hfailure, htool⟩⟩
  rw [hharmless]
  unfold read_event
  simp only [bind_ok, refuse_ok, Bool.not_eq_false, one_of_iff, exists_const, not_exists, not_and]
  cases hget : event.get "item" with
  | none =>
    have hnone : ∀ name, ¬ Item name event := by
      rintro name ⟨item, hitem, -⟩
      rw [hget] at hitem
      cases hitem
    have hmessage : ¬ Message event := fun hm => hnone _ hm.2
    simp only [pure_ok, Timely, advance, hnone, hmessage]
    simp [eq_comm (a := t), and_assoc]
  | some item =>
    simp only [read_item_ok hget, Timely, advance, Option.some.injEq, forall_eq', and_assoc]

/-! ## All lines -/

theorem split_cons {P : List Value → Value → Prop} :
    (∀ before e after, event :: events = before ++ e :: after → P before e) ↔
      P [] event ∧ ∀ before e after, events = before ++ e :: after → P (event :: before) e := by
  constructor
  · intro h
    refine ⟨h [] event events rfl, fun before e after heq => h (event :: before) e after ?_⟩
    rw [heq, List.cons_append]
  · rintro ⟨hfirst, hrest⟩ before e after heq
    cases before with
    | nil =>
      obtain ⟨rfl, -⟩ := List.cons.inj heq
      exact hfirst
    | cons x before =>
      obtain ⟨rfl, hevents⟩ := List.cons.inj heq
      exact hrest before e after hevents

/-- The scan of all lines ends when every event passes where it stands. -/
theorem scan_ok {lines : List Text} :
    lines.foldlM (read_line from_str) s = .ok t ↔
      ∃ events, List.Forall₂ (fun line event => from_str line = some event) lines events ∧
        (∀ e ∈ events, Harmless e) ∧
        (∀ before e after, events = before ++ e :: after → Timely (before.foldl advance s) e) ∧
        t = events.foldl advance s := by
  induction lines generalizing s with
  | nil =>
    rw [List.foldlM_nil, pure_ok]
    simp [eq_comm]
  | cons line lines ih =>
    simp only [List.foldlM_cons, bind_ok, read_line, read_json_ok, read_event_ok, ih]
    constructor
    · rintro ⟨s', ⟨event, hevent, hharmless, htimely, rfl⟩, events, hlines, hall, hwhere, rfl⟩
      refine ⟨event :: events, .cons hevent hlines, ?_, split_cons.mpr ⟨htimely, hwhere⟩, rfl⟩
      exact List.forall_mem_cons.mpr ⟨hharmless, hall⟩
    · rintro ⟨_, hlines, hall, hwhere, rfl⟩
      cases hlines with
      | cons hevent hlines =>
        obtain ⟨hharmless, hall⟩ := List.forall_mem_cons.mp hall
        obtain ⟨htimely, hwhere⟩ := split_cons.mp hwhere
        exact ⟨_, ⟨_, hevent, hharmless, htimely, rfl⟩, _, hlines, hall, hwhere, rfl⟩

theorem foldl_started : (events.foldl advance s).started = true ↔
    s.started = true ∨ ∃ e ∈ events, Event "turn.started" e := by
  induction events generalizing s with
  | nil => simp
  | cons event events ih =>
    rw [List.foldl_cons, ih]
    simp [advance, or_assoc]

theorem foldl_completed : (events.foldl advance s).completed = true ↔
    s.completed = true ∨ ∃ e ∈ events, Event "turn.completed" e := by
  induction events generalizing s with
  | nil => simp
  | cons event events ih =>
    rw [List.foldl_cons, ih]
    simp [advance, or_assoc]

theorem foldl_diagnostics : (events.foldl advance s).diagnostics = true ↔
    s.diagnostics = true ∨ ∃ e ∈ events, Item "error" e := by
  induction events generalizing s with
  | nil => simp
  | cons event events ih =>
    rw [List.foldl_cons, ih]
    simp [advance, or_assoc]

theorem foldl_text {text : String} : (events.foldl advance Scan.start).text = some text ↔
    ∃ before event after, events = before ++ event :: after ∧ Message event ∧
      (∀ e ∈ after, ¬ Message e) ∧ message_text event = some text := by
  induction events using List.reverseRecOn with
  | nil => simp [Scan.start]
  | append_singleton events last ih =>
    rw [List.foldl_append, List.foldl_cons, List.foldl_nil]
    by_cases hlast : Message last
    · rw [advance, if_pos hlast]
      constructor
      · exact fun h => ⟨events, last, [], rfl, hlast, by simp, h⟩
      · rintro ⟨before, event, after, heq, -, hafter, htext⟩
        rcases List.eq_nil_or_concat after with rfl | ⟨after, e, rfl⟩
        · obtain ⟨-, hsame⟩ := List.append_inj' heq rfl
          rw [List.singleton_inj.mp hsame, htext]
        · have hend : events ++ [last] = (before ++ event :: after) ++ [e] := by simpa using heq
          obtain ⟨-, hsame⟩ := List.append_inj' hend rfl
          exact absurd (List.singleton_inj.mp hsame ▸ hlast) (hafter e (by simp))
    · rw [advance, if_neg hlast, ih]
      constructor
      · rintro ⟨before, event, after, rfl, hmessage, hafter, htext⟩
        refine ⟨before, event, after ++ [last], by simp, hmessage, ?_, htext⟩
        intro e he
        rcases List.mem_append.mp he with he | he
        · exact hafter e he
        · rwa [List.mem_singleton.mp he]
      · rintro ⟨before, event, after, heq, hmessage, hafter, htext⟩
        rcases List.eq_nil_or_concat after with rfl | ⟨after, e, rfl⟩
        · obtain ⟨-, hsame⟩ := List.append_inj' heq rfl
          exact absurd (List.singleton_inj.mp hsame ▸ hmessage) hlast
        · have hend : events ++ [last] = (before ++ event :: after) ++ [e] := by simpa using heq
          obtain ⟨hbefore, -⟩ := List.append_inj' hend rfl
          exact ⟨before, event, after, hbefore, hmessage,
            fun x hx => hafter x (by simp [hx]), htext⟩

/-! ## The decision -/

theorem timely_start {before : List Value} : Timely (before.foldl advance Scan.start) event ↔
    (Item "error" event → ∀ e ∈ before ++ [event], ¬ Event "turn.started" e) := by
  have hlast : advance (before.foldl advance Scan.start) event =
      (before ++ [event]).foldl advance Scan.start := by
    rw [List.foldl_append, List.foldl_cons, List.foldl_nil]
  unfold Timely
  rw [hlast, ← Bool.not_eq_true, foldl_started]
  simp [Scan.start, or_imp, forall_and]

theorem parse_codex_ok {output : Text} {decision : Value} :
    parse_codex from_str output = .ok decision ↔
      ∃ s text, (nonblank output).foldlM (read_line from_str) Scan.start = .ok s ∧
        (s.diagnostics = true → s.completed = true) ∧ s.text = some text ∧
        from_str text.toList = some decision ∧ decision.is_object = true := by
  unfold parse_codex
  simp only [bind_ok, refuse_ok, exists_const]
  constructor
  · rintro ⟨s, hscan, hcomplete, h⟩
    split at h
    · cases h
    next text htext =>
      simp only [bind_ok, read_json_ok, refuse_ok, pure_ok, exists_const] at h
      obtain ⟨_, hread, hobject, rfl⟩ := h
      exact ⟨s, text, hscan, by simpa using hcomplete, htext, hread, by simpa using hobject⟩
  · rintro ⟨s, text, hscan, hcomplete, htext, hread, hobject⟩
    refine ⟨s, hscan, by simpa using hcomplete, ?_⟩
    simp only [htext, bind_ok, read_json_ok, refuse_ok, pure_ok]
    exact ⟨decision, hread, (), by simp [hobject], rfl⟩

/-- **Codex has decided exactly when no event could have done anything else.** Every line is a
known event without a tool and without a failure, errors come before the turn and the turn
completes, and the last message is the decision. -/
theorem parse_iff (from_str : FromStr) (output : Bytes) (decision : Value) :
    parse from_str "codex" output = .ok decision ↔
      ∃ events, Decides from_str output events decision := by
  have hparse : parse from_str "codex" output = .ok decision ↔
      ∃ text, from_utf8 output = some text ∧ parse_codex from_str text = .ok decision := by
    unfold parse
    cases from_utf8 output <;> simp
  rw [hparse]
  constructor
  · rintro ⟨text, hutf, h⟩
    obtain ⟨s, said, hscan, hcomplete, htext, hread, hobject⟩ := parse_codex_ok.mp h
    obtain ⟨events, hlines, hharmless, hwhere, rfl⟩ := scan_ok.mp hscan
    rw [foldl_diagnostics, foldl_completed] at hcomplete
    obtain ⟨before, event, after, heq, hmessage, hafter, hsaid⟩ := foldl_text.mp htext
    refine ⟨events, ⟨text, hutf, hlines⟩, hharmless, ?_, ?_,
      ⟨before, event, after, said, heq, hmessage, hafter, hsaid, hread⟩, hobject⟩
    · exact fun before e after heq => timely_start.mp (hwhere before e after heq)
    · exact fun herror => (hcomplete (.inr herror)).resolve_left (by simp [Scan.start])
  · rintro ⟨events, ⟨text, hutf, hlines⟩, hharmless, hearly, hcomplete, hmessage, hobject⟩
    obtain ⟨before, event, after, said, heq, hlast, hafter, hsaid, hread⟩ := hmessage
    have hscan := scan_ok.mpr ⟨events, hlines, hharmless,
      fun before e after heq => timely_start.mpr (hearly before e after heq), rfl⟩
    refine ⟨text, hutf, parse_codex_ok.mpr ⟨_, said, hscan, ?_, ?_, hread, hobject⟩⟩
    · rw [foldl_diagnostics, foldl_completed]
      exact fun herror => .inr (hcomplete (herror.resolve_left (by simp [Scan.start])))
    · exact foldl_text.mpr ⟨before, event, after, heq, hlast, hafter, hsaid⟩

end Fridica.Parent.Cli
