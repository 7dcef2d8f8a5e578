import Fridica.Slack.Files.Reading

/-!
# Files that come up again

A file that comes up again is said to be read from a newer message. It is, when it first comes up in
another message, as a text, and among the first three of those.
-/

namespace Fridica.Slack.Files

open Fridica.Json

variable {out : Outside} {own : List String} {answers : Nat → Answer} {messages : List Value}
  {occ b c : Occurrences} {event event' : String} {a a' : Attachment}

/-- How many texts come up that may be read, and that did not come up before. -/
def fresh_texts (own files : List String) : Occurrences → Nat
  | [] => 0
  | (_, a) :: rest =>
    (if a.id ∉ own ∧ a.id ∉ files ∧ is_text a then 1 else 0) + fresh_texts own (a.id :: files) rest

/-- Where a file comes up for the first time. -/
structure First (occ b : Occurrences) (event : String) (a : Attachment) : Prop extends
    Split occ b event a where
  new : a.id ∉ b.map (·.2.id)

/-- Files that come up again came up in another message, as a text, and among the first three. -/
def Repeats (own : List String) (messages : List Value) : Prop :=
  ∀ b event a, Split (occurrences [] messages) b event a → a.id ∉ own →
    ∀ c event' a', First b c event' a' → a'.id = a.id →
      event' ≠ event ∧ is_text a' ∧ fresh_texts own [] c < MAX_FILES

theorem attach_all_length {s : Scan} (hs : s.chosen.length ≤ MAX_FILES) :
    (attach_all own occ s).chosen.length =
      min MAX_FILES (s.chosen.length + fresh_texts own s.files occ) := by
  induction occ generalizing s with
  | nil => simpa [attach_all, fresh_texts] using hs
  | cons p occ ih =>
    have hstep : (attach own p.1 s p.2).chosen.length =
        if refusal own s p.2 = none then s.chosen.length + 1 else s.chosen.length := by
      rw [attach_chosen]
      split
      · exact List.length_append
      · rfl
    have hbound : (attach own p.1 s p.2).chosen.length ≤ MAX_FILES := by
      rw [hstep]
      split
      next hr => exact (refusal_eq_none.mp hr).2.2.2
      next => exact hs
    rw [attach_all_cons, ih hbound, attach_files, hstep, fresh_texts]
    by_cases hfresh : p.2.id ∉ own ∧ p.2.id ∉ s.files ∧ is_text p.2
    · rw [if_pos hfresh]
      split
      next => omega
      next hr =>
        have hfull : ¬ s.chosen.length < MAX_FILES := fun hless =>
          hr (refusal_eq_none.mpr ⟨hfresh.1, hfresh.2.1, hfresh.2.2, hless⟩)
        omega
    · have hr : ¬ refusal own s p.2 = none := fun h =>
        hfresh ⟨(refusal_eq_none.mp h).1, (refusal_eq_none.mp h).2.1, (refusal_eq_none.mp h).2.2.1⟩
      rw [if_neg hfresh, if_neg hr, Nat.zero_add]

theorem after_chosen_length (own : List String) (occ : Occurrences) :
    (after own occ).chosen.length = min MAX_FILES (fresh_texts own [] occ) := by
  unfold after
  rw [attach_all_length (Nat.zero_le _), List.length_nil, Nat.zero_add]

/-! ## First and again -/

theorem Split.trans (h : Split occ b event a) (hc : Split b c event' a') :
    Split occ c event' a' := by
  obtain ⟨rest, rfl⟩ := h
  exact hc.append _

theorem Split.mem (h : Split occ b event a) : (event, a) ∈ occ :=
  h.take.subset (List.mem_append_right _ (List.mem_singleton.mpr rfl))

theorem Split.id_mem (h : Split occ b event a) : a.id ∈ occ.map (·.2.id) :=
  List.mem_map.mpr ⟨(event, a), h.mem, rfl⟩

theorem exists_first {id : String} (h : id ∈ occ.map (·.2.id)) :
    ∃ b event a, First occ b event a ∧ a.id = id := by
  induction occ with
  | nil => cases h
  | cons p occ ih =>
    by_cases hp : p.2.id = id
    · exact ⟨[], p.1, p.2, ⟨⟨occ, rfl⟩, List.not_mem_nil⟩, hp⟩
    · rw [List.map_cons, List.mem_cons] at h
      obtain ⟨b, event, a, ⟨⟨rest, hrest⟩, hnew⟩, ha⟩ := ih (h.resolve_left (Ne.symm hp))
      refine ⟨p :: b, event, a, ⟨⟨rest, by rw [hrest, List.cons_append]⟩, ?_⟩, ha⟩
      rw [List.map_cons, List.mem_cons, not_or, ha]
      exact ⟨Ne.symm hp, ha ▸ hnew⟩

theorem First.length_le (h : First occ b event a) (h' : First occ c event' a')
    (hid : a.id = a'.id) : c.length ≤ b.length := by
  by_contra hlt
  have hpre := h.before h'.toSplit (Nat.lt_of_not_le hlt)
  refine h'.new (List.mem_map.mpr ⟨(event, a), hpre.subset ?_, hid⟩)
  exact List.mem_append_right _ (List.mem_singleton.mpr rfl)

theorem First.unique (h : First occ b event a) (h' : First occ c event' a') (hid : a.id = a'.id) :
    b = c ∧ event = event' ∧ a = a' := by
  exact h.same h'.toSplit (Nat.le_antisymm (h'.length_le h hid.symm) (h.length_le h' hid))

theorem first_of_chosen {c : Chosen} (h : c ∈ (after own occ).chosen) :
    ∃ b, First occ b c.event c.a ∧ is_text c.a = true ∧ fresh_texts own [] b < MAX_FILES := by
  obtain ⟨b, hb, -, hr⟩ := exists_of_chosen h
  obtain ⟨-, hfiles, htext, hfew⟩ := refusal_eq_none.mp hr
  rw [after_files] at hfiles
  rw [after_chosen_length] at hfew
  exact ⟨b, ⟨hb, hfiles⟩, htext, by omega⟩

theorem First.chosen (h : First occ b event a) (hown : a.id ∉ own) (htext : is_text a = true)
    (hfew : fresh_texts own [] b < MAX_FILES) :
    ⟨event, (of_event b event).length, a⟩ ∈ (after own occ).chosen := by
  refine h.toSplit.chosen (refusal_eq_none.mpr ⟨hown, ?_, htext, ?_⟩)
  · rw [after_files]
    exact h.new
  · rw [after_chosen_length]
    omega

/-! ## What is said of them -/

theorem read_ne_again (s : String) : "not read: " ++ s ≠ AGAIN := by
  intro h
  have hchar := congrArg (fun t => t.toList[8]?) h
  simp [AGAIN] at hchar

theorem base_note (a : Attachment) : (base a).lookup "note" = none := Value.lookup_extend ..

theorem displays_note {used : Nat} {a : Attachment} {result : Except Failure Download}
    {view : View} (h : Displays out used a result view) :
    view.lookup "note" ≠ some (.string AGAIN) := by
  obtain ⟨fields, hshown, rfl⟩ := h
  intro hnote
  unfold filled at hnote
  split at hnote
  · rw [noted, Value.lookup_insert] at hnote
    exact absurd (Value.string.inj (Option.some.inj hnote)) (by decide)
  · rw [Value.lookup_extend] at hnote
    rcases shown_cases hshown with ⟨s, rfl⟩ | ⟨size, u, cut, rfl, -⟩
    · have hsame : Value.string ("not read: " ++ s) = .string AGAIN := Option.some.inj hnote
      exact read_ne_again s (Value.string.inj hsame)
    · rw [base_note] at hnote
      cases hnote

/-- A file of which it is said is read from an earlier message. -/
def Truly (out : Outside) (own : List String) (answers : Nat → Answer) (messages : List Value)
    (views : Views) : Prop :=
  ∀ (event : String) (i : Nat) (a : Attachment) (view : View),
    (attachments_of messages event)[i]? = some a → (views.of event)[i]? = some view →
    view.lookup "note" = some (.string AGAIN) →
    ∃ r ∈ (read out own answers messages).reads, r.1.a.id = a.id ∧
      Earlier messages r.1.event event

theorem Split.earlier (h : Split (occurrences [] messages) b event a)
    (hc : Split b c event' a') (hne : event' ≠ event) : Earlier messages event' event := by
  have hpairs := occurrences_earlier [] messages
  obtain ⟨rest, hrest⟩ := h.eq
  rw [hrest, List.pairwise_append] at hpairs
  exact hpairs.2.2 _ hc.mem _ List.mem_cons_self hne

theorem exists_filled (out : Outside) (own : List String) (messages : List Value) :
    ∃ t, fill_all out ⟨0, (after own (occurrences [] messages)).views⟩
      (results own (fun _ => ⟨none, none⟩) messages) = .ok t := by
  cases hfill : fill_all out ⟨0, (after own (occurrences [] messages)).views⟩
      (results own (fun _ => ⟨none, none⟩) messages) with
  | ok t => exact ⟨t, rfl⟩
  | error f =>
    obtain ⟨-, p, hp, hresult⟩ := fill_all_error hfill
    obtain ⟨c, -, rfl⟩ := List.mem_map.mp hp
    unfold fetch at hresult
    dsimp only at hresult
    split at hresult <;> cases hresult

theorem truly_of_repeats (h : Repeats own messages) {views : Views}
    (hviews : (read out own answers messages).result = .ok views) :
    Truly out own answers messages views := by
  intro event i a view ha hview hnote
  obtain ⟨t, hfill, rfl⟩ := result_ok hviews
  have hof : (of_event (occurrences [] messages) event)[i]? = some a := by
    rw [of_event_occurrences List.not_mem_nil, ha]
  rcases chosen_or_noted own hof with ⟨hin, -⟩ | ⟨hno, b, n, hb, hr, hplace⟩
  · obtain ⟨r, hr, hrc⟩ := mem_reads.mpr hin
    obtain ⟨j, hj⟩ := List.getElem?_of_mem hr
    obtain ⟨view', hview', -, hdisplays⟩ := (viewed hfill).read j r hj
    rw [hrc] at hview'
    rw [hview] at hview'
    obtain rfl := Option.some.inj hview'
    exact absurd hnote (displays_note hdisplays)
  · rw [fill_all_other hfill (results_other hno), hplace] at hview
    rw [← Option.some.inj hview, noted, Value.lookup_insert] at hnote
    have hn : n = AGAIN := Value.string.inj (Option.some.inj hnote)
    rw [hn] at hr
    obtain ⟨hown, hfiles⟩ := refusal_eq_again.mp hr
    rw [after_files] at hfiles
    obtain ⟨c, event', a', hc, hid⟩ := exists_first hfiles
    obtain ⟨hne, htext, hfew⟩ := h b event a hb hown c event' a' hc hid
    have hfirst : First (occurrences [] messages) c event' a' := ⟨hb.trans hc.toSplit, hc.new⟩
    obtain ⟨r, hr, hrc⟩ := mem_reads.mpr (hfirst.chosen (hid ▸ hown) htext hfew)
    refine ⟨r, hr, ?_, ?_⟩
    · rw [hrc, hid]
    · rw [hrc]
      exact hb.earlier hc.toSplit hne

theorem repeats_of_truly
    (h : ∀ answers views, (read out own answers messages).result = .ok views →
      Truly out own answers messages views) : Repeats own messages := by
  intro b event a hb hown c event' a' hc hid
  obtain ⟨t, hfill⟩ := exists_filled out own messages
  have hfirst : First (occurrences [] messages) c event' a' := ⟨hb.trans hc.toSplit, hc.new⟩
  have hr : refusal own (after own b) a = some AGAIN := by
    rw [refusal_eq_again, after_files]
    exact ⟨hown, hid ▸ hc.toSplit.id_mem⟩
  have hview := hb.view own
  rw [first_view, hr, Option.elim_some] at hview
  have hplace := hb.place
  have hof : (attachments_of messages event)[(of_event b event).length]? = some a := by
    rw [← of_event_occurrences List.not_mem_nil, hplace]
  have hno : ∀ c ∈ (after own (occurrences [] messages)).chosen,
      ¬ (c.event = event ∧ c.index = (of_event b event).length) := by
    rcases chosen_or_noted own hplace with ⟨-, hbase⟩ | ⟨hno, -⟩
    · rw [hview] at hbase
      have hnote := congrArg (List.lookup "note") (Option.some.inj hbase)
      rw [noted, Value.lookup_insert, base_note] at hnote
      cases hnote
    · exact hno
  rw [← fill_all_other hfill (results_other hno)] at hview
  have hresult : (read out own (fun _ => ⟨none, none⟩) messages).result = .ok t.views := by
    rw [result_eq, hfill]
    rfl
  obtain ⟨r, hr, hrid, hearlier⟩ := h _ _ hresult event _ a _ hof hview (Value.lookup_insert ..)
  obtain ⟨c', hc', htext, hfew⟩ := first_of_chosen (mem_reads.mp ⟨r, hr, rfl⟩)
  obtain ⟨rfl, rfl, rfl⟩ := hfirst.unique hc' (hid.trans hrid.symm)
  exact ⟨hearlier.ne, htext, hfew⟩

/-- It is true of every file of which it is said exactly when every file that comes up again came
up in another message, as a text, and among the first three. -/
theorem again_iff (out : Outside) (own : List String) (messages : List Value) :
    (∀ answers views, (read out own answers messages).result = .ok views →
      Truly out own answers messages views) ↔ Repeats own messages :=
  ⟨repeats_of_truly, fun h _ _ hviews => truly_of_repeats h hviews⟩

def image : Value :=
  .object [("id", .string "F1"), ("mimetype", .string "image/png"), ("name", .string "a.png")]

/-- An image in two messages. -/
def image_twice : List Value := [
  .object [("attachments", .array [image]), ("event_id", .string "E2")],
  .object [("attachments", .array [image]), ("event_id", .string "E1")]]

theorem image_said_to_be_read :
    ¬ ∀ answers views, (read ⟨65536, fun _ => ""⟩ [] answers image_twice).result = .ok views →
      Truly ⟨65536, fun _ => ""⟩ [] answers image_twice views := by
  intro h
  obtain ⟨r, hr, -⟩ := h (fun _ => ⟨none, none⟩) _ rfl "E1" 0 ⟨"F1", "a.png", "image/png", 0, ""⟩ _
    rfl rfl rfl
  have hnone : (read ⟨65536, fun _ => ""⟩ [] (fun _ => ⟨none, none⟩) image_twice).reads = [] := rfl
  rw [hnone] at hr
  cases hr

end Fridica.Slack.Files
