import Fridica.Slack.Files.Spec

/-!
# What is shown of attached files

A text that is cut is cut between two characters. The files that are read are the first three texts,
each once, and what is read of a file is shown under its name.
-/

namespace Fridica.Slack.Files

open Fridica.Json Fridica.Utf8

/-! ## The text of a file -/

section Text

variable {out : Outside} {a : Attachment} {download : Download} {content : Bytes} {t u : List Char}

theorem readable_of_exists {drops d : Nat} {data : Bytes} (hd : d < drops) (hle : d ≤ data.length)
    (h : from_utf8 (data.take (data.length - d)) = some u) :
    ∃ d' < drops, d' ≤ data.length ∧ ∃ v, from_utf8 (data.take (data.length - d')) = some v ∧
      readable drops data = some v := by
  unfold readable
  cases hfind : (List.range drops).findSome? fun drop =>
      if drop ≤ data.length then from_utf8 (data.take (data.length - drop)) else none with
  | none =>
    have hnone := List.findSome?_eq_none_iff.mp hfind d (List.mem_range.mpr hd)
    rw [if_pos hle, h] at hnone
    cases hnone
  | some v =>
    obtain ⟨d', hmem, hsome⟩ := List.exists_of_findSome?_eq_some hfind
    split at hsome
    next hle' => exact ⟨d', List.mem_range.mp hmem, hle', v, hsome, rfl⟩
    next => cases hsome

/-- A file with this content, as the downloader hands it over. -/
structure Handed (out : Outside) (a : Attachment) (download : Download) (content : Bytes) :
    Prop where
  data : download.data = content.take (out.FILE_LIMIT + 1)
  size : download.size = 0 ∨ download.size = content.length
  listed : a.size = 0 ∨ a.size = content.length

namespace Handed

theorem length (h : Handed out a download content) :
    download.data.length = min (out.FILE_LIMIT + 1) content.length := by
  rw [h.data, List.length_take]

theorem quoted (h : Handed out a download content)
    (hknown : download.size ≠ 0 ∨ a.size ≠ 0 ∨ content.length ≤ out.FILE_LIMIT) :
    quoted_size out a download = content.length := by
  have hlen := h.length
  have hsize := h.size
  have hlisted := h.listed
  unfold quoted_size
  split_ifs <;> omega

theorem cut_iff (h : Handed out a download content) :
    (download.data.length > out.FILE_LIMIT ∨ quoted_size out a download > out.FILE_LIMIT) ↔
      out.FILE_LIMIT < content.length := by
  have hlen := h.length
  have hsize := h.size
  have hlisted := h.listed
  unfold quoted_size
  split_ifs <;> omega

end Handed

/-- What the parent is shown of text of so many bytes. -/
def quote (a : Attachment) (size : Nat) (text : List Char) (cut : Bool) : View :=
  [("header", .string (header a size)),
    ("text", .string (String.ofList text ++ if cut then truncation size else "")),
    ("truncated", .bool cut)]

theorem text_eq (h : Handed out a download content)
    (hread : readable (if out.FILE_LIMIT < content.length then 4 else 1)
      (content.take out.FILE_LIMIT) = some u) (hnul : '\x00' ∉ u) :
    text out a download =
      quote a (quoted_size out a download) u (out.FILE_LIMIT < content.length) := by
  have hlen := h.length
  have htake : download.data.take out.FILE_LIMIT = content.take out.FILE_LIMIT := by
    rw [h.data, List.take_take, Nat.min_eq_left (Nat.le_succ _)]
  unfold text quote
  rw [if_neg (by omega)]
  simp only [h.cut_iff, htake, hread, if_neg hnul, decide_eq_true_eq]

theorem filter_commas (k i : Nat) {l : List Char} (hl : ∀ c ∈ l, c ≠ ',') :
    ((l.zipIdx i).flatMap fun c =>
      if 0 < c.2 ∧ (k - c.2) % 3 = 0 then [',', c.1] else [c.1]).filter (· ≠ ',') = l := by
  induction l generalizing i with
  | nil => rfl
  | cons c l ih =>
    have hc : c ≠ ',' := hl c List.mem_cons_self
    rw [List.zipIdx_cons, List.flatMap_cons, List.filter_append,
      ih _ fun d hd => hl d (List.mem_cons_of_mem c hd)]
    split <;> simp [hc]

theorem comma_digits (n : Nat) : (comma n).toList.filter (· ≠ ',') = digits n := by
  have hdigit : ∀ c ∈ digits n, c ≠ ',' := by
    rintro c hc rfl
    exact Text.not_mem_toDigits rfl hc
  unfold comma
  rw [String.toList_ofList]
  exact filter_commas _ 0 hdigit

/-- Text is shown but for fewer than four of the bytes that fit, and is said to be cut when it
is. -/
theorem text_of_content (out : Outside) (content : Bytes) (ht : from_utf8 content = some t)
    (hnul : '\x00' ∉ t) (h : Handed out a download content) :
    ∃ u k size, from_utf8 (content.take k) = some u ∧ u <+: t ∧
      k ≤ out.FILE_LIMIT ∧ k ≤ content.length ∧ min content.length out.FILE_LIMIT < k + 4 ∧
      text out a download = quote a size u (out.FILE_LIMIT < content.length) ∧
      (content.length ≤ out.FILE_LIMIT → u = t) ∧
      (download.size ≠ 0 ∨ a.size ≠ 0 ∨ content.length ≤ out.FILE_LIMIT →
        size = content.length) := by
  by_cases hcut : out.FILE_LIMIT < content.length
  · obtain ⟨d, hd, hle, v, hv⟩ := from_utf8_take ht (Nat.le_of_lt hcut)
    have hlen : (content.take out.FILE_LIMIT).length = out.FILE_LIMIT := by
      rw [List.length_take]
      omega
    have hwhole : from_utf8 ((content.take out.FILE_LIMIT).take
        ((content.take out.FILE_LIMIT).length - d)) = some v := by
      rw [hlen, List.take_take, Nat.min_eq_left (Nat.sub_le _ _), hv]
    obtain ⟨d', hd', hle', u, hu, hread⟩ := readable_of_exists hd (by omega) hwhole
    rw [hlen] at hle'
    rw [hlen, List.take_take, Nat.min_eq_left (Nat.sub_le _ _)] at hu
    have hpre := from_utf8_prefix ht hu
    refine ⟨u, out.FILE_LIMIT - d', quoted_size out a download, hu, hpre, by omega, by omega,
      by omega, ?_, fun h => by omega, h.quoted⟩
    exact text_eq h (by rwa [if_pos hcut]) fun hmem => hnul (hpre.subset hmem)
  · have hall : content.take out.FILE_LIMIT = content := List.take_of_length_le (by omega)
    refine ⟨t, content.length, quoted_size out a download, ?_, List.prefix_refl t, by omega,
      Nat.le_refl _, by omega, text_eq h ?_ hnul, fun _ => rfl, h.quoted⟩
    · rwa [List.take_length]
    · rw [if_neg hcut, hall]
      unfold readable
      simp [ht]

/-- The limit falls inside a character, which is left out. -/
theorem text_of_accent :
    ∃ u k size, from_utf8 ([0x68, 0xC3, 0xA9].take k) = some u ∧ u <+: ['h', 'é'] ∧
      k ≤ 2 ∧ k ≤ 3 ∧ min 3 2 < k + 4 ∧
      text ⟨2, fun _ => ""⟩ ⟨"F1", "a.txt", "text/plain", 3, ""⟩ ⟨[0x68, 0xC3, 0xA9], 0⟩ =
        quote ⟨"F1", "a.txt", "text/plain", 3, ""⟩ size u (2 < 3) ∧
      (3 ≤ 2 → u = ['h', 'é']) ∧ (0 ≠ 0 ∨ 3 ≠ 0 ∨ 3 ≤ 2 → size = 3) :=
  text_of_content ⟨2, fun _ => ""⟩ [0x68, 0xC3, 0xA9] (by decide) (by decide)
    ⟨rfl, .inl rfl, .inr rfl⟩

example : text ⟨2, fun _ => ""⟩ ⟨"F1", "a.txt", "text/plain", 3, ""⟩ ⟨[0x68, 0xC3, 0xA9], 0⟩ =
    quote ⟨"F1", "a.txt", "text/plain", 3, ""⟩ 3 ['h'] true := rfl

end Text

/-! ## The messages -/

section Messages

def event_id (message : Value) : Option String := (message.field "event_id").as_str

/-- The messages with an event that is new, each with it. -/
def distinct (seen : List String) : List Value → List (String × Value)
  | [] => []
  | m :: ms =>
    match event_id m with
    | none => distinct seen ms
    | some event =>
      if event ∈ seen then distinct seen ms else (event, m) :: distinct (event :: seen) ms

abbrev Occurrences := List (String × Attachment)

/-- The attachments as they come up, with their events. -/
def occurrences (seen : List String) (messages : List Value) : Occurrences :=
  (distinct seen messages).flatMap fun m => (attachments m.2).map (m.1, ·)

/-- The attachments of the message with an event. -/
def attachments_of (messages : List Value) (event : String) : List Attachment :=
  (messages.find? fun m => event_id m = some event).elim [] attachments

def of_event (occ : Occurrences) (event : String) : List Attachment :=
  (occ.filter (·.1 = event)).map (·.2)

/-- A message with the one event comes before all with the other. -/
def Earlier (messages : List Value) (event' event : String) : Prop :=
  ∃ b m c, messages = b ++ m :: c ∧ event_id m = some event' ∧
    ∀ m' ∈ b ++ [m], event_id m' ≠ some event

variable {messages ms : List Value} {m : Value} {seen : List String} {event event' : String}
  {occ : Occurrences} {a : Attachment}

theorem distinct_skip (h : ∀ event, event_id m = some event → event ∈ seen) :
    distinct seen (m :: ms) = distinct seen ms := by
  rw [distinct]
  split
  · rfl
  next event heq => rw [if_pos (h event heq)]

theorem distinct_new (h : event_id m = some event) (hnew : event ∉ seen) :
    distinct seen (m :: ms) = (event, m) :: distinct (event :: seen) ms := by
  rw [distinct, h]
  exact if_neg hnew

theorem skip_or_new (seen : List String) (m : Value) :
    (∀ event, event_id m = some event → event ∈ seen) ∨
      ∃ event, event_id m = some event ∧ event ∉ seen := by
  cases h : event_id m with
  | none => exact .inl fun event heq => by cases heq
  | some event =>
    by_cases hin : event ∈ seen
    · exact .inl fun e heq => Option.some.inj heq ▸ hin
    · exact .inr ⟨event, rfl, hin⟩

theorem occurrences_skip (h : ∀ event, event_id m = some event → event ∈ seen) :
    occurrences seen (m :: ms) = occurrences seen ms := by
  unfold occurrences
  rw [distinct_skip h]

theorem occurrences_new (h : event_id m = some event) (hnew : event ∉ seen) :
    occurrences seen (m :: ms) =
      (attachments m).map (event, ·) ++ occurrences (event :: seen) ms := by
  unfold occurrences
  rw [distinct_new h hnew, List.flatMap_cons]

theorem of_event_append (x y : Occurrences) (event : String) :
    of_event (x ++ y) event = of_event x event ++ of_event y event := by
  unfold of_event
  rw [List.filter_append, List.map_append]

theorem of_event_self (as : List Attachment) (event : String) :
    of_event (as.map (event, ·)) event = as := by
  unfold of_event
  rw [List.filter_eq_self.mpr (by simp), List.map_map]
  exact List.map_id as

theorem of_event_other (as : List Attachment) (h : event' ≠ event) :
    of_event (as.map (event', ·)) event = [] := by
  unfold of_event
  rw [List.filter_eq_nil_iff.mpr (by simp [h]), List.map_nil]

theorem of_event_seen (h : event ∈ seen) : of_event (occurrences seen ms) event = [] := by
  induction ms generalizing seen with
  | nil => rfl
  | cons m ms ih =>
    rcases skip_or_new seen m with hskip | ⟨e, he, hnew⟩
    · rw [occurrences_skip hskip, ih h]
    · have hne : e ≠ event := fun heq => hnew (heq ▸ h)
      rw [occurrences_new he hnew, of_event_append, of_event_other _ hne,
        ih (List.mem_cons_of_mem e h), List.append_nil]

theorem of_event_occurrences (h : event ∉ seen) :
    of_event (occurrences seen messages) event = attachments_of messages event := by
  unfold attachments_of
  induction messages generalizing seen with
  | nil => rfl
  | cons m ms ih =>
    rcases skip_or_new seen m with hskip | ⟨e, he, hnew⟩
    · have hm : ¬ event_id m = some event := fun heq => h (hskip event heq)
      rw [occurrences_skip hskip, ih h, List.find?_cons_of_neg (by simpa using hm)]
    · rw [occurrences_new he hnew, of_event_append]
      by_cases heq : e = event
      · subst heq
        rw [of_event_self, of_event_seen List.mem_cons_self, List.append_nil,
          List.find?_cons_of_pos (by simpa using he)]
        rfl
      · have hm : ¬ event_id m = some event := by
          rw [he]
          exact fun h => heq (Option.some.inj h)
        rw [of_event_other _ heq, List.nil_append, List.find?_cons_of_neg (by simpa using hm)]
        refine ih ?_
        rw [List.mem_cons, not_or]
        exact ⟨Ne.symm heq, h⟩

theorem Earlier.ne (h : Earlier messages event' event) : event' ≠ event := by
  obtain ⟨b, m, c, -, hm, hno⟩ := h
  rintro rfl
  exact hno m (List.mem_append_right _ (List.mem_singleton.mpr rfl)) hm

theorem Earlier.cons (h : Earlier ms event' event) (hm : event_id m ≠ some event) :
    Earlier (m :: ms) event' event := by
  obtain ⟨b, m', c, rfl, hm', hno⟩ := h
  refine ⟨m :: b, m', c, rfl, hm', ?_⟩
  rw [List.cons_append, List.forall_mem_cons]
  exact ⟨hm, hno⟩

theorem event_not_seen {p : String × Attachment} (hp : p ∈ occurrences seen ms) : p.1 ∉ seen := by
  intro h
  have hnil : of_event (occurrences seen ms) p.1 = [] := of_event_seen h
  unfold of_event at hnil
  rw [List.map_eq_nil_iff, List.filter_eq_nil_iff] at hnil
  exact hnil p hp (by simp)

theorem occurrences_earlier (seen : List String) (messages : List Value) :
    (occurrences seen messages).Pairwise fun p q => p.1 ≠ q.1 → Earlier messages p.1 q.1 := by
  induction messages generalizing seen with
  | nil => exact .nil
  | cons m ms ih =>
    rcases skip_or_new seen m with hskip | ⟨e, he, hnew⟩
    · rw [occurrences_skip hskip]
      refine (ih seen).imp_of_mem fun hp hq h hne => (h hne).cons fun heq => ?_
      exact event_not_seen hq (hskip _ heq)
    · rw [occurrences_new he hnew, List.pairwise_append]
      refine ⟨?_, ?_, ?_⟩
      · rw [List.pairwise_map]
        exact List.pairwise_of_forall fun a b h => absurd rfl h
      · refine (ih _).imp_of_mem fun hp hq h hne => (h hne).cons fun heq => ?_
        rw [he] at heq
        exact event_not_seen hq (List.mem_cons.mpr (.inl (Option.some.inj heq).symm))
      · intro p hp q hq hne
        obtain ⟨a, -, rfl⟩ := List.mem_map.mp hp
        refine ⟨[], m, ms, rfl, he, fun m' hm' heq => ?_⟩
        rw [List.nil_append, List.mem_singleton] at hm'
        rw [hm', he] at heq
        exact hne (Option.some.inj heq)

end Messages

/-! ## Which files are read -/

section Chosen

variable {own : List String} {s : Scan} {event : String} {a : Attachment} {occ : Occurrences}

def attach_all (own : List String) (occ : Occurrences) (s : Scan) : Scan :=
  occ.foldl (fun s p => attach own p.1 s p.2) s

theorem attach_all_append (x y : Occurrences) :
    attach_all own (x ++ y) s = attach_all own y (attach_all own x s) := List.foldl_append

theorem attach_all_cons (p : String × Attachment) (occ : Occurrences) :
    attach_all own (p :: occ) s = attach_all own occ (attach own p.1 s p.2) := rfl

theorem attach_seen (seen : List String) :
    attach own event { s with seen := seen } a = { attach own event s a with seen := seen } := by
  have hrefusal : refusal own { s with seen := seen } a = refusal own s a := rfl
  unfold attach
  rw [hrefusal]
  cases refusal own s a <;> rfl

theorem attach_all_seen (seen : List String) :
    attach_all own occ { s with seen := seen } = { attach_all own occ s with seen := seen } := by
  induction occ generalizing s with
  | nil => rfl
  | cons p occ ih => rw [attach_all_cons, attach_all_cons, attach_seen, ih]

theorem scan_messages (messages : List Value) :
    ∃ seen, messages.foldl (scan_message own) s =
      { attach_all own (occurrences s.seen messages) s with seen := seen } := by
  induction messages generalizing s with
  | nil => exact ⟨s.seen, rfl⟩
  | cons m ms ih =>
    rw [List.foldl_cons]
    rcases skip_or_new s.seen m with hskip | ⟨e, he, hnew⟩
    · have hsame : scan_message own s m = s := by
        unfold scan_message
        split
        · rfl
        next event heq => rw [if_pos (hskip event heq)]
      rw [hsame, occurrences_skip hskip]
      exact ih
    · have hstep : scan_message own s m =
          attach_all own ((attachments m).map (e, ·)) { s with seen := e :: s.seen } := by
        unfold scan_message attach_all
        unfold event_id at he
        rw [he, List.foldl_map]
        exact if_neg hnew
      rw [hstep, attach_all_seen, occurrences_new he hnew, attach_all_append]
      obtain ⟨seen, hseen⟩ := @ih { attach_all own ((attachments m).map (e, ·)) s with
        seen := e :: s.seen }
      refine ⟨seen, hseen.trans ?_⟩
      rw [attach_all_seen]

theorem scan_eq (own : List String) (messages : List Value) :
    ∃ seen, scan own messages =
      { attach_all own (occurrences [] messages) ⟨[], [], [], []⟩ with seen := seen } :=
  scan_messages messages

theorem push_of (event e : String) (view : View) (views : Views) :
    (push event view views).of e =
      if e = event then views.of e ++ [view] else views.of e := by
  unfold Views.of
  induction views with
  | nil =>
    by_cases h : e = event
    · simp [push, h]
    · rw [push, Value.lookup_ne h, if_neg h]
  | cons p views ih =>
    obtain ⟨k, vs⟩ := p
    unfold push
    by_cases hk : k = event
    · rw [if_pos hk]
      by_cases he : e = k
      · simp [he, hk]
      · rw [Value.lookup_ne he, Value.lookup_ne he, if_neg (hk ▸ he)]
    · rw [if_neg hk]
      by_cases he : e = k
      · rw [he, List.lookup_cons_self, List.lookup_cons_self, if_neg hk]
      · rw [Value.lookup_ne he, Value.lookup_ne he, ih]

/-- The view of an attachment when it comes up. -/
def first_view (own : List String) (s : Scan) (a : Attachment) : View :=
  (refusal own s a).elim (base a) fun note => noted note (base a)

theorem attach_views (e : String) :
    (attach own event s a).views.of e =
      if e = event then s.views.of e ++ [first_view own s a] else s.views.of e := by
  unfold attach first_view
  cases refusal own s a <;> exact push_of ..

theorem attach_files : (attach own event s a).files = a.id :: s.files := by
  unfold attach
  cases refusal own s a <;> rfl

theorem attach_chosen :
    (attach own event s a).chosen =
      if refusal own s a = none then s.chosen ++ [⟨event, (s.views.of event).length, a⟩]
      else s.chosen := by
  unfold attach
  cases refusal own s a <;> rfl

theorem attach_all_files (id : String) :
    id ∈ (attach_all own occ s).files ↔ id ∈ occ.map (·.2.id) ∨ id ∈ s.files := by
  induction occ generalizing s with
  | nil => simp [attach_all]
  | cons p occ ih =>
    rw [attach_all_cons, ih, attach_files, List.mem_cons, List.map_cons, List.mem_cons]
    tauto

theorem attach_all_views (own : List String) (occ : Occurrences) (s : Scan) (e : String) :
    s.views.of e <+: (attach_all own occ s).views.of e ∧
      ((attach_all own occ s).views.of e).length =
        (s.views.of e).length + (of_event occ e).length := by
  induction occ generalizing s with
  | nil => exact ⟨List.prefix_refl _, rfl⟩
  | cons p occ ih =>
    obtain ⟨hpre, hlen⟩ := ih (attach own p.1 s p.2)
    have hcons := of_event_append [p] occ e
    rw [attach_views] at hpre hlen
    rw [attach_all_cons, hlen]
    rw [List.singleton_append] at hcons
    rw [hcons, List.length_append]
    unfold of_event
    by_cases he : e = p.1
    · rw [if_pos he] at hpre ⊢
      refine ⟨(List.prefix_append _ _).trans hpre, ?_⟩
      simp [he]
      omega
    · rw [if_neg he] at hpre ⊢
      exact ⟨hpre, by simp [Ne.symm he]⟩

theorem attach_all_chosen (own : List String) (occ : Occurrences) (s : Scan) :
    s.chosen <+: (attach_all own occ s).chosen := by
  induction occ generalizing s with
  | nil => exact List.prefix_refl _
  | cons p occ ih =>
    refine List.IsPrefix.trans ?_ (ih (attach own p.1 s p.2))
    rw [attach_chosen]
    split
    · exact List.prefix_append _ _
    · exact List.prefix_refl _

/-- The scan after some attachments. -/
def after (own : List String) (occ : Occurrences) : Scan := attach_all own occ ⟨[], [], [], []⟩

theorem after_append (x y : Occurrences) :
    after own (x ++ y) = attach_all own y (after own x) := attach_all_append x y

theorem after_length (own : List String) (occ : Occurrences) (e : String) :
    ((after own occ).views.of e).length = (of_event occ e).length := by
  rw [after, (attach_all_views own occ _ e).2]
  exact Nat.zero_add _

theorem after_files (id : String) : id ∈ (after own occ).files ↔ id ∈ occ.map (·.2.id) := by
  rw [after, attach_all_files]
  simp

/-- An attachment with what comes up before it. -/
structure Split (occ b : Occurrences) (event : String) (a : Attachment) : Prop where
  eq : ∃ rest, occ = b ++ (event, a) :: rest

variable {b b' : Occurrences} {event' : String} {a' : Attachment}

theorem Split.view (own : List String) (h : Split occ b event a) :
    ((after own occ).views.of event)[(of_event b event).length]? =
      some (first_view own (after own b) a) := by
  obtain ⟨rest, rfl⟩ := h
  have hpre := (attach_all_views own rest (attach own event (after own b) a) event).1
  rw [attach_views, if_pos rfl] at hpre
  obtain ⟨later, hlater⟩ := hpre
  rw [after_append, attach_all_cons, ← hlater, List.append_assoc, ← after_length own,
    List.getElem?_append_right (Nat.le_refl _), Nat.sub_self]
  rfl

theorem Split.chosen (h : Split occ b event a) (hr : refusal own (after own b) a = none) :
    ⟨event, (of_event b event).length, a⟩ ∈ (after own occ).chosen := by
  obtain ⟨rest, rfl⟩ := h
  have hpre := attach_all_chosen own rest (attach own event (after own b) a)
  rw [after_append, attach_all_cons]
  refine hpre.subset ?_
  rw [attach_chosen, if_pos hr, after_length]
  exact List.mem_append_right _ (List.mem_singleton.mpr rfl)

theorem Split.append (h : Split occ b event a) (x : Occurrences) : Split (occ ++ x) b event a := by
  obtain ⟨rest, rfl⟩ := h
  exact ⟨rest ++ x, by simp⟩

theorem split_last : Split (occ ++ [(event, a)]) occ event a := ⟨[], rfl⟩

theorem exists_split {i : Nat} (h : (of_event occ event)[i]? = some a) :
    ∃ b, Split occ b event a ∧ (of_event b event).length = i := by
  induction occ using List.reverseRecOn with
  | nil => cases h
  | append_singleton occ p ih =>
    by_cases hi : i < (of_event occ event).length
    · rw [of_event_append, List.getElem?_append_left hi] at h
      obtain ⟨b, hb, hlen⟩ := ih h
      exact ⟨b, hb.append _, hlen⟩
    · have hi' := Nat.le_of_not_lt hi
      rw [of_event_append, List.getElem?_append_right hi'] at h
      unfold of_event at h
      by_cases he : p.1 = event
      · rw [List.filter_cons_of_pos (by simpa using he), List.filter_nil, List.map_singleton,
          List.getElem?_singleton] at h
        split at h
        next hzero =>
          refine ⟨occ, ?_, by unfold of_event at *; omega⟩
          rw [← he, ← Option.some.inj h]
          exact split_last
        next => cases h
      · rw [List.filter_cons_of_neg (by simpa using he)] at h
        cases h

theorem Split.take (h : Split occ b event a) : b ++ [(event, a)] <+: occ := by
  obtain ⟨rest, rfl⟩ := h
  exact ⟨rest, by simp⟩

theorem Split.place (h : Split occ b event a) :
    (of_event occ event)[(of_event b event).length]? = some a := by
  obtain ⟨more, rfl⟩ := h.take
  have hself : of_event [(event, a)] event = [a] := of_event_self [a] event
  rw [of_event_append, of_event_append, hself, List.append_assoc,
    List.getElem?_append_right (Nat.le_refl _), Nat.sub_self]
  rfl

theorem Split.before (h : Split occ b event a) (h' : Split occ b' event' a')
    (hlen : b.length < b'.length) : b ++ [(event, a)] <+: b' := by
  refine List.prefix_of_prefix_length_le h.take ((List.prefix_append _ _).trans h'.take) ?_
  rw [List.length_append, List.length_singleton]
  exact hlen

theorem Split.same (h : Split occ b event a) (h' : Split occ b' event' a')
    (hlen : b.length = b'.length) : b = b' ∧ event = event' ∧ a = a' := by
  obtain ⟨rest, rfl⟩ := h
  obtain ⟨rest', heq⟩ := h'
  obtain ⟨hb, hrest⟩ := List.append_inj heq hlen
  obtain ⟨hevent, ha⟩ := Prod.mk.inj (List.cons.inj hrest).1
  exact ⟨hb, hevent, ha⟩

theorem Split.lt (h : Split occ b event a) (h' : Split occ b' event' a')
    (hlen : b.length < b'.length) : (of_event b event).length < (of_event b' event).length := by
  obtain ⟨more, rfl⟩ := h.before h' hlen
  have hself : of_event [(event, a)] event = [a] := of_event_self [a] event
  rw [of_event_append, of_event_append, hself]
  simp only [List.length_append, List.length_singleton]
  omega

/-- Where an attachment is shown says what comes up before it. -/
theorem Split.unique (h : Split occ b event a) (h' : Split occ b' event a')
    (hlen : (of_event b event).length = (of_event b' event).length) : b = b' ∧ a = a' := by
  have hsame : b.length = b'.length := by
    rcases Nat.lt_trichotomy b.length b'.length with hlt | heq | hlt
    · exact absurd hlen (Nat.ne_of_lt (h.lt h' hlt))
    · exact heq
    · exact absurd hlen.symm (Nat.ne_of_lt (h'.lt h hlt))
  obtain ⟨hb, -, ha⟩ := h.same h' hsame
  exact ⟨hb, ha⟩

theorem exists_of_chosen {c : Chosen} (h : c ∈ (after own occ).chosen) :
    ∃ b, Split occ b c.event c.a ∧ (of_event b c.event).length = c.index ∧
      refusal own (after own b) c.a = none := by
  induction occ using List.reverseRecOn with
  | nil => cases h
  | append_singleton occ p ih =>
    have hold : c ∈ (after own occ).chosen → ∃ b, Split (occ ++ [p]) b c.event c.a ∧
        (of_event b c.event).length = c.index ∧ refusal own (after own b) c.a = none := by
      intro hc
      obtain ⟨b, hb, hrest⟩ := ih hc
      exact ⟨b, hb.append _, hrest⟩
    rw [after_append] at h
    change c ∈ (attach own p.1 (after own occ) p.2).chosen at h
    rw [attach_chosen] at h
    split at h
    next hr =>
      rw [List.mem_append, List.mem_singleton] at h
      rcases h with h | rfl
      · exact hold h
      · exact ⟨occ, split_last, (after_length own occ p.1).symm, hr⟩
    next => exact hold h

theorem refusal_eq_none :
    refusal own s a = none ↔
      a.id ∉ own ∧ a.id ∉ s.files ∧ is_text a = true ∧ s.chosen.length < MAX_FILES := by
  unfold refusal
  split_ifs with hown hfiles htext hmany
  · simp [hown]
  · simp [hfiles]
  · simp at htext
    simp [htext]
  · simp [Nat.not_lt.mpr hmany]
  · simp at htext
    simp [hown, hfiles, htext, Nat.lt_of_not_le hmany]

theorem refusal_eq_again :
    refusal own s a = some AGAIN ↔ a.id ∉ own ∧ a.id ∈ s.files := by
  unfold refusal AGAIN
  split_ifs with hown hfiles <;> simp [*]

theorem chosen_spec {c : Chosen} (h : c ∈ (after own occ).chosen) :
    c.a.id ∉ own ∧ is_text c.a = true ∧ (of_event occ c.event)[c.index]? = some c.a := by
  obtain ⟨b, hb, hindex, hr⟩ := exists_of_chosen h
  obtain ⟨hown, -, htext, -⟩ := refusal_eq_none.mp hr
  refine ⟨hown, htext, ?_⟩
  rw [← hindex]
  exact hb.place

theorem chosen_few (own : List String) (occ : Occurrences) :
    (after own occ).chosen.length ≤ MAX_FILES := by
  induction occ using List.reverseRecOn with
  | nil => exact Nat.zero_le _
  | append_singleton occ p ih =>
    rw [after_append]
    change (attach own p.1 (after own occ) p.2).chosen.length ≤ MAX_FILES
    rw [attach_chosen]
    split
    next hr =>
      obtain ⟨-, -, -, hfew⟩ := refusal_eq_none.mp hr
      rw [List.length_append]
      exact hfew
    next => exact ih

theorem chosen_nodup (own : List String) (occ : Occurrences) :
    ((after own occ).chosen.map (·.a.id)).Nodup := by
  induction occ using List.reverseRecOn with
  | nil => exact List.nodup_nil
  | append_singleton occ p ih =>
    rw [after_append]
    change ((attach own p.1 (after own occ) p.2).chosen.map (·.a.id)).Nodup
    rw [attach_chosen]
    split
    next hr =>
      obtain ⟨-, hfiles, -, -⟩ := refusal_eq_none.mp hr
      rw [after_files] at hfiles
      rw [List.map_append, List.nodup_append]
      refine ⟨ih, List.pairwise_singleton _ _, fun id hid id' hid' heq => hfiles ?_⟩
      obtain ⟨c, hc, rfl⟩ := List.mem_map.mp hid
      obtain ⟨b, hb, -⟩ := exists_of_chosen hc
      have hnew : id' = p.2.id := List.mem_singleton.mp hid'
      rw [← hnew, ← heq]
      exact List.mem_map_of_mem (f := fun p => p.2.id)
        (hb.take.subset (List.mem_append_right _ (List.mem_singleton.mpr rfl)))
    next => exact ih

/-- A file is chosen under its place, or its view says why not. -/
theorem chosen_or_noted (own : List String) {i : Nat} (h : (of_event occ event)[i]? = some a) :
    (⟨event, i, a⟩ ∈ (after own occ).chosen ∧
      ((after own occ).views.of event)[i]? = some (base a)) ∨
    ((∀ c ∈ (after own occ).chosen, ¬ (c.event = event ∧ c.index = i)) ∧
      ∃ b note, Split occ b event a ∧ refusal own (after own b) a = some note ∧
        ((after own occ).views.of event)[i]? = some (noted note (base a))) := by
  obtain ⟨b, hb, rfl⟩ := exists_split h
  have hview := hb.view own
  unfold first_view at hview
  cases hr : refusal own (after own b) a with
  | none =>
    rw [hr] at hview
    exact .inl ⟨hb.chosen hr, hview⟩
  | some note =>
    rw [hr] at hview
    refine .inr ⟨?_, b, note, hb, hr, hview⟩
    rintro c hc ⟨rfl, hindex⟩
    obtain ⟨b', hb', hlen, hr'⟩ := exists_of_chosen hc
    obtain ⟨rfl, rfl⟩ := hb.unique hb' (hindex.symm.trans hlen.symm)
    rw [hr] at hr'
    cases hr'

end Chosen

end Fridica.Slack.Files
