import Fridica.Threads.Direct.Spec
import Fridica.Threads.Validate.Proofs

/-! # The fast path stays inside what is checked -/

open Fridica.Checked Fridica.Text

namespace Fridica.Threads.Direct

/-! ## A decision with a reply alone -/

theorem bounded_empty (limit : Nat) : bounded limit "" = .ok "" := by
  have htrim : trim "" = "" := by
    unfold trim
    rw [trim_matches_eq_empty]
    simp
  unfold bounded
  rw [htrim]
  simp [refuse, bind, Except.bind, pure, Except.pure]

theorem validate_effects_alone (r : Reply) : validate_effects (alone r) = .ok (alone r) := by
  unfold validate_effects alone Decision.empty
  simp [bounded_empty, refuse, bind, Except.bind, pure, Except.pure]

theorem reopen_open {request : ParentRequest} (hopen : request.session.status ≠ some "blocked")
    (d : Decision) : reopen request d = d := by
  unfold reopen
  rw [if_neg fun h => hopen h.2]

theorem addresses_ok {known ids acc : List String} {error : String}
    (hknown : ∀ id ∈ ids, id ∈ known) (hdistinct : (ids ++ acc).Nodup) :
    ids.foldlM (address known error) acc = .ok (ids.reverse ++ acc) := by
  induction ids generalizing acc with
  | nil => rfl
  | cons id ids ih =>
    rw [List.cons_append, List.nodup_cons, List.mem_append, not_or] at hdistinct
    obtain ⟨⟨hids, hacc⟩, hrest⟩ := hdistinct
    have hfirst : address known error acc id = .ok (id :: acc) := by
      unfold address
      simp [refuse, hknown id List.mem_cons_self, hacc, bind, Except.bind, pure, Except.pure]
    rw [List.foldlM_cons, bind_ok]
    refine ⟨id :: acc, hfirst, ?_⟩
    rw [ih (fun i hi => hknown i (List.mem_cons_of_mem _ hi)), List.reverse_cons,
      List.append_assoc, List.singleton_append]
    rw [List.nodup_middle, List.nodup_cons, List.mem_append, not_or]
    exact ⟨⟨hids, hacc⟩, hrest⟩

/-- What a reply has to be to be kept. -/
def Kept (r : Reply) : Prop :=
  (r.text ≠ "" ∨ r.details ≠ "") ∧ r.text.length ≤ 40000 ∧ r.details.length ≤ 40000

section Alone

variable {whitespace : Char → Bool} {request : ParentRequest} {r : Reply}

theorem validate_handoffs_nil (known acc : List String) :
    validate_handoffs request [] known acc = .ok ⟨[], acc⟩ := by
  unfold validate_handoffs
  simp [refuse, bind, Except.bind, pure, Except.pure]

def replying (reply : Option Reply) : Decision := { Decision.empty with reply }

theorem validate_alone (hopen : request.session.status ≠ some "blocked") (now : ℚ)
    (d : Decision) :
    validate whitespace (some (alone r)) request now = .ok d ↔
      ∃ reply acc, drop_unsent (some (normalize whitespace r)) = .ok reply ∧
        validate_reply request (replying reply) (known_obligations request) = .ok acc ∧
          replying reply = d := by
  unfold validate
  simp only [bind_ok, pure_ok, validate_effects_alone, Except.ok.injEq, exists_eq_left',
    reopen_open hopen]
  unfold alone replying Decision.empty
  simp only [Option.map_some, List.foldlM_nil, pure_ok, validate_handoffs_nil,
    Except.ok.injEq]
  constructor
  · rintro ⟨reply, hdrop, acc, hreply, -, -, -, -, -, -, hd⟩
    exact ⟨reply, acc, hdrop, hreply, hd⟩
  · rintro ⟨reply, acc, hdrop, hreply, hd⟩
    exact ⟨reply, hdrop, acc, hreply, acc, rfl, (), rfl, ⟨[], acc⟩, rfl, hd⟩

theorem validate_alone_iff (hopen : request.session.status ≠ some "blocked") (hsend : r.send)
    (hstatus : r.status ≠ .blocked) (hdistinct : r.answers.Nodup)
    (hknown : ∀ id ∈ r.answers, id ∈ known_obligations request) (now : ℚ) :
    (∃ r', validate whitespace (some (alone r)) request now = .ok (alone r') ∧
      r'.status = r.status ∧ r'.answers = r.answers) ↔ Kept (normalize whitespace r) := by
  simp only [validate_alone hopen]
  constructor
  · rintro ⟨r', ⟨reply, acc, hdrop, hreply, hd⟩, -⟩
    obtain rfl : reply = some r' := congrArg Decision.reply hd
    obtain ⟨hnormal, hsent⟩ := (drop_unsent_ok hdrop).1 r' rfl
    obtain rfl := Option.some.inj hnormal
    exact ⟨normalize_send hsent, ((validate_reply_ok hreply).2 _ rfl).2.2⟩
  · rintro ⟨hsome, htext, hdetails⟩
    have hsent : (normalize whitespace r).send = true := by
      unfold normalize at hsome ⊢
      dsimp only at hsome ⊢
      rw [if_neg (not_and_or.mpr hsome)]
      exact hsend
    refine ⟨normalize whitespace r, ⟨some (normalize whitespace r),
      (normalize whitespace r).answers.reverse ++ [], ?_, ?_, rfl⟩, normalize_status whitespace r,
      normalize_answers whitespace r⟩
    · unfold drop_unsent
      dsimp only
      rw [if_pos hsent]
      rfl
    · unfold validate_reply replying
      simp only [bind_ok, refuse_ok]
      refine ⟨(), ?_, (), ?_, (), ?_, addresses_ok ?_ ?_⟩
      · exact fun h => hopen h.1
      · rw [not_or, not_lt, not_lt]
        exact ⟨htext, hdetails⟩
      · rintro ⟨hblocked | hblocked, -⟩
        · exact hstatus ((normalize_status whitespace r).symm.trans hblocked)
        · exact hopen hblocked.1
      · rw [normalize_answers]
        exact hknown
      · rw [normalize_answers, List.append_nil]
        exact hdistinct

end Alone

/-! ## What the fast path makes of a report -/

section Direct

variable {request : ResultRequest} {enabled : Bool} {limit : Nat}
  {d : Decision}

theorem direct_ok (h : direct request enabled limit = .ok (some d)) :
    request.session.status ≠ some "blocked" ∧ ∃ report answers, request.report = some report ∧
      trim report ≠ "" ∧ signs_off report = false ∧ request.answers.mapM id = some answers ∧
        d = alone ⟨(split report limit).1, (split report limit).2, .complete, answers, .ongoing,
          true⟩ := by
  unfold direct at h
  split at h
  next => cases h
  next hready =>
    rw [not_or, not_or] at hready
    refine ⟨hready.2.1, ?_⟩
    split at h
    next => cases h
    next =>
      split at h
      next => cases h
      next report hreport =>
        obtain ⟨hreport, hsome⟩ := Option.filter_eq_some_iff.mp hreport
        split at h
        next => cases h
        next hunsigned =>
          split at h
          next => cases h
          next answers hanswers =>
            refine ⟨report, answers, hreport, of_decide_eq_true hsome, ?_, hanswers, ?_⟩
            · simpa using hunsigned
            · exact (Option.some.inj (Except.ok.inj h)).symm

theorem answers_known {answers : List String} (h : request.answers.mapM id = some answers) :
    ∀ id ∈ answers, id ∈ known_obligations request.toParentRequest := by
  intro i hi
  obtain ⟨x, hx, rfl⟩ := exists_of_mem_right (mapM_forall₂ h) hi
  unfold ResultRequest.answers at hx
  obtain ⟨o, ho, hid⟩ := List.mem_map.mp hx
  obtain ⟨ho, hasked⟩ := List.mem_filter.mp ho
  have hasked := of_decide_eq_true hasked
  rw [mem_known_obligations]
  refine ⟨o.toObligation, ?_, hid, ?_⟩
  · rw [request.obligations_eq]
    exact List.mem_map_of_mem ho
  · rcases hasked.2.1 with hstate | hstate
    · exact .inl hstate
    · exact .inr (.inl hstate)

theorem mapM_id {l : List (Option String)} {ids : List String} (h : l.mapM id = some ids) :
    ids = l.filterMap id := by
  have hall := mapM_forall₂ h
  clear h
  induction hall with
  | nil => rfl
  | cons hx _ ih => rw [List.filterMap_cons, hx, ← ih]

theorem answers_nodup (hids : (request.obligations.filterMap Obligation.id).Nodup)
    {answers : List String} (h : request.answers.mapM id = some answers) : answers.Nodup := by
  have hsub : answers.Sublist (request.obligations.filterMap Obligation.id) := by
    rw [mapM_id h, request.obligations_eq, List.filterMap_map]
    unfold ResultRequest.answers
    rw [List.filterMap_map]
    exact List.filter_sublist.filterMap _
  exact hids.sublist hsub

/-! ## Sign-offs -/

theorem toUpper_blank {c : Char} (h : whitespace c) : c.toUpper = c := by
  unfold whitespace at h
  unfold Char.toUpper
  split
  next hlower =>
    have hlow : 97 ≤ c.toNat := UInt32.le_iff_toNat_le.mp hlower.1
    have hhigh : c.toNat ≤ 122 := UInt32.le_iff_toNat_le.mp hlower.2
    simp only [Bool.decide_or, Bool.decide_and, Bool.or_eq_true, Bool.and_eq_true,
      decide_eq_true_eq] at h
    omega
  next => rfl

theorem signs_off_of {report : String} (h : SignedOff report) : signs_off report = true := by
  obtain ⟨line, hline, blanks, word, rest, rfl, hblanks, hword⟩ := h
  unfold signs_off
  rw [List.any_eq_true]
  refine ⟨_, hline, ?_⟩
  have hdrop : (blanks ++ word ++ rest).dropWhile whitespace = word ++ rest := by
    rw [List.append_assoc, List.dropWhile_append_of_pos hblanks]
    cases word with
    | nil => cases hword
    | cons c word =>
      have hc : c.toUpper = 'S' := (List.cons.inj hword).1
      refine List.dropWhile_cons_of_neg fun hblank => ?_
      rw [toUpper_blank hblank] at hc
      subst hc
      exact absurd hblank (by decide)
  rw [hdrop, List.map_append, hword, List.isPrefixOf_iff_prefix]
  exact List.prefix_append _ _

/-! ## Texts -/

theorem attached_length : ATTACHED.length = 23 := by decide +kernel

theorem split_length (report : String) {limit : Nat} (hlimit : 40 ≤ limit) :
    (split report limit).1.length ≤ limit := by
  unfold split
  split
  next hlong =>
    have hfront := List.length_take_le (limit - 40) report.toList
    rw [String.length_append, String.length_ofList, attached_length]
    omega
  next hshort => exact not_lt.mp hshort

theorem split_whole (report : String) (limit : Nat) :
    report = (split report limit).1 ∧ (split report limit).2 = "" ∨
      report = (split report limit).2 ∧ ∃ front : String,
        front.toList <+: (split report limit).2.toList ∧
          (split report limit).1 = front ++ ATTACHED := by
  unfold split
  split
  · refine .inr ⟨rfl, String.ofList (report.toList.take (limit - 40)), ?_, rfl⟩
    rw [String.toList_ofList]
    exact List.take_prefix _ _
  · exact .inl ⟨rfl, rfl⟩

theorem kept_iff {whitespace : Char → Bool} (hletter : whitespace 'F' = false)
    (hlow : 500 ≤ limit) (hhigh : limit ≤ 12000) (report : String) (answers : List String) :
    Kept (normalize whitespace ⟨(split report limit).1, (split report limit).2, .complete, answers,
      .ongoing, true⟩) ↔ Fits whitespace limit report := by
  have htext := trim_matches_length whitespace (split report limit).1
  have hlength := split_length report (show 40 ≤ limit by omega)
  unfold Kept Fits normalize
  dsimp only
  unfold split at htext hlength ⊢
  split
  next hlong =>
    rw [if_pos hlong] at htext hlength
    dsimp only at htext hlength ⊢
    have hsome : trim_matches whitespace
        (String.ofList (report.toList.take (limit - 40)) ++ ATTACHED) ≠ "" := by
      rw [Ne, trim_matches_eq_empty]
      intro hall
      have hblank := hall 'F' (by
        rw [String.toList_append, List.mem_append]
        exact .inr (by decide))
      rw [hletter] at hblank
      cases hblank
    constructor
    · exact fun h => h.2.2
    · exact fun h => ⟨.inl hsome, by omega, h⟩
  next hshort =>
    rw [if_neg hshort] at htext hlength
    dsimp only at htext hlength ⊢
    have hdetails : trim_matches whitespace "" = "" := by
      rw [trim_matches_eq_empty]
      simp
    have hempty : trim_matches whitespace report ≠ "" ↔
        ∃ c ∈ report.toList, whitespace c = false := by
      rw [Ne, trim_matches_eq_empty]
      simp
    rw [hdetails, hempty]
    constructor
    · rintro ⟨hsome | hnone, -⟩
      · exact hsome
      · exact absurd rfl hnone
    · exact fun h => ⟨.inl h, by omega, by simp⟩

/-- The decision is accepted at a time exactly when the report fits. -/
theorem accepted_iff {whitespace : Char → Bool} (hletter : whitespace 'F' = false)
    (hlow : 500 ≤ limit) (hhigh : limit ≤ 12000)
    (hids : (request.obligations.filterMap Obligation.id).Nodup)
    (h : direct request enabled limit = .ok (some d)) {report : String}
    (hreport : request.report = some report) (now : ℚ) :
    (∃ r r', d = alone r ∧
      validate whitespace (some d) request.toParentRequest now = .ok (alone r') ∧
        r'.status = r.status ∧ r'.answers = r.answers) ↔ Fits whitespace limit report := by
  obtain ⟨hopen, report', answers, hreport', -, -, hanswers, rfl⟩ := direct_ok h
  obtain rfl : report = report' := Option.some.inj (hreport.symm.trans hreport')
  rw [← kept_iff hletter hlow hhigh report answers, ← validate_alone_iff hopen rfl (by exact nofun)
    (answers_nodup hids hanswers) (answers_known hanswers) now]
  constructor
  · rintro ⟨r, r', hd, hvalid, hstatus, hsame⟩
    obtain rfl := Option.some.inj (congrArg Decision.reply hd)
    exact ⟨r', hvalid, hstatus, hsame⟩
  · rintro ⟨r', hvalid, hstatus, hsame⟩
    exact ⟨_, r', rfl, hvalid, hstatus, hsame⟩

/-- **What the fast path decides stays inside what is checked exactly when** the report fits: it
has something to post, and no more than may be attached. -/
theorem stays_iff {whitespace : Char → Bool} (hletter : whitespace 'F' = false)
    (hlow : 500 ≤ limit) (hhigh : limit ≤ 12000)
    (hids : (request.obligations.filterMap Obligation.id).Nodup)
    (h : direct request enabled limit = .ok (some d)) :
    Stays whitespace request limit d ↔
      ∀ report, request.report = some report → Fits whitespace limit report := by
  constructor
  · intro hstays report hreport
    exact (accepted_iff hletter hlow hhigh hids h hreport 0).mp (hstays.accepted 0)
  · intro hfits
    obtain ⟨-, report, answers, hreport, -, hunsigned, -, hd⟩ := direct_ok h
    have haccepted := accepted_iff hletter hlow hhigh hids h hreport
    subst hd
    constructor
    · exact fun now => (haccepted now).mpr (hfits report hreport)
    · rintro r hr
      obtain rfl := Option.some.inj hr
      exact split_length report (by omega)
    · rintro r hr
      obtain rfl := Option.some.inj hr
      rw [hreport, Option.some.injEq, Option.some.injEq]
      exact split_whole report limit
    · intro report' hreport' hsigned
      obtain rfl : report = report' := Option.some.inj (hreport.symm.trans hreport')
      rw [signs_off_of hsigned] at hunsigned
      cases hunsigned

end Direct

/-! ## Reports of one finished job -/

def finished_request (report : String) : ResultRequest where
  inbox_id := 1
  session :=
    { id := some "T:C:1.0", workspace := some "T", channel := some "C", root_ts := some "1.0"
      status := some "waiting", version := some 1, parent_review_required := false
      linked_threads := [], notes_revision := none, wait_streak := none, no_progress := none
      last_reply_hash := none }
  trigger :=
    { kind := .worker_result, ref := "job", payload := .empty, message := none
      source_peer := none, refused_event := none
      snapshot := some
        { results := [⟨some "job", some "done", false, some 1, some "worker", some "done"⟩]
          pending := false, group_size := some 1, origin := ⟨some "event", some .human⟩ } }
  history := []
  obligations := [⟨some "mention", some "open", none⟩]
  asked := [⟨⟨some "mention", some "open", none⟩, some "mention", some "event"⟩]
  obligations_eq := rfl
  report := some report

theorem finished_ids (report : String) :
    ((finished_request report).obligations.filterMap Obligation.id).Nodup := by
  have hids : (finished_request report).obligations.filterMap Obligation.id = ["mention"] := rfl
  rw [hids]
  exact List.nodup_singleton _

theorem finished_report (report : String) : (finished_request report).report = some report := rfl

theorem finished_answers (report : String) :
    (finished_request report).answers.mapM id = some ["mention"] := rfl

theorem finished_direct {report : String} (hsome : trim report ≠ "")
    (hunsigned : signs_off report = false) (limit : Nat) :
    direct (finished_request report) true limit =
      .ok (some (alone ⟨(split report limit).1, (split report limit).2, .complete, ["mention"],
        .ongoing, true⟩)) := by
  have hreport : (finished_request report).report.filter (fun r => trim r ≠ "") = some report := by
    exact Option.filter_eq_some_iff.mpr ⟨rfl, by simpa using hsome⟩
  unfold direct
  rw [if_neg (by simp [finished_request, ResultRequest.group_size]),
    if_neg (by simp [finished_request, ResultRequest.result]), hreport]
  dsimp only
  rw [hunsigned, finished_answers]
  rfl

theorem stays_short : ∃ d,
    direct (finished_request "Tests pass.") true 7000 = .ok (some d) ∧
      Stays whitespace (finished_request "Tests pass.") 7000 d := by
  have hdirect := @finished_direct "Tests pass." (by decide +kernel) (by decide +kernel) 7000
  refine ⟨_, hdirect, (stays_iff (by decide) (by decide) (by decide) (finished_ids _)
    hdirect).mpr ?_⟩
  rintro _ ⟨⟩
  unfold Fits
  rw [if_neg (by decide)]
  exact ⟨'T', by decide, by decide⟩

def long_report : String := String.ofList ('a' :: List.replicate 40000 'a')

theorem long_report_chars : long_report.toList = 'a' :: List.replicate 40000 'a' := by
  unfold long_report
  exact String.toList_ofList

theorem mem_long_report {c : Char} (h : c ∈ long_report.toList) : c = 'a' := by
  rw [long_report_chars, ← List.replicate_succ] at h
  exact List.eq_of_mem_replicate h

theorem long_report_length : long_report.length = 40001 := by
  unfold long_report
  rw [String.length_ofList, List.length_cons, List.length_replicate]

theorem long_report_plain : ∀ c ∈ long_report.toList, whitespace c = false := by
  intro c hc
  rw [mem_long_report hc]
  decide

theorem long_report_unsigned : signs_off long_report = false := by
  have hlines : Lines.lines long_report.toList = [long_report.toList] := by
    apply Lines.lines_eq_singleton
    · intro hnewline
      exact absurd (mem_long_report hnewline) (by decide)
    · rw [long_report_chars]
      exact List.cons_ne_nil _ _
  unfold signs_off
  rw [hlines, List.any_cons, List.any_nil, Bool.or_false]
  rw [long_report_chars, List.dropWhile_cons_of_neg (by decide)]
  rfl

/-- The attachment of a long report would not pass the check. -/
theorem long_report_refused : ∃ d,
    direct (finished_request long_report) true 7000 = .ok (some d) ∧
      ¬ Stays whitespace (finished_request long_report) 7000 d := by
  have hsome : trim long_report ≠ "" := by
    unfold trim
    rw [trim_matches_eq_self long_report_plain]
    intro hempty
    have hlength := long_report_length
    rw [hempty] at hlength
    cases hlength
  have hunfit : ¬ Fits whitespace 7000 long_report := by
    unfold Fits
    rw [trim_matches_eq_self long_report_plain, long_report_length]
    simp
  have hdirect := finished_direct hsome long_report_unsigned 7000
  refine ⟨_, hdirect, fun hstays => hunfit ?_⟩
  have haccepted := hstays.accepted 0
  rwa [accepted_iff (by decide) (by decide) (by decide) (finished_ids long_report) hdirect
    (finished_report long_report) 0] at haccepted

end Fridica.Threads.Direct
