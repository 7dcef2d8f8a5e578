import Fridica.Control.Target.Proofs
import Fridica.Lib.Lines
import Fridica.Slack.Names.Spec

/-!
# A readable name addresses its thread

What `thread` prints is a label and a timestamp. The client admits it when both are ASCII, and then
it resolves to the same thread.
-/

namespace Fridica.Slack

open Fridica.Control.Target (Text byte bytes admitted segment_ok is_ascii_alphanumeric)

variable {ids : Ids} {names : Names}

/-! ## IDs -/

theorem Ids.Lawful.from_str_eq_none (h : ids.Lawful) {a b : Text} (ha : COLON ∉ a)
    (hb : COLON ∉ b) : ids.from_str (a ++ COLON :: b) = none := by
  cases hread : ids.from_str (a ++ COLON :: b) with
  | none => rfl
  | some t =>
    have heq := h.from_str _ t hread
    rw [h.to_string] at heq
    obtain ⟨-, rfl⟩ := Infix.cut ha (h.parts _ t hread).1 heq
    simp at hb

/-! ## The client -/

theorem admitted_iff {c : UInt8} : admitted c = true ↔ Typed c ∨ c = COLON := by
  simp only [admitted, Typed, COLON, Bool.or_eq_true, List.contains_eq_mem, List.mem_cons,
    List.not_mem_nil, or_false, decide_eq_true_eq, or_assoc]

theorem segment_iff {value typed : Text} (hcolon : COLON ∈ value) :
    Control.Target.segment value = some typed ↔ typed = value ∧ ∀ c ∈ value, admitted c = true := by
  constructor
  · intro h
    have hsame : typed = value := by
      unfold Control.Target.segment at h
      split at h
      · cases h
      · exact (Option.some.inj h).symm
    exact ⟨hsame, hsame ▸ (segment_ok h).2.2.2⟩
  · rintro ⟨rfl, hall⟩
    have hne : typed ≠ [] := List.ne_nil_of_mem hcolon
    have hdot : typed ≠ [byte '.'] := by
      rintro rfl
      exact absurd hcolon (by decide)
    have hdots : typed ≠ [byte '.', byte '.'] := by
      rintro rfl
      exact absurd hcolon (by decide)
    have hadmitted : (typed.all fun c => is_ascii_alphanumeric c ||
        [byte '-', byte '_', byte '.', byte ':'].contains c) = true :=
      List.all_eq_true.mpr hall
    unfold Control.Target.segment
    rw [hadmitted]
    simp [hne, hdot, hdots]

/-! ## Labels -/

section Label

variable {c n ts : Text}

theorem hash_untyped : ¬ Typed HASH := by
  unfold Typed
  decide

theorem dropWhile_colon (a b : Text) :
    (a ++ COLON :: b).dropWhile (· = HASH) = a.dropWhile (· = HASH) ++ COLON :: b := by
  induction a with
  | nil => rfl
  | cons x a ih =>
    by_cases hx : x = HASH
    · simp [hx, ih]
    · simp [hx]

theorem dropWhile_hash {a : Text} (h : HASH ∉ a) : a.dropWhile (· = HASH) = a := by
  cases a with
  | nil => rfl
  | cons x a =>
    rw [List.mem_cons, not_or] at h
    simp [Ne.symm h.1]

theorem Names.label_of_name (h : names.channels.lookup c = some n) : names.label c = n := by
  unfold Names.label
  rw [h, Option.getD_some]

theorem Names.label_of_none (h : names.channels.lookup c = none) : names.label c = c := by
  unfold Names.label
  rw [h, Option.getD_none]

theorem Names.Readable.label_colon (h : names.Readable) (hc : COLON ∉ c) :
    COLON ∉ names.label c := by
  cases hname : names.channels.lookup c with
  | none => rwa [Names.label_of_none hname]
  | some n =>
    rw [Names.label_of_name hname]
    exact (h.plain c n hname).1

theorem Names.dropWhile_channel :
    (names.channel c).dropWhile (· = HASH) = (names.label c).dropWhile (· = HASH) := by
  unfold Names.channel
  cases hname : names.channels.lookup c with
  | none => rw [Names.label_of_none hname]
  | some n =>
    rw [Names.label_of_name hname]
    simp

theorem Names.Readable.channel_id_label (h : names.Readable) (hc : c ∈ names.configured)
    (hhash : HASH ∉ names.label c) : names.channel_id (names.label c) = some c := by
  have hfits : ∀ d ∈ names.configured,
      (d = names.label c ∨ names.channels.lookup d = some (names.label c)) ↔ d = c := by
    intro d hd
    cases hname : names.channels.lookup c with
    | none =>
      rw [Names.label_of_none hname]
      exact ⟨fun hor => hor.resolve_right fun hlookup => h.no_id d c hlookup hc, .inl⟩
    | some n =>
      rw [Names.label_of_name hname]
      constructor
      · rintro (rfl | hlookup)
        · exact absurd hd (h.no_id c d hname)
        · exact h.distinct d c n hlookup hname
      · rintro rfl
        exact .inr hname
  unfold Names.channel_id
  dsimp only
  rw [dropWhile_hash hhash]
  cases hfind : names.configured.find? fun d =>
      decide (d = names.label c) || decide (names.channels.lookup d = some (names.label c)) with
  | none =>
    have hnone := List.find?_eq_none.mp hfind c hc
    simp [(hfits c hc).mpr rfl] at hnone
  | some d =>
    have hd := List.find?_some hfind
    rw [Bool.or_eq_true, decide_eq_true_eq, decide_eq_true_eq] at hd
    rw [(hfits d (List.mem_of_find?_eq_some hfind)).mp hd]

end Label

/-! ## There and back -/

section Back

variable {id a ts : Text} {t : ThreadId}

theorem Names.thread_of (hread : ids.from_str id = some t)
    (hworkspace : t.workspace = names.workspace) :
    names.thread ids id = names.channel t.channel ++ COLON :: t.root_ts := by
  unfold Names.thread
  rw [hread]
  exact if_pos hworkspace

theorem Names.thread_typed (hread : ids.from_str id = some t)
    (hworkspace : t.workspace = names.workspace) :
    Control.Target.thread (names.thread ids id) =
      Control.Target.segment
        ((names.label t.channel).dropWhile (· = HASH) ++ COLON :: t.root_ts) := by
  have htrim : ∀ value, Control.Target.thread value =
      Control.Target.segment (value.dropWhile (· = HASH)) :=
    fun _ => rfl
  rw [htrim, Names.thread_of hread hworkspace, dropWhile_colon, Names.dropWhile_channel]

theorem Names.resolve_of (hids : ids.Lawful) (ha : COLON ∉ a) (hts : COLON ∉ ts) (hne : ts ≠ []) :
    names.resolve ids (a ++ COLON :: ts) =
      (names.channel_id a).map fun c => ids.to_string ⟨names.workspace, c, ts⟩ := by
  unfold Names.resolve
  rw [hids.from_str_eq_none ha hts, Infix.split_once_eq_some.mpr ⟨rfl, ha⟩]
  exact if_neg hne

theorem Names.channel_id_some {c wanted : Text} (h : names.channel_id wanted = some c) :
    c ∈ names.configured ∧ (c = wanted.dropWhile (· = HASH) ∨
      names.channels.lookup c = some (wanted.dropWhile (· = HASH))) := by
  unfold Names.channel_id at h
  have hc := List.find?_some h
  rw [Bool.or_eq_true, decide_eq_true_eq, decide_eq_true_eq] at hc
  exact ⟨List.mem_of_find?_eq_some h, hc⟩

/-- A hash that begins an ID is lost. -/
theorem Names.Readable.reads_back_hash (hids : ids.Lawful) (h : names.Readable)
    (hread : ids.from_str id = some t) (hworkspace : t.workspace = names.workspace)
    (hback : names.ReadsBack ids id) : HASH ∉ names.label t.channel := by
  obtain ⟨-, hcolon, hts, hne⟩ := hids.parts id t hread
  intro hhash
  cases hname : names.channels.lookup t.channel with
  | some n =>
    rw [Names.label_of_name hname] at hhash
    exact (h.plain _ n hname).2 hhash
  | none =>
    rw [Names.label_of_none hname] at hhash
    obtain ⟨typed, htyped, hresolve⟩ := hback
    rw [Names.thread_typed hread hworkspace, Names.label_of_none hname,
      segment_iff (by simp)] at htyped
    obtain ⟨rfl, hall⟩ := htyped
    have hplain : HASH ∉ t.channel.dropWhile (· = HASH) := by
      intro hmem
      exact absurd (hall HASH (List.mem_append_left _ hmem)) (by decide)
    have hcolon' : COLON ∉ t.channel.dropWhile (· = HASH) :=
      fun hmem => hcolon ((List.dropWhile_sublist _).mem hmem)
    rw [Names.resolve_of hids hcolon' hts hne] at hresolve
    obtain ⟨c, hfound, hsame⟩ := Option.map_eq_some_iff.mp hresolve
    rw [hids.from_str id t hread, hids.to_string, hids.to_string, hworkspace] at hsame
    have hc : c = t.channel := by
      have htail := (List.cons.inj (List.append_cancel_left hsame)).2
      exact List.append_cancel_right htail
    obtain ⟨-, hwanted⟩ := Names.channel_id_some hfound
    rw [hc, dropWhile_hash hplain, hname] at hwanted
    rcases hwanted with hwanted | hwanted
    · rw [hwanted] at hhash
      exact hplain hhash
    · cases hwanted

/-- **A shown thread can be typed back exactly when it is shown in ASCII**, and only a full ID
resolves to a thread outside the configured channels. -/
theorem reads_back_iff (ids : Ids) (names : Names) (hids : ids.Lawful) (h : names.Readable) :
    (∀ id t, ids.from_str id = some t → t.workspace = names.workspace →
      t.channel ∈ names.configured →
        (names.ReadsBack ids id ↔ ∀ c ∈ names.label t.channel ++ t.root_ts, Typed c)) ∧
    ∀ reference id, names.resolve ids reference = some id →
      (∃ t, ids.from_str reference = some t ∧ id = reference) ∨
      ∃ t, t.workspace = names.workspace ∧ t.channel ∈ names.configured ∧ id = ids.to_string t := by
  constructor
  · intro id t hread hworkspace hconfigured
    obtain ⟨-, hcolon, hts, hne⟩ := hids.parts id t hread
    have hlabel := h.label_colon hcolon
    have htyped : HASH ∉ names.label t.channel → ∀ typed,
        Control.Target.thread (names.thread ids id) = some typed ↔
          typed = names.label t.channel ++ COLON :: t.root_ts ∧
            ∀ c ∈ names.label t.channel ++ COLON :: t.root_ts, admitted c = true := by
      intro hhash typed
      rw [Names.thread_typed hread hworkspace, dropWhile_hash hhash, segment_iff (by simp)]
    constructor
    · intro hback
      have hhash := h.reads_back_hash hids hread hworkspace hback
      obtain ⟨typed, hadmitted, -⟩ := hback
      have hall := ((htyped hhash typed).mp hadmitted).2
      intro c hc
      have hin : c ∈ names.label t.channel ++ COLON :: t.root_ts := by
        simp only [List.mem_append, List.mem_cons] at hc ⊢
        tauto
      refine (admitted_iff.mp (hall c hin)).resolve_right ?_
      rintro rfl
      exact (List.mem_append.mp hc).elim hlabel hts
    · intro hall
      have hhash : HASH ∉ names.label t.channel :=
        fun hmem => hash_untyped (hall HASH (List.mem_append_left _ hmem))
      refine ⟨_, (htyped hhash _).mpr ⟨rfl, ?_⟩, ?_⟩
      · intro c hc
        rw [admitted_iff]
        simp only [List.mem_append, List.mem_cons] at hc
        rcases hc with hc | rfl | hc
        · exact .inl (hall c (List.mem_append_left _ hc))
        · exact .inr rfl
        · exact .inl (hall c (List.mem_append_right _ hc))
      · rw [Names.resolve_of hids hlabel hts hne, h.channel_id_label hconfigured hhash,
          ← hworkspace, Option.map_some, hids.from_str id t hread]
  · intro reference id hresolve
    unfold Names.resolve at hresolve
    split at hresolve
    next t hread =>
      exact .inl ⟨t, hread, by rw [← Option.some.inj hresolve, hids.from_str _ t hread]⟩
    next =>
      split at hresolve
      · cases hresolve
      next channel ts hsplit =>
        split at hresolve
        · cases hresolve
        · obtain ⟨c, hfound, rfl⟩ := Option.map_eq_some_iff.mp hresolve
          exact .inr ⟨_, rfl, (Names.channel_id_some hfound).1, rfl⟩

end Back

/-! ## IDs in three parts -/

/-- Three parts between colons, the last of which is not empty. -/
def colon_ids : Ids where
  from_str s :=
    match s.splitOn COLON with
    | [workspace, channel, root_ts] =>
      if root_ts = [] then none else some ⟨workspace, channel, root_ts⟩
    | _ => none
  to_string t := t.workspace ++ COLON :: (t.channel ++ COLON :: t.root_ts)

theorem colon_ids_lawful : colon_ids.Lawful := by
  have hread : ∀ s t, colon_ids.from_str s = some t →
      s.splitOn COLON = [t.workspace, t.channel, t.root_ts] ∧ t.root_ts ≠ [] := by
    intro s t h
    unfold colon_ids at h
    dsimp only at h
    split at h
    next workspace channel root_ts hsplit =>
      split at h
      · cases h
      next hne =>
        rw [← Option.some.inj h]
        exact ⟨hsplit, hne⟩
    next => cases h
  refine ⟨fun _ => rfl, fun s t h => ?_, fun s t h => ?_⟩
  · obtain ⟨hsplit, -⟩ := hread s t h
    have hjoin : [COLON].intercalate (s.splitOn COLON) = s := List.intercalate_splitOn COLON
    rw [← hjoin, hsplit]
    simp [List.intercalate, colon_ids]
  · obtain ⟨hsplit, hne⟩ := hread s t h
    have hpart : ∀ part ∈ s.splitOn COLON, COLON ∉ part :=
      fun _ => Lines.not_mem_splitOn
    rw [hsplit] at hpart
    simp only [List.mem_cons, List.not_mem_nil, or_false, forall_eq_or_imp, forall_eq] at hpart
    exact ⟨hpart.1, hpart.2.1, hpart.2.2, hne⟩

def workspace_of (name : Text) : Names :=
  ⟨bytes "T1", [bytes "C1", bytes "C2"], [(bytes "C1", name)]⟩

theorem workspace_of_readable {name : Text} (hne : name ≠ []) (hplain : COLON ∉ name ∧ HASH ∉ name)
    (hid : name ∉ [bytes "C1", bytes "C2"]) : (workspace_of name).Readable := by
  have hlookup : ∀ c n, (workspace_of name).channels.lookup c = some n → c = bytes "C1" ∧ n = name := by
    intro c n h
    unfold workspace_of at h
    rw [List.lookup_cons] at h
    split at h
    next heq => exact ⟨by simpa using heq, (Option.some.inj h).symm⟩
    next => cases h
  refine ⟨?_, ?_, ?_, ?_⟩
  · rintro c n h
    rw [(hlookup c n h).2]
    exact hne
  · rintro c n h
    rw [(hlookup c n h).2]
    exact hplain
  · rintro c d n hc hd
    rw [(hlookup c n hc).1, (hlookup d n hd).1]
  · rintro c n h
    rw [(hlookup c n h).2]
    exact hid

theorem typed_of_all {t : Text} (h : t.all (fun c => is_ascii_alphanumeric c ||
    [byte '-', byte '_', byte '.'].contains c) = true) : ∀ c ∈ t, Typed c := by
  intro c hc
  have htyped := List.all_eq_true.mp h c hc
  simpa [Typed] using htyped

theorem reads_back_iff_plume :
    (workspace_of (bytes "ai-human-plume")).ReadsBack colon_ids (bytes "T1:C1:100.1") :=
  ((reads_back_iff colon_ids (workspace_of (bytes "ai-human-plume")) colon_ids_lawful
    (workspace_of_readable (by decide) (by decide) (by decide))).1 (bytes "T1:C1:100.1")
      ⟨bytes "T1", bytes "C1", bytes "100.1"⟩ (by decide) rfl (by decide)).mpr
      (typed_of_all (by decide))

/-- A channel whose name has a letter that is not ASCII: the client refuses the shown thread. -/
theorem accented_name_refused :
    let names := workspace_of (0xC3 :: 0xA9 :: bytes "quipe")
    names.Readable ∧ colon_ids.Lawful ∧
      colon_ids.from_str (bytes "T1:C1:100.1") = some ⟨bytes "T1", bytes "C1", bytes "100.1"⟩ ∧
      names.thread colon_ids (bytes "T1:C1:100.1") = 35 :: 0xC3 :: 0xA9 :: bytes "quipe:100.1" ∧
      Control.Target.thread (names.thread colon_ids (bytes "T1:C1:100.1")) = none ∧
      ¬ names.ReadsBack colon_ids (bytes "T1:C1:100.1") := by
  intro names
  have hnone : Control.Target.thread (names.thread colon_ids (bytes "T1:C1:100.1")) = none := by
    decide
  refine ⟨workspace_of_readable (by decide) (by decide) (by decide), colon_ids_lawful, by decide,
    by decide, hnone, ?_⟩
  rintro ⟨typed, htyped, -⟩
  rw [hnone] at htyped
  cases htyped

end Fridica.Slack
