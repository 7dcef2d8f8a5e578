import Fridica.Slack.Files.Proofs
import Mathlib.Data.List.DropRight
import Mathlib.Data.List.Nodup

/-!
# What is read of attached files

What is read of a file is put into its own view, and what does not fit with the rest is left out.
-/

namespace Fridica.Slack.Files

open Fridica.Json Fridica.Utf8

/-! ## One view -/

section View

variable {out : Outside} {own : List String} {a : Attachment} {view fields : View} {u : List Char}

def FIELDS : List String := ["name", "mimetype", "size", "note", "header", "text", "truncated"]

def Allowed (view : View) : Prop := ∀ kv ∈ view, kv.1 ∈ FIELDS

/-- The text that a view quotes, without the note that it is truncated. -/
def body (view : View) : List Char :=
  let text := (((view.lookup "text").bind (·.as_str)).getD "").toList
  if (view.lookup "truncated").bind (·.as_bool) = some true then
    (text.rdropWhile (· ≠ '\n')).dropLast
  else text

theorem body_congr {v : View} (htext : v.lookup "text" = view.lookup "text")
    (hcut : v.lookup "truncated" = view.lookup "truncated") : body v = body view := by
  unfold body
  rw [htext, hcut]

theorem base_text (a : Attachment) : (base a).lookup "text" = none := Value.lookup_extend ..

theorem body_base (a : Attachment) : body (base a) = [] := by
  have hcut : (base a).lookup "truncated" = none := Value.lookup_extend ..
  unfold body
  rw [base_text, hcut]
  rfl

theorem body_noted (n : String) (view : View) : body (noted n view) = body view :=
  body_congr (Value.lookup_insert_ne (by decide) ..) (Value.lookup_insert_ne (by decide) ..)

theorem body_note (s : String) (view : View) : body (Value.extend view (note s)) = body view :=
  body_congr (Value.lookup_extend ..) (Value.lookup_extend ..)

theorem comma_line (n : Nat) : ∀ c ∈ (comma n).toList, c ≠ '\n' := by
  intro c hc hline
  have hkeep : c ∈ (comma n).toList.filter (· ≠ ',') := by
    rw [List.mem_filter]
    exact ⟨hc, by rw [hline]; decide⟩
  rw [comma_digits, hline] at hkeep
  exact Text.not_mem_toDigits rfl hkeep

theorem truncation_line (u : List Char) (size : Nat) :
    ((u ++ (truncation size).toList).rdropWhile (· ≠ '\n')).dropLast = u := by
  have hparts : (truncation size).toList =
      ['\n'] ++ ("[… truncated: first 64 KB of ".toList ++ (comma size).toList ++
        " bytes]".toList) := by
    unfold truncation
    simp only [String.toList_append]
    rfl
  have hline : ∀ c ∈ "[… truncated: first 64 KB of ".toList ++ (comma size).toList ++
      " bytes]".toList, c ≠ '\n' := by
    intro c hc
    rw [List.mem_append, List.mem_append] at hc
    rcases hc with (hc | hc) | hc
    · have hall : "[… truncated: first 64 KB of ".toList.all (· ≠ '\n') = true := by decide
      exact of_decide_eq_true (List.all_eq_true.mp hall c hc)
    · exact comma_line size c hc
    · have hall : " bytes]".toList.all (· ≠ '\n') = true := by decide
      exact of_decide_eq_true (List.all_eq_true.mp hall c hc)
  rw [hparts, ← List.append_assoc]
  generalize "[… truncated: first 64 KB of ".toList ++ (comma size).toList ++ " bytes]".toList = v
    at hline
  have hdrop : (u ++ ['\n'] ++ v).rdropWhile (· ≠ '\n') = u ++ ['\n'] := by
    unfold List.rdropWhile
    rw [List.reverse_append, List.dropWhile_append_of_pos, List.reverse_append,
      List.reverse_singleton, List.singleton_append, List.dropWhile_cons_of_neg (by decide),
      List.reverse_cons, List.reverse_reverse]
    intro c hc
    simpa using hline c (List.mem_reverse.mp hc)
  rw [hdrop, List.dropLast_concat]

theorem body_quote (a : Attachment) (size : Nat) (u : List Char) (cut : Bool) (view : View) :
    body (Value.extend view (quote a size u cut)) = u := by
  have htext : (Value.extend view (quote a size u cut)).lookup "text" =
      some (.string (String.ofList u ++ if cut then truncation size else "")) :=
    Value.lookup_extend ..
  have hcut : (Value.extend view (quote a size u cut)).lookup "truncated" = some (.bool cut) :=
    Value.lookup_extend ..
  unfold body
  rw [htext, hcut]
  cases cut with
  | true =>
    have hline := truncation_line u size
    simpa [Value.as_str, Value.as_bool] using hline
  | false => simp [Value.as_str, Value.as_bool]

theorem len_le_text_size {size : Nat} {cut : Bool} (hu : len u ≤ out.FILE_LIMIT) :
    len u ≤ text_size out (quote a size u cut) := by
  have hlookup : (quote a size u cut).lookup "text" =
      some (.string (String.ofList u ++ if cut then truncation size else "")) := rfl
  unfold text_size
  rw [hlookup, Option.bind_some, Value.as_str]
  dsimp only
  rw [String.toList_append, String.toList_ofList, len_append]
  omega

theorem readable_len {drops limit : Nat} {data : Bytes}
    (h : readable drops (data.take limit) = some u) : len u ≤ limit := by
  unfold readable at h
  obtain ⟨d, -, hd⟩ := List.exists_of_findSome?_eq_some h
  split at hd
  · have hlen := len_le hd
    rw [List.length_take, List.length_take] at hlen
    omega
  · cases hd

theorem shown_cases {result : Except Failure Download} (h : shown out a result = .ok fields) :
    (∃ s, fields = note ("not read: " ++ s)) ∨
      ∃ size u cut, fields = quote a size u cut ∧ len u ≤ out.FILE_LIMIT := by
  cases result with
  | error failure =>
    cases failure with
    | recording => cases h
    | timeout => exact .inl ⟨_, (Except.ok.inj h).symm⟩
    | other code => exact .inl ⟨_, (Except.ok.inj h).symm⟩
  | ok download =>
    rw [← Except.ok.inj h]
    unfold text
    split
    · exact .inl ⟨"download failed", rfl⟩
    · dsimp only
      split
      · exact .inl ⟨"not UTF-8 text", rfl⟩
      next u hu =>
        by_cases hnul : '\x00' ∈ u
        · rw [if_pos hnul]
          exact .inl ⟨"binary content", rfl⟩
        · rw [if_neg hnul]
          refine .inr ⟨quoted_size out a download, u,
            decide (download.data.length > out.FILE_LIMIT ∨
              quoted_size out a download > out.FILE_LIMIT), ?_, readable_len hu⟩
          unfold quote
          simp only [decide_eq_true_eq]

theorem shown_error {result : Except Failure Download} {failure : Failure}
    (h : shown out a result = .error failure) :
    failure = .recording ∧ result = .error .recording := by
  cases result with
  | ok download => cases h
  | error f =>
    cases f with
    | recording => exact ⟨(Except.error.inj h).symm, rfl⟩
    | timeout => cases h
    | other code => cases h

theorem body_shown {result : Except Failure Download} (h : shown out a result = .ok fields)
    (view : View) :
    len (body (Value.extend view fields)) ≤ len (body view) + text_size out fields := by
  rcases shown_cases h with ⟨s, rfl⟩ | ⟨size, u, cut, rfl, hu⟩
  · rw [body_note]
    exact Nat.le_add_right _ _
  · rw [body_quote]
    exact (len_le_text_size hu).trans (Nat.le_add_left _ _)

theorem allowed_insert {key : String} (hkey : key ∈ FIELDS) (value : Value) (h : Allowed view) :
    Allowed (Value.insert key value view) := by
  intro kv hkv
  rcases Value.mem_insert hkv with rfl | hkv
  · exact hkey
  · exact h kv hkv

theorem allowed_extend (hfields : Allowed fields) (h : Allowed view) :
    Allowed (Value.extend view fields) := by
  unfold Value.extend
  induction fields generalizing view with
  | nil => exact h
  | cons kv fields ih =>
    have hrest := List.forall_mem_cons.mp hfields
    exact ih hrest.2 (allowed_insert hrest.1 kv.2 h)

theorem allowed_base (a : Attachment) : Allowed (base a) := by
  refine allowed_extend ?_ (List.forall_mem_nil _)
  simp [Allowed, FIELDS]

theorem allowed_shown {result : Except Failure Download} (h : shown out a result = .ok fields) :
    Allowed fields := by
  rcases shown_cases h with ⟨s, rfl⟩ | ⟨size, u, cut, rfl, -⟩
  · simp [Allowed, FIELDS, note]
  · simp [Allowed, FIELDS, quote]

end View

/-! ## All views -/

section Views

variable {out : Outside} {own : List String} {views : Views} {f : View → View} {event : String}
  {index : Nat}

def keys (views : Views) : List String := views.map (·.1)

/-- The room that the quoted texts take. -/
def total (views : Views) : Nat := (views.map fun e => (e.2.map fun v => len (body v)).sum).sum

theorem update_of (e : String) :
    (update f event index views).of e =
      if e = event then (views.of e).modify index f else views.of e := by
  unfold Views.of update
  induction views with
  | nil => simp
  | cons p views ih =>
    obtain ⟨k, vs⟩ := p
    rw [List.map_cons]
    by_cases he : e = k
    · subst he
      by_cases hk : e = event
      · simp [hk]
      · simp [hk]
    · dsimp only
      split
      · rw [Value.lookup_ne he, Value.lookup_ne he, ih]
      · rw [Value.lookup_ne he, Value.lookup_ne he, ih]

theorem keys_update : keys (update f event index views) = keys views := by
  unfold keys update
  rw [List.map_map]
  refine List.map_congr_left fun e _ => ?_
  rw [Function.comp_apply]
  split <;> rfl

theorem keys_push (view : View) :
    keys (push event view views) =
      if event ∈ keys views then keys views else keys views ++ [event] := by
  unfold keys
  induction views with
  | nil => rfl
  | cons p views ih =>
    obtain ⟨k, vs⟩ := p
    unfold push
    by_cases hk : k = event
    · simp [hk]
    · rw [if_neg hk, List.map_cons, ih]
      simp only [List.map_cons, List.mem_cons, Ne.symm hk, false_or]
      split <;> rfl

theorem total_push (view : View) :
    total (push event view views) = total views + len (body view) := by
  unfold total
  induction views with
  | nil => simp [push]
  | cons p views ih =>
    obtain ⟨k, vs⟩ := p
    unfold push
    split
    · simp
      omega
    · rw [List.map_cons, List.sum_cons, ih, List.map_cons, List.sum_cons]
      omega

theorem sum_modify {n : Nat} (hf : ∀ v, len (body (f v)) ≤ len (body v) + n) (vs : List View)
    (i : Nat) :
    ((vs.modify i f).map fun v => len (body v)).sum ≤ (vs.map fun v => len (body v)).sum + n := by
  induction vs generalizing i with
  | nil => simp
  | cons v vs ih =>
    cases i with
    | zero =>
      have hv := hf v
      simp
      omega
    | succ i =>
      have hrest := ih i
      simp
      omega

theorem update_absent (h : event ∉ keys views) : update f event index views = views := by
  unfold update
  refine (List.map_congr_left fun e he => ?_).trans (List.map_id _)
  have hne : e.1 ≠ event := fun heq => h (heq ▸ List.mem_map_of_mem he)
  rw [if_neg hne]
  rfl

/-- One view that grows makes the total grow by no more. -/
theorem total_update {n : Nat} (hkeys : (keys views).Nodup)
    (hf : ∀ v, len (body (f v)) ≤ len (body v) + n) :
    total (update f event index views) ≤ total views + n := by
  induction views with
  | nil => exact Nat.zero_le _
  | cons p views ih =>
    obtain ⟨k, vs⟩ := p
    have hcons := List.nodup_cons.mp hkeys
    have hparts : total (update f event index ((k, vs) :: views)) =
        ((if k = event then vs.modify index f else vs).map fun v => len (body v)).sum +
          total (update f event index views) := by
      unfold total update
      rw [List.map_cons, List.map_cons, List.sum_cons]
      split <;> rfl
    have hwhole : total ((k, vs) :: views) = (vs.map fun v => len (body v)).sum + total views := rfl
    rw [hparts, hwhole]
    by_cases hk : k = event
    · rw [if_pos hk, update_absent (hk ▸ hcons.1)]
      have hmodify := sum_modify hf vs index
      omega
    · rw [if_neg hk]
      have hrest := ih hcons.2
      omega

theorem after_total (own : List String) (occ : Occurrences) :
    total (after own occ).views = 0 ∧ (keys (after own occ).views).Nodup := by
  induction occ using List.reverseRecOn with
  | nil => exact ⟨rfl, List.nodup_nil⟩
  | append_singleton occ p ih =>
    have hviews : (after own (occ ++ [p])).views =
        push p.1 (first_view own (after own occ) p.2) (after own occ).views := by
      rw [after_append]
      change (attach own p.1 (after own occ) p.2).views = _
      unfold attach first_view
      cases refusal own (after own occ) p.2 <;> rfl
    have hbody : body (first_view own (after own occ) p.2) = [] := by
      unfold first_view
      cases refusal own (after own occ) p.2 with
      | none => exact body_base p.2
      | some n => exact (body_noted n _).trans (body_base p.2)
    rw [hviews, total_push, ih.1, hbody, keys_push]
    refine ⟨rfl, ?_⟩
    split
    next => exact ih.2
    next hnew =>
      rw [List.nodup_append]
      refine ⟨ih.2, List.pairwise_singleton _ _, fun a ha b hb heq => hnew ?_⟩
      rw [← List.mem_singleton.mp hb, ← heq]
      exact ha

end Views

/-! ## Filling the views -/

section Filling

variable {out : Outside} {s t : Filled} {c : Chosen} {fields : View}
  {l : List (Chosen × Except Failure Download)} {failure : Failure}

/-- What a read makes of a view, when so much text is shown already. -/
def filled (out : Outside) (used : Nat) (fields view : View) : View :=
  if 0 < text_size out fields ∧ used + text_size out fields > out.TOTAL_LIMIT then noted OVER view
  else Value.extend view fields

/-- The text that is shown in the views of these files. -/
def counted (out : Outside) (views : Views) (cs : List Chosen) : Nat :=
  (cs.map fun c => text_size out ((views.of c.event)[c.index]?.getD [])).sum

theorem text_size_congr {v : View} (h : v.lookup "text" = view.lookup "text") :
    text_size out v = text_size out view := by
  unfold text_size
  rw [h]

theorem text_size_noted (n : String) (a : Attachment) : text_size out (noted n (base a)) = 0 := by
  unfold text_size
  rw [noted, Value.lookup_insert_ne (by decide), base_text]
  rfl

theorem text_size_shown {a : Attachment} {result : Except Failure Download}
    (h : shown out a result = .ok fields) :
    text_size out (Value.extend (base a) fields) = text_size out fields := by
  refine text_size_congr ?_
  rcases shown_cases h with ⟨s, rfl⟩ | ⟨size, u, cut, rfl, -⟩
  · rw [Value.lookup_extend, base_text, Option.or_none]
    rfl
  · rw [Value.lookup_extend, base_text, Option.or_none]
    rfl

theorem fill_views (out : Outside) (s : Filled) (c : Chosen) (fields : View) :
    (fill out s c fields).views =
      update (filled out s.used fields) c.event c.index s.views := by
  unfold fill filled
  dsimp only
  split <;> rfl

theorem fill_used {result : Except Failure Download} (h : shown out c.a result = .ok fields) :
    (fill out s c fields).used = s.used + text_size out (filled out s.used fields (base c.a)) := by
  unfold fill filled
  dsimp only
  split
  · rw [text_size_noted, Nat.add_zero]
  · rw [text_size_shown h]

/-- The texts that are shown are within what is counted, and that is within the limit. -/
structure Fits (out : Outside) (s : Filled) : Prop where
  keys : (keys s.views).Nodup
  total : total s.views ≤ s.used
  used : s.used ≤ out.TOTAL_LIMIT

theorem fill_fits (h : Fits out s) {result : Except Failure Download}
    (hshown : shown out c.a result = .ok fields) : Fits out (fill out s c fields) := by
  unfold fill
  dsimp only
  split
  · refine ⟨keys_update.symm ▸ h.keys, ?_, h.used⟩
    have hgrow : total (update (noted OVER) c.event c.index s.views) ≤ total s.views + 0 := by
      refine total_update h.keys fun v => ?_
      rw [body_noted]
      exact Nat.le_refl _
    exact hgrow.trans h.total
  next hfits =>
    refine ⟨keys_update.symm ▸ h.keys, ?_, ?_⟩
    · have hgrow : total (update (Value.extend · fields) c.event c.index s.views) ≤
          total s.views + text_size out fields := total_update h.keys (body_shown hshown)
      have htotal := h.total
      exact hgrow.trans (by dsimp only; omega)
    · have hused := h.used
      dsimp only
      omega

theorem fill_all_ok {result : Except Failure Download}
    (h : fill_all out s ((c, result) :: l) = .ok t) :
    ∃ fields, shown out c.a result = .ok fields ∧ fill_all out (fill out s c fields) l = .ok t := by
  rw [fill_all] at h
  split at h
  next => cases h
  next fields hshown => exact ⟨fields, hshown, h⟩

theorem fill_all_fits (h : Fits out s) (hfill : fill_all out s l = .ok t) : Fits out t := by
  induction l generalizing s with
  | nil => exact Except.ok.inj hfill ▸ h
  | cons p l ih =>
    obtain ⟨fields, hshown, hrest⟩ := fill_all_ok hfill
    exact ih (fill_fits h hshown) hrest

theorem fill_all_error (h : fill_all out s l = .error failure) :
    failure = .recording ∧ ∃ p ∈ l, p.2 = .error .recording := by
  induction l generalizing s with
  | nil => cases h
  | cons p l ih =>
    obtain ⟨c, result⟩ := p
    rw [fill_all] at h
    split at h
    next f hshown =>
      obtain ⟨hf, hresult⟩ := shown_error hshown
      exact ⟨(Except.error.inj h).symm.trans hf, (c, result), List.mem_cons_self, hresult⟩
    next fields hshown =>
      obtain ⟨hf, p, hp, hresult⟩ := ih h
      exact ⟨hf, p, List.mem_cons_of_mem _ hp, hresult⟩

theorem fill_all_length (hfill : fill_all out s l = .ok t) (e : String) :
    (t.views.of e).length = (s.views.of e).length := by
  induction l generalizing s with
  | nil => rw [Except.ok.inj hfill]
  | cons p l ih =>
    obtain ⟨fields, -, hrest⟩ := fill_all_ok hfill
    rw [ih hrest, fill_views, update_of]
    split
    · exact List.length_modify ..
    · rfl

theorem fill_all_other (hfill : fill_all out s l = .ok t) {e : String} {i : Nat}
    (h : ∀ p ∈ l, ¬ (p.1.event = e ∧ p.1.index = i)) :
    (t.views.of e)[i]? = (s.views.of e)[i]? := by
  induction l generalizing s with
  | nil => rw [Except.ok.inj hfill]
  | cons p l ih =>
    obtain ⟨fields, -, hrest⟩ := fill_all_ok hfill
    obtain ⟨hp, hl⟩ := List.forall_mem_cons.mp h
    rw [ih hrest hl, fill_views, update_of]
    split
    next he =>
      rw [List.getElem?_modify_ne]
      exact fun hi => hp ⟨he.symm, hi⟩
    next => rfl

/-- What was read of a file is in its view, unless the texts before it leave no room. -/
theorem fill_all_read (hfill : fill_all out s l = .ok t)
    (hplaces : (l.map fun p => (p.1.event, p.1.index)).Nodup)
    (hbase : ∀ p ∈ l, (s.views.of p.1.event)[p.1.index]? = some (base p.1.a)) {j : Nat}
    {p : Chosen × Except Failure Download} (hp : l[j]? = some p) :
    ∃ fields, shown out p.1.a p.2 = .ok fields ∧ (t.views.of p.1.event)[p.1.index]? =
      some (filled out (s.used + counted out t.views ((l.take j).map (·.1))) fields
        (base p.1.a)) := by
  induction l generalizing s j with
  | nil => cases hp
  | cons q l ih =>
    obtain ⟨fields, hshown, hrest⟩ := fill_all_ok hfill
    obtain ⟨hq, hl⟩ := List.forall_mem_cons.mp hbase
    rw [List.map_cons, List.nodup_cons] at hplaces
    have hother : ∀ r ∈ l, ¬ (r.1.event = q.1.event ∧ r.1.index = q.1.index) := by
      rintro r hr ⟨he, hi⟩
      refine hplaces.1 (List.mem_map.mpr ⟨r, hr, ?_⟩)
      rw [he, hi]
    have hview : (t.views.of q.1.event)[q.1.index]? =
        some (filled out s.used fields (base q.1.a)) := by
      rw [fill_all_other hrest hother, fill_views, update_of, if_pos rfl,
        List.getElem?_modify_eq, hq]
      rfl
    cases j with
    | zero =>
      obtain rfl := Option.some.inj hp
      exact ⟨fields, hshown, hview⟩
    | succ j =>
      -- The other places are not touched by this read.
      have hkept : ∀ r ∈ l,
          ((fill out s q.1 fields).views.of r.1.event)[r.1.index]? = some (base r.1.a) := by
        intro r hr
        rw [fill_views, update_of]
        split
        next he =>
          rw [List.getElem?_modify_ne, hl r hr]
          exact fun hi => hother r hr ⟨he, hi.symm⟩
        next => exact hl r hr
      have hcount : (fill out s q.1 fields).used + counted out t.views ((l.take j).map (·.1)) =
          s.used + counted out t.views (((q :: l).take (j + 1)).map (·.1)) := by
        rw [fill_used hshown, List.take_succ_cons, List.map_cons, counted, counted, List.map_cons,
          List.sum_cons, hview, Option.getD_some, Nat.add_assoc]
      rw [← hcount]
      exact ih hrest hplaces.2 hkept hp

end Filling

/-! ## Reading -/

section Reading

variable {out : Outside} {own : List String} {answers : Nat → Answer} {messages : List Value}

def Call.is_download : Call → Bool
  | .download _ _ => true
  | .resolve _ => false

/-- What was read of an attachment, or that it is over the limit with what is shown already. -/
def Displays (out : Outside) (used : Nat) (a : Attachment) (result : Except Failure Download)
    (view : View) : Prop :=
  ∃ fields, shown out a result = .ok fields ∧ view = filled out used fields (base a)

theorem fetch_once (answer : Answer) (a : Attachment) :
    (fetch answer a).1.countP Call.is_download ≤ 1 := by
  unfold fetch
  split
  · split
    · exact Nat.zero_le _
    · exact Nat.le_refl _
  · exact Nat.le_refl _

theorem scan_after (own : List String) (messages : List Value) :
    (scan own messages).views = (after own (occurrences [] messages)).views ∧
      (scan own messages).chosen = (after own (occurrences [] messages)).chosen := by
  obtain ⟨seen, h⟩ := scan_eq own messages
  rw [h]
  exact ⟨rfl, rfl⟩

/-- The files that are read, with what the downloader answers. -/
def results (own : List String) (answers : Nat → Answer) (messages : List Value) :
    List (Chosen × Except Failure Download) :=
  (after own (occurrences [] messages)).chosen.zipIdx.map fun c =>
    (c.1, (fetch (answers c.2) c.1.a).2)

theorem reads_eq :
    (read out own answers messages).reads =
      (after own (occurrences [] messages)).chosen.zipIdx.map fun c =>
        (c.1, (fetch (answers c.2) c.1.a).1) := by
  unfold read
  dsimp only
  rw [(scan_after own messages).2, List.map_map]
  rfl

theorem result_eq :
    (read out own answers messages).result =
      (fill_all out ⟨0, (after own (occurrences [] messages)).views⟩
        (results own answers messages)).map (·.views) := by
  unfold read results
  dsimp only
  rw [(scan_after own messages).1, (scan_after own messages).2, List.map_map]
  rfl

theorem result_ok {views : Views} (h : (read out own answers messages).result = .ok views) :
    ∃ t, fill_all out ⟨0, (after own (occurrences [] messages)).views⟩
      (results own answers messages) = .ok t ∧ t.views = views := by
  rw [result_eq] at h
  cases hfill : fill_all out ⟨0, (after own (occurrences [] messages)).views⟩
      (results own answers messages) with
  | error f =>
    rw [hfill] at h
    cases h
  | ok t =>
    rw [hfill] at h
    exact ⟨t, rfl, Except.ok.inj h⟩

theorem result_error {failure : Failure}
    (h : (read out own answers messages).result = .error failure) :
    fill_all out ⟨0, (after own (occurrences [] messages)).views⟩
      (results own answers messages) = .error failure := by
  rw [result_eq] at h
  cases hfill : fill_all out ⟨0, (after own (occurrences [] messages)).views⟩
      (results own answers messages) with
  | ok t =>
    rw [hfill] at h
    cases h
  | error f =>
    rw [hfill] at h
    rw [Except.error.inj h]

theorem reads_chosen (out : Outside) (own : List String) (answers : Nat → Answer)
    (messages : List Value) :
    (read out own answers messages).reads.map (·.1) =
      (after own (occurrences [] messages)).chosen := by
  rw [reads_eq, List.map_map]
  exact List.zipIdx_map_fst ..

theorem results_chosen (own : List String) (answers : Nat → Answer) (messages : List Value) :
    (results own answers messages).map (·.1) = (after own (occurrences [] messages)).chosen := by
  unfold results
  rw [List.map_map]
  exact List.zipIdx_map_fst ..

theorem mem_reads {c : Chosen} :
    (∃ r ∈ (read out own answers messages).reads, r.1 = c) ↔
      c ∈ (after own (occurrences [] messages)).chosen := by
  rw [← reads_chosen out own answers, List.mem_map]

theorem results_other {event : String} {i : Nat}
    (h : ∀ c ∈ (after own (occurrences [] messages)).chosen, ¬ (c.event = event ∧ c.index = i)) :
    ∀ p ∈ results own answers messages, ¬ (p.1.event = event ∧ p.1.index = i) := by
  intro p hp
  refine h p.1 ?_
  rw [← results_chosen own answers]
  exact List.mem_map_of_mem hp

theorem results_get {j : Nat} {r : Chosen × List Call}
    (h : (read out own answers messages).reads[j]? = some r) :
    (results own answers messages)[j]? = some (r.1, (fetch (answers j) r.1.a).2) ∧
      r.2 = (fetch (answers j) r.1.a).1 := by
  rw [reads_eq, List.getElem?_map, List.getElem?_zipIdx] at h
  unfold results
  rw [List.getElem?_map, List.getElem?_zipIdx]
  cases hc : (after own (occurrences [] messages)).chosen[j]? with
  | none =>
    rw [hc] at h
    cases h
  | some c =>
    rw [hc, Option.map_some, Option.map_some, Nat.zero_add] at h
    rw [← Option.some.inj h, Option.map_some, Option.map_some, Nat.zero_add]
    exact ⟨rfl, rfl⟩

theorem places_nodup (own : List String) (occ : Occurrences) :
    ((after own occ).chosen.map fun c => (c.event, c.index)).Nodup := by
  have hids := chosen_nodup own occ
  refine List.Nodup.map_on ?_ (List.Nodup.of_map _ hids)
  intro c hc c' hc' heq
  obtain ⟨hevent, hindex⟩ := Prod.mk.inj heq
  have ha := (chosen_spec hc).2.2
  have ha' := (chosen_spec hc').2.2
  rw [hevent, hindex, ha'] at ha
  refine List.inj_on_of_nodup_map hids hc hc' ?_
  exact congrArg Attachment.id (Option.some.inj ha).symm

theorem start_fits (out : Outside) (own : List String) (occ : Occurrences) :
    Fits out ⟨0, (after own occ).views⟩ :=
  ⟨(after_total own occ).2, Nat.le_of_eq (after_total own occ).1, Nat.zero_le _⟩

/-- The views of an event, one for each of its attachments. -/
structure Viewed (out : Outside) (own : List String) (answers : Nat → Answer)
    (messages : List Value) (views : Views) : Prop where
  length : ∀ event, (views.of event).length = (attachments_of messages event).length
  /-- What is read of a file is shown where the file is, if it fits with what the files read before
  it show. -/
  read : ∀ j r, (read out own answers messages).reads[j]? = some r →
    ∃ view, (views.of r.1.event)[r.1.index]? = some view ∧ Allowed view ∧
      Displays out
        (counted out views (((Files.read out own answers messages).reads.take j).map (·.1)))
        r.1.a (fetch (answers j) r.1.a).2 view
  /-- Of the other files it is noted why they are not read. -/
  noted : ∀ event i a, (attachments_of messages event)[i]? = some a →
    (∀ r ∈ (Files.read out own answers messages).reads, ¬ (r.1.event = event ∧ r.1.index = i)) →
    ∃ n, (views.of event)[i]? = some (noted n (base a))

theorem allowed_filled {a : Attachment} {result : Except Failure Download} {fields view : View}
    (h : shown out a result = .ok fields) (used : Nat) (hview : Allowed view) :
    Allowed (filled out used fields view) := by
  unfold filled
  split
  · exact allowed_insert (by simp [FIELDS]) _ hview
  · exact allowed_extend (allowed_shown h) hview

theorem viewed {t : Filled}
    (h : fill_all out ⟨0, (after own (occurrences [] messages)).views⟩
      (results own answers messages) = .ok t) : Viewed out own answers messages t.views := by
  have hof : ∀ event, of_event (occurrences [] messages) event = attachments_of messages event :=
    fun event => of_event_occurrences List.not_mem_nil
  refine ⟨?_, ?_, ?_⟩
  · intro event
    rw [fill_all_length h, after_length, hof]
  · intro j r hr
    have hbase : ∀ p ∈ results own answers messages,
        ((after own (occurrences [] messages)).views.of p.1.event)[p.1.index]? =
          some (base p.1.a) := by
      intro p hp
      have hchosen : p.1 ∈ (after own (occurrences [] messages)).chosen := by
        rw [← results_chosen own answers]
        exact List.mem_map_of_mem hp
      rcases chosen_or_noted own (chosen_spec hchosen).2.2 with ⟨-, hview⟩ | ⟨hno, -⟩
      · exact hview
      · exact absurd ⟨rfl, rfl⟩ (hno p.1 hchosen)
    have hplaces : ((results own answers messages).map fun p => (p.1.event, p.1.index)).Nodup := by
      have heq : (results own answers messages).map (fun p => (p.1.event, p.1.index)) =
          ((results own answers messages).map (·.1)).map fun c => (c.event, c.index) := by
        rw [List.map_map]
        rfl
      rw [heq, results_chosen]
      exact places_nodup own _
    have hbefore : ((results own answers messages).take j).map (·.1) =
        ((Files.read out own answers messages).reads.take j).map (·.1) := by
      rw [List.map_take, results_chosen, List.map_take, reads_chosen]
    obtain ⟨fields, hshown, hfilled⟩ := fill_all_read h hplaces hbase (results_get hr).1
    rw [Nat.zero_add, hbefore] at hfilled
    exact ⟨_, hfilled, allowed_filled hshown _ (allowed_base _), fields, hshown, rfl⟩
  · intro event i a ha hno
    have hchosen : ∀ c ∈ (after own (occurrences [] messages)).chosen,
        ¬ (c.event = event ∧ c.index = i) := by
      intro c hc
      obtain ⟨r, hr, rfl⟩ := mem_reads.mpr hc
      exact hno r hr
    rw [← hof] at ha
    rw [fill_all_other h (results_other hchosen)]
    rcases chosen_or_noted own ha with ⟨hin, -⟩ | ⟨-, b, n, -, -, hview⟩
    · exact absurd ⟨rfl, rfl⟩ (hchosen _ hin)
    · exact ⟨n, hview⟩

/-- Every view has only the fields of a view. -/
def AllAllowed (views : Views) : Prop := ∀ e ∈ views, ∀ view ∈ e.2, Allowed view

theorem allowed_push {views : Views} {event : String} {view : View} (hview : Allowed view)
    (h : AllAllowed views) : AllAllowed (push event view views) := by
  induction views with
  | nil => simpa [push, AllAllowed] using hview
  | cons p views ih =>
    obtain ⟨hp, hviews⟩ := List.forall_mem_cons.mp h
    unfold push
    split
    · refine List.forall_mem_cons.mpr ⟨fun v hv => ?_, hviews⟩
      rcases List.mem_append.mp hv with hv | hv
      · exact hp v hv
      · exact List.mem_singleton.mp hv ▸ hview
    · exact List.forall_mem_cons.mpr ⟨hp, ih hviews⟩

theorem allowed_update {views : Views} {event : String} {index : Nat} {f : View → View}
    (hf : ∀ v, Allowed v → Allowed (f v)) (h : AllAllowed views) :
    AllAllowed (update f event index views) := by
  intro e he
  obtain ⟨e', he', rfl⟩ := List.mem_map.mp he
  have hviews := h e' he'
  split
  · intro v hv
    obtain ⟨i, hi⟩ := List.getElem?_of_mem hv
    rw [List.getElem?_modify] at hi
    obtain ⟨v', hv', rfl⟩ := Option.map_eq_some_iff.mp hi
    have hold := hviews v' (List.mem_of_getElem? hv')
    split
    · exact hf v' hold
    · exact hold
  · exact hviews

theorem allowed_attach {s : Scan} (event : String) (a : Attachment) (h : AllAllowed s.views) :
    AllAllowed (attach own event s a).views := by
  unfold attach
  dsimp only
  split
  · exact allowed_push (allowed_insert (by simp [FIELDS]) _ (allowed_base a)) h
  · exact allowed_push (allowed_base a) h

theorem allowed_attach_all (occ : Occurrences) {s : Scan} (h : AllAllowed s.views) :
    AllAllowed (attach_all own occ s).views := by
  induction occ generalizing s with
  | nil => exact h
  | cons p occ ih => exact ih (allowed_attach p.1 p.2 h)

theorem allowed_fill_all {s t : Filled} {l : List (Chosen × Except Failure Download)}
    (h : AllAllowed s.views) (hfill : fill_all out s l = .ok t) : AllAllowed t.views := by
  induction l generalizing s with
  | nil => exact Except.ok.inj hfill ▸ h
  | cons p l ih =>
    obtain ⟨fields, hshown, hrest⟩ := fill_all_ok hfill
    refine ih ?_ hrest
    rw [fill_views]
    exact allowed_update (fun v hv => allowed_filled hshown s.used hv) h

theorem read_allowed {views : Views} (h : (read out own answers messages).result = .ok views) :
    AllAllowed views := by
  obtain ⟨t, hfill, rfl⟩ := result_ok h
  have hstart : AllAllowed (after own (occurrences [] messages)).views :=
    allowed_attach_all _ (s := ⟨[], [], [], []⟩) fun e he => by cases he
  exact allowed_fill_all hstart hfill

/-- At most three files are read, each once, all of them texts of others. Each attachment of a
message with an event has its view, with what was read of it, and the texts are within the limit.
Only a recording failure makes reading fail. -/
theorem read_spec (out : Outside) (own : List String) (answers : Nat → Answer)
    (messages : List Value) :
    let o := read out own answers messages
    (o.reads.length ≤ MAX_FILES ∧ (o.reads.map (·.1.a.id)).Nodup ∧
      ∀ r ∈ o.reads, r.1.a.id ∉ own ∧ is_text r.1.a ∧ r.2.countP Call.is_download ≤ 1 ∧
        (attachments_of messages r.1.event)[r.1.index]? = some r.1.a) ∧
    (∀ failure, o.result = .error failure → failure = .recording ∧
      ∃ j r, o.reads[j]? = some r ∧ (fetch (answers j) r.1.a).2 = .error .recording) ∧
    ∀ views, o.result = .ok views →
      Viewed out own answers messages views ∧ total views ≤ out.TOTAL_LIMIT := by
  have hchosen := reads_chosen out own answers messages
  refine ⟨⟨?_, ?_, fun r hr => ?_⟩, fun failure h => ?_, fun views h => ?_⟩
  · rw [← List.length_map (f := (·.1)), hchosen]
    exact chosen_few own _
  · have hids := chosen_nodup own (occurrences [] messages)
    rwa [← hchosen, List.map_map] at hids
  · have hin : r.1 ∈ (after own (occurrences [] messages)).chosen := by
      rw [← hchosen]
      exact List.mem_map_of_mem hr
    obtain ⟨hown, htext, hplace⟩ := chosen_spec hin
    rw [of_event_occurrences List.not_mem_nil] at hplace
    refine ⟨hown, htext, ?_, hplace⟩
    obtain ⟨j, hj⟩ := List.getElem?_of_mem hr
    rw [(results_get hj).2]
    exact fetch_once _ _
  · obtain ⟨hf, p, hp, hresult⟩ := fill_all_error (result_error h)
    obtain ⟨⟨c, j⟩, hc, rfl⟩ := List.mem_map.mp hp
    refine ⟨hf, j, (c, (fetch (answers j) c.a).1), ?_, hresult⟩
    rw [reads_eq, List.getElem?_map, List.getElem?_zipIdx, List.mem_zipIdx_iff_getElem?.mp hc,
      Option.map_some, Option.map_some, Nat.zero_add]
  · obtain ⟨t, hfill, rfl⟩ := result_ok h
    have hfits := fill_all_fits (start_fits out own _) hfill
    exact ⟨viewed hfill, hfits.total.trans hfits.used⟩

/-- A message that has a file and no event. -/
def stray : Value :=
  .object [("attachments", .array [.object [("id", .string "F1"), ("name", .string "a.txt")]])]

theorem no_view_without_event :
    (attachments stray).length = 1 ∧
      (read ⟨65536, fun _ => ""⟩ [] (fun _ => ⟨none, none⟩) [stray]).result = .ok [] :=
  ⟨rfl, rfl⟩

end Reading

end Fridica.Slack.Files
