import Fridica.Config.Migrate.Spec
import Fridica.Lib.Infix

/-!
# Lifting and folding in

What is taken out of a table of limits, and what a table of attention is after it was written: the
comments of each key that is taken, and every other key as it was.
-/

namespace Fridica.Config.Migrate

open Fridica.Checked Fridica.Layout
open Fridica.Lines (Text NEWLINE trim)

variable {σ φ : Type}

/-! ## Comments -/

section Comments

variable {s t : Text} {raw : Option Text}

/-- Text that ends with its last line. -/
def Closed (t : Text) : Prop := t = [] ∨ ∃ u, t = u ++ [NEWLINE]

theorem Closed.append (hs : Closed s) (ht : Closed t) : Closed (s ++ t) := by
  rcases ht with rfl | ⟨u, rfl⟩
  · simpa using hs
  · exact .inr ⟨s ++ u, by simp⟩

theorem Closed.content_append (hs : Closed s) (t : Text) :
    Lines.content (s ++ t) = Lines.content s ++ Lines.content t := by
  rcases hs with rfl | ⟨u, rfl⟩
  · rfl
  · rw [List.append_assoc, List.singleton_append, Lines.content_newline, Lines.content_newline,
      Lines.content_nil, List.append_nil]

theorem lift_closed : Closed (lift raw) := by
  unfold lift
  split
  · split
    · exact .inr ⟨_, rfl⟩
    · exact .inl rfl
  · exact .inl rfl

theorem mem_of_content {c : Text} (h : c ∈ Lines.content s) : ∀ x ∈ c, x ∈ s := by
  obtain ⟨hmem, -⟩ := List.mem_filter.mp h
  obtain ⟨w, hw, rfl⟩ := List.mem_map.mp hmem
  rw [List.splitOn_eq_splitOnP] at hw
  obtain ⟨a, b, hsplit, -⟩ := Lines.exists_trim w
  intro x hx
  apply ((Infix.splitOnP_parts _ s).2 w hw).subset
  rw [hsplit]
  simp [hx]

theorem content_lift (h : ∀ s ∈ raw, Remarks s) : Lines.content (lift raw) = remarks raw := by
  unfold lift remarks
  cases raw with
  | none => rfl
  | some s =>
    dsimp only
    split
    · rw [Lines.content_newline, Lines.content_trim, Lines.content_nil, List.append_nil]
      rfl
    next hhash =>
      have hnil : Lines.content s = [] := by
        rw [List.eq_nil_iff_forall_not_mem]
        intro c hc
        obtain ⟨rest, rfl⟩ := List.head?_eq_some_iff.mp (h s rfl c hc)
        exact hhash (mem_of_content hc '#' List.mem_cons_self)
      rw [Option.getD_some, hnil, Lines.content_nil]

theorem lift_decor_closed (d : Decor) : Closed (lift_decor d) := lift_closed.append lift_closed

theorem content_lift_decor {d : Decor} (hb : ∀ s ∈ d.before, Remarks s)
    (ha : ∀ s ∈ d.after, Remarks s) : Lines.content (lift_decor d) = d.remarks := by
  unfold lift_decor Decor.remarks
  rw [lift_closed.content_append, content_lift hb, content_lift ha]

theorem Blank.remarks (h : Blank s) : Remarks s := by
  intro c hc
  rw [Lines.content_blank h.blank] at hc
  cases hc

theorem Leading.append (hs : Closed s) (hremarks : Remarks s) (ht : Leading t) :
    Leading (s ++ t) := by
  constructor
  · intro c hc
    rw [hs.content_append] at hc
    rcases List.mem_append.mp hc with hc | hc
    · exact hremarks c hc
    · exact ht.remarks c hc
  · rcases hs with rfl | ⟨u, rfl⟩
    · exact ht.ends
    · rw [List.append_assoc, List.singleton_append, List.splitOn_append_cons_self,
        List.getLast?_append_of_ne_nil _ (List.splitOn_ne_nil _ _)]
      exact ht.ends

theorem leading_nil : Leading [] := ⟨by simp [Remarks, Lines.content_nil], by simp; rfl⟩

end Comments

/-! ## Lifting -/

section Lifting

variable {table : Entries σ φ} {st st' : Lifted σ φ} {key : String} {keys : List String}

/-- The limit under a key of a table. -/
def limit_in (table : Entries σ φ) (key : String) : Option Int :=
  (find key table).bind (·.2.as_integer)

/-- The comments of a value in a table. -/
def comments_in (table : Entries σ φ) (key : String) : List Text :=
  ((((find key table).bind as_value).map say).map (·.comments)).getD []

theorem as_integer_some {item : Item σ φ} {n : Int} (h : item.as_integer = some n) :
    ∃ decor format, item = .value (.integer n decor format) := by
  unfold Item.as_integer at h
  split at h
  · obtain rfl := Option.some.inj h
    exact ⟨_, _, rfl⟩
  · cases h

theorem lift_key_ok (h : lift_key st key = .ok st') : (find key st.table = none ∧ st' = st) ∨
    ∃ k n decor format, find key st.table = some (k, .value (.integer n decor format)) ∧ 0 < n ∧
      st' = ⟨remove key st.table, st.legacy ++ [n],
        st.comments ++ lift_decor k.leaf_decor ++ lift_decor decor⟩ := by
  unfold lift_key at h
  split at h
  next hnone => exact .inl ⟨hnone, (Except.ok.inj h).symm⟩
  next k item hfound =>
    split at h
    · cases h
    next n hn =>
      obtain ⟨hint, hpos⟩ := Option.filter_eq_some_iff.mp hn
      obtain ⟨decor, format, rfl⟩ := as_integer_some hint
      exact .inr ⟨k, n, decor, format, hfound, by simpa using hpos, (Except.ok.inj h).symm⟩

/-- What lifting some keys out of a table leaves and collects. -/
structure Lifts (keys : List String) (st st' : Lifted σ φ) : Prop where
  same : ∀ name, name ∉ keys → find name st'.table = find name st.table
  gone : ∀ key ∈ keys, find key st'.table = none
  flat : ∀ key ∈ keys, ∀ e, find key st.table = some e → ∃ v, e.2 = .value v
  positive : ∀ key ∈ keys, ∀ n ∈ limit_in st.table key, 0 < n
  legacy : st'.legacy = st.legacy ++ keys.filterMap (limit_in st.table)
  unchanged : st'.legacy = st.legacy → st' = st

theorem lift_key_lifts (h : lift_key st key = .ok st') : Lifts [key] st st' := by
  rcases lift_key_ok h with ⟨hnone, rfl⟩ | ⟨k, n, decor, format, hfound, hpos, rfl⟩
  · constructor <;> simp [hnone, limit_in]
  · constructor
    · intro name hname
      exact find_remove (by simpa using hname)
    · simp
    · simp [hfound]
    · simpa [limit_in, hfound, Item.as_integer] using hpos
    · simp [limit_in, hfound, Item.as_integer]
    · simp

theorem Lifts.cons {st'' : Lifted σ φ} (hnot : key ∉ keys) (h : Lifts [key] st st')
    (h' : Lifts keys st' st'') : Lifts (key :: keys) st st'' := by
  have hsame : ∀ k ∈ keys, find k st'.table = find k st.table := by
    intro k hk
    apply h.same
    simp
    rintro rfl
    exact hnot hk
  have hlimit : ∀ k ∈ keys, limit_in st'.table k = limit_in st.table k := by
    intro k hk
    rw [limit_in, hsame k hk, limit_in]
  constructor
  · intro name hname
    simp only [List.mem_cons, not_or] at hname
    rw [h'.same name hname.2, h.same name (by simpa using hname.1)]
  · intro k hk
    rcases List.mem_cons.mp hk with rfl | hk
    · rw [h'.same k hnot]
      exact h.gone k (by simp)
    · exact h'.gone k hk
  · intro k hk
    rcases List.mem_cons.mp hk with rfl | hk
    · exact h.flat k (by simp)
    · rw [← hsame k hk]
      exact h'.flat k hk
  · intro k hk
    rcases List.mem_cons.mp hk with rfl | hk
    · exact h.positive k (by simp)
    · rw [← hlimit k hk]
      exact h'.positive k hk
  · have hrest : keys.filterMap (limit_in st'.table) = keys.filterMap (limit_in st.table) :=
      List.filterMap_congr hlimit
    rw [h'.legacy, h.legacy, hrest, List.append_assoc, ← List.filterMap_append,
      List.singleton_append]
  · intro hlegacy
    -- Both steps only append to the limits, so neither appended one.
    have hboth : keys.filterMap (limit_in st'.table) = [] ∧
        [key].filterMap (limit_in st.table) = [] := by
      rw [h'.legacy, h.legacy, List.append_assoc] at hlegacy
      have hnil := List.append_right_eq_self.mp hlegacy
      exact (List.append_eq_nil_iff.mp hnil).symm
    have hfirst : st' = st := h.unchanged (by rw [h.legacy, hboth.2, List.append_nil])
    rw [h'.unchanged (by rw [h'.legacy, hboth.1, List.append_nil]), hfirst]

theorem lift_keys_lifts (hnodup : keys.Nodup) (h : keys.foldlM lift_key st = .ok st') :
    Lifts keys st st' := by
  induction keys generalizing st with
  | nil =>
    rw [List.foldlM_nil, pure_ok] at h
    subst h
    constructor <;> simp
  | cons key keys ih =>
    rw [List.foldlM_cons, bind_ok] at h
    obtain ⟨mid, hkey, hrest⟩ := h
    rw [List.nodup_cons] at hnodup
    exact (lift_key_lifts hkey).cons hnodup.1 (ih hnodup.2 hrest)

theorem lift_keys_comments (hlawful : ∀ name, ∀ e ∈ (find name table).bind as_value, LawfulEntry e)
    (hnodup : keys.Nodup) (hsame : ∀ key ∈ keys, find key st.table = find key table)
    (hclosed : Closed st.comments) (h : keys.foldlM lift_key st = .ok st') :
    Closed st'.comments ∧
      Lines.content st'.comments = Lines.content st.comments ++ keys.flatMap (comments_in table) := by
  induction keys generalizing st with
  | nil =>
    rw [List.foldlM_nil, pure_ok] at h
    subst h
    simpa using hclosed
  | cons key keys ih =>
    rw [List.foldlM_cons, bind_ok] at h
    obtain ⟨mid, hkey, hrest⟩ := h
    rw [List.nodup_cons] at hnodup
    have hfind := hsame key List.mem_cons_self
    have hmid : ∀ k ∈ keys, find k mid.table = find k table := by
      intro k hk
      rw [(lift_key_lifts hkey).same k, hsame k (List.mem_cons_of_mem key hk)]
      simp
      rintro rfl
      exact hnodup.1 hk
    rw [List.flatMap_cons, ← List.append_assoc]
    rcases lift_key_ok hkey with ⟨hnone, rfl⟩ | ⟨k, n, decor, format, hfound, -, rfl⟩
    · have hnil : comments_in table key = [] := by simp [comments_in, ← hfind, hnone]
      rw [hnil, List.append_nil]
      exact ih hnodup.2 hmid hclosed hrest
    · rw [hfind] at hfound
      have hentry := hlawful key (k, .integer n decor format) (by simp [hfound, as_value])
      have hcomments : comments_in table key = k.leaf_decor.remarks ++ decor.remarks := by
        simp [comments_in, hfound, as_value, say, Value.decor]
      have hkeyed : Lines.content (lift_decor k.leaf_decor) = k.leaf_decor.remarks :=
        content_lift_decor (fun s hs => (hentry.key_before s hs).remarks)
          fun s hs => (hentry.key_after s hs).remarks
      have hvalued : Lines.content (lift_decor decor) = decor.remarks :=
        content_lift_decor (fun s hs => (hentry.value_before s hs).remarks)
          fun s hs => (hentry.value_after s hs).remarks
      have hmore := hclosed.append (lift_decor_closed k.leaf_decor)
      obtain ⟨hend, hcontent⟩ := ih hnodup.2 hmid (hmore.append (lift_decor_closed decor)) hrest
      refine ⟨hend, ?_⟩
      rw [hcontent, hmore.content_append, hclosed.content_append, hkeyed, hvalued, hcomments,
        List.append_assoc (Lines.content st.comments)]

end Lifting

/-! ## Folding in -/

section Folding

variable {entries entries' table table' : Entries σ φ} {format : φ} {comments : Text} {n : Int}
  {name : String} {path : List Step}

/-- A key with the lifted comments, if there are any. -/
def with_comments (comments : Text) (key : Key φ) : Key φ :=
  if comments = [] then key else add_comments comments key

theorem with_comments_remarks (h : Closed comments) (key : Key φ) :
    (with_comments comments key).leaf_decor.remarks =
      Lines.content comments ++ key.leaf_decor.remarks := by
  unfold with_comments
  split
  next hnil => rw [hnil, Lines.content_nil, List.nil_append]
  · unfold add_comments Decor.remarks
    dsimp only
    rw [remarks, Option.getD_some, h.content_append, List.append_assoc]
    rfl

theorem reattach_ok (h : reattach comments table = .ok table') :
    find "streak_signal" table' =
      (find "streak_signal" table).map (fun e => (with_comments comments e.1, e.2)) ∧
    ∀ name, name ≠ "streak_signal" → find name table' = find name table := by
  unfold reattach at h
  unfold with_comments
  split at h
  · obtain rfl := Except.ok.inj h
    simp [*]
  · split at h
    · cases h
    next hnil _ =>
      obtain rfl := Except.ok.inj h
      have hname : ∀ e : Key φ × Item σ φ, (add_comments comments e.1, e.2).1.name = e.1.name :=
        fun _ => rfl
      constructor
      · rw [find_update hname, if_pos rfl]
        simp [hnil]
      · intro name hne
        rw [find_update hname, if_neg hne]

variable [Inhabited φ]

theorem find_attention : ∃ k item, find "attention" (with_attention entries) = some (k, item) ∧
    (find "attention" entries = some (k, item) ∨
      find "attention" entries = none ∧ item = .table [] default) := by
  unfold with_attention
  cases h : find "attention" entries with
  | some e => exact ⟨e.1, e.2, by simp [h], .inl rfl⟩
  | none =>
    refine ⟨new_key "attention", .table [] default, ?_, .inr ⟨rfl, rfl⟩⟩
    rw [Option.isNone_none, if_pos rfl, find_append, h]
    rfl

theorem value_at_with_attention : (Item.table (with_attention entries) format).value_at path name =
    (Item.table entries format).value_at path name := by
  unfold with_attention
  split
  next h => exact value_at_append_empty (Option.isNone_iff_eq_none.mp h)
  · rfl

theorem find_with_attention (h : name ≠ "attention") :
    find name (with_attention entries) = find name entries := by
  unfold with_attention
  split
  · simp [find_append, new_key, Ne.symm h]
  · rfl

/-- The setting as it was, or as it is added. -/
def setting (n : Int) (entry : Option (Key φ × Item σ φ)) : Key φ × Item σ φ :=
  entry.getD (new_key "streak_signal", .value (.integer n .empty default))

theorem find_setting (hsome : table' = if (find "streak_signal" table).isSome then table
      else insert "streak_signal" (.integer n .empty default) table) :
    find "streak_signal" table' = some (setting n (find "streak_signal" table)) ∧
    ∀ name, name ≠ "streak_signal" → find name table' = find name table := by
  subst hsome
  cases h : find "streak_signal" table with
  | some e => simp [h, setting]
  | none =>
    simp only [Option.isSome_none, Bool.false_eq_true, if_false, insert, h, find_append]
    constructor
    · simp [new_key, setting]
    · intro name hne
      simp [new_key, Ne.symm hne]

/-- What folding in does: one setting changes in its table, and nothing elsewhere. -/
structure Folds (n : Int) (comments : Text) (entries entries' : Entries σ φ) : Prop where
  origin : find "attention" entries = none ∨ ∃ k ts f, find "attention" entries = some (k, .table ts f)
  table : ∃ k ts f, find "attention" entries' = some (k, .table ts f)
  same : ∀ name, name ≠ "attention" → find name entries' = find name entries
  others : ∀ format path name, ¬ (path = ATTENTION ∧ name = "streak_signal") →
    (Item.table entries' format).value_at path name = (Item.table entries format).value_at path name
  streak : ∀ format, (Item.table entries' format).value_at ATTENTION "streak_signal" =
    let e := ((Item.table entries format).value_at ATTENTION "streak_signal").getD
      (new_key "streak_signal", .integer n .empty default)
    some (with_comments comments e.1, e.2)

/-- The table that is folded into: the one that there was, or else a new one. -/
def Origin (k : Key φ) (table : Entries σ φ) (f : φ) (entries : Entries σ φ) : Prop :=
  find "attention" entries = some (k, .table table f) ∨
    find "attention" entries = none ∧ table = []

omit [Inhabited φ] in
theorem Origin.explicit {k : Key φ} {f : φ} (h : Origin k table f entries) :
    explicit entries = (find "streak_signal" table).map (·.2) := by
  unfold Migrate.explicit
  rcases h with hattention | ⟨hattention, rfl⟩
  · rw [hattention]
    rfl
  · rw [hattention]
    rfl

theorem fold_in_table {b : Bool} (h : fold_in b n comments entries = .ok entries') :
    ∃ k table f table', find "attention" (with_attention entries) = some (k, .table table f) ∧
      Origin k table f entries ∧
      reattach comments
        (if b then table else insert "streak_signal" (.integer n .empty default) table) =
          .ok table' ∧
      entries' = replace_table "attention" table' f (with_attention entries) := by
  obtain ⟨k, item, hfind, horigin⟩ :
      ∃ k item, find "attention" (with_attention entries) = some (k, item) ∧ _ := find_attention
  unfold fold_in at h
  rw [hfind] at h
  dsimp only at h
  split at h
  next k' table f heq =>
    obtain ⟨rfl, rfl⟩ := Prod.mk.inj (Option.some.inj heq)
    obtain ⟨table', hreattach, h⟩ := bind_ok.mp h
    refine ⟨_, table, f, table', hfind, ?_, hreattach, (pure_ok.mp h).symm⟩
    exact horigin.imp id fun ⟨hnone, htable⟩ => ⟨hnone, (Item.table.inj htable).1⟩
  · cases h

theorem reattached (hflat : ∀ e, find "streak_signal" table = some e → ∃ v, e.2 = .value v)
    (h : reattach comments (if (find "streak_signal" table).isSome then table
      else insert "streak_signal" (.integer n .empty default) table) = .ok table') :
    Beside (· = "streak_signal") table table' ∧
      find "streak_signal" table' =
        some (with_comments comments (setting n (find "streak_signal" table)).1,
          (setting n (find "streak_signal" table)).2) := by
  obtain ⟨hadded, hkept⟩ := @find_setting _ _ table _ n _ rfl
  obtain ⟨hnew, hrest⟩ := reattach_ok h
  rw [hadded, Option.map_some] at hnew
  have hvalue : ∃ v, (setting n (find "streak_signal" table)).2 = .value v := by
    cases he : find "streak_signal" table with
    | none => exact ⟨_, rfl⟩
    | some e => exact hflat e he
  refine ⟨⟨?_, ?_, ?_⟩, hnew⟩
  · intro name hne
    rw [hrest name hne, hkept name hne]
  · rintro _ rfl e he
    exact hflat e he
  · rintro _ rfl e he
    rw [hnew] at he
    obtain rfl := Option.some.inj he
    exact hvalue

theorem fold_in_ok (hcheck : ∀ item ∈ explicit entries, ∃ m, item.as_integer = some m)
    (h : fold_in (explicit entries).isSome n comments entries = .ok entries') :
    Folds n comments entries entries' := by
  obtain ⟨k, table, f, table', hfind, horigin, hreattach, rfl⟩ := fold_in_table h
  have hflat : ∀ e, find "streak_signal" table = some e → ∃ v, e.2 = .value v := by
    intro e he
    obtain ⟨m, hm⟩ := hcheck e.2 (by simp [horigin.explicit, he])
    obtain ⟨decor, format, hvalue⟩ := as_integer_some hm
    exact ⟨_, hvalue⟩
  rw [horigin.explicit, Option.isSome_map] at hreattach
  obtain ⟨hbeside, hnew⟩ := reattached hflat hreattach
  constructor
  · exact horigin.symm.imp (·.1) fun hattention => ⟨_, _, _, hattention⟩
  · exact ⟨_, _, _, find_replace_table_self hfind⟩
  · intro name hne
    rw [find_replace_table, if_neg hne, find_with_attention hne]
  · intro format path name hne
    rw [value_at_replace_table hfind hbeside fun hpath hname => hne ⟨hpath, hname⟩,
      value_at_with_attention]
  · intro format
    rw [← @value_at_with_attention _ _ entries]
    unfold ATTENTION
    rw [value_at_key, value_at_key, find_replace_table_self hfind, hfind, Option.bind_some,
      Option.bind_some, value_at_nil, value_at_nil, hnew, Option.bind_some]
    cases he : find "streak_signal" table with
    | none => rfl
    | some e =>
      obtain ⟨v, hv⟩ := hflat e he
      obtain ⟨key, item⟩ := e
      subst hv
      rfl

end Folding

end Fridica.Config.Migrate
