import Fridica.Config.Migrate.Lifting

/-!
# Old loop limits are folded in

The comments around the removed keys, in order, begin the text before the new one. A document that
was migrated has nothing left to migrate.
-/

namespace Fridica.Config.Migrate

open Fridica.Checked Fridica.Layout
open Fridica.Lines (Text NEWLINE trim)

variable {σ φ : Type}

/-! ## A migration -/

section Migration

variable {entries : Entries σ φ} {d d' : Document σ φ} {st : Lifted σ φ}

theorem legacy_nodup : LEGACY.Nodup := by decide

theorem lift_legacy_ok (h : lift_legacy entries = .ok st) :
    (find "limits" entries = none ∧ st = ⟨entries, [], []⟩) ∨
    ∃ k table format mid, find "limits" entries = some (k, .table table format) ∧
      LEGACY.foldlM lift_key ⟨table, [], []⟩ = .ok mid ∧
      st = { mid with table := replace_table "limits" mid.table format entries } := by
  unfold lift_legacy at h
  split at h
  next hnone => exact .inl ⟨hnone, (Except.ok.inj h).symm⟩
  next k table format hfound =>
    rw [bind_ok] at h
    obtain ⟨mid, hmid, h⟩ := h
    rw [pure_ok] at h
    exact .inr ⟨k, table, format, mid, hfound, hmid, h.symm⟩
  · cases h

theorem find_lifted (h : lift_legacy entries = .ok st) {name : String} (hne : name ≠ "limits") :
    find name st.table = find name entries := by
  rcases lift_legacy_ok h with ⟨-, rfl⟩ | ⟨k, table, format, mid, -, -, rfl⟩
  · rfl
  · rw [find_replace_table, if_neg hne]

theorem explicit_congr {entries' : Entries σ φ}
    (h : find "attention" entries' = find "attention" entries) :
    explicit entries' = explicit entries := by
  unfold explicit
  rw [h]

theorem explicit_eq {format : φ} (horigin : find "attention" entries = none ∨
      ∃ k ts f, find "attention" entries = some (k, .table ts f))
    (hcheck : ∀ item ∈ explicit entries, ∃ m, item.as_integer = some m) :
    explicit entries = ((Item.table entries format).value_at ATTENTION "streak_signal").map
      fun e => .value e.2 := by
  unfold explicit at hcheck ⊢
  unfold ATTENTION
  rw [value_at_key]
  rcases horigin with hnone | ⟨k, ts, f, hsome⟩
  · simp [hnone]
  · rw [hsome, Option.bind_some] at hcheck ⊢
    rw [Option.bind_some, value_at_nil]
    cases he : find "streak_signal" ts with
    | none => simp [get, he]
    | some e =>
      obtain ⟨m, hm⟩ := hcheck e.2 (by simp [get, he])
      obtain ⟨decor, format, hvalue⟩ := as_integer_some hm
      obtain ⟨key, item⟩ := e
      subst hvalue
      simp [get, he, as_value]

theorem as_value_some {e : Key φ × Item σ φ} {k : Key φ} {v : Value σ φ}
    (h : as_value e = some (k, v)) : e = (k, .value v) := by
  unfold as_value at h
  split at h
  · obtain ⟨rfl, rfl⟩ := Prod.mk.inj (Option.some.inj h)
    rfl
  · cases h

theorem explicit_of_value {format : φ} {k : Key φ} {v : Value σ φ}
    (hattention : ∃ k ts f, find "attention" entries = some (k, .table ts f))
    (h : (Item.table entries format).value_at ATTENTION "streak_signal" = some (k, v)) :
    explicit entries = some (.value v) := by
  obtain ⟨k', ts, f, hts⟩ := hattention
  unfold ATTENTION at h
  rw [value_at_key, hts, Option.bind_some, value_at_nil] at h
  obtain ⟨e, he, hvalue⟩ := Option.bind_eq_some_iff.mp h
  unfold explicit
  rw [hts, Option.bind_some, get, he, as_value_some hvalue]
  rfl

theorem limit_of_table {k : Key φ} {table : Entries σ φ} {format : φ}
    (h : find "limits" d.entries = some (k, .table table format)) (key : String) :
    limit d key = limit_in table key := by
  simp [limit, limit_in, LIMITS, Document.root, Item.at, Item.child, h, Item.entry]

theorem comments_of_table {k : Key φ} {table : Entries σ φ} {format : φ}
    (h : find "limits" d.entries = some (k, .table table format)) (key : String) :
    comments_at d LIMITS key = comments_in table key := by
  unfold comments_at comments_in LIMITS Document.root Item.said
  rw [value_at_key, h, Option.bind_some, value_at_nil]

theorem comments_at_remark (hlawful : Lawful d) {path : List Step} {name : String} {c : Text}
    (h : c ∈ comments_at d path name) : c.head? = some '#' := by
  unfold comments_at Item.said at h
  cases he : d.root.value_at path name with
  | none =>
    rw [he] at h
    cases h
  | some e =>
    have hentry := hlawful path name e he
    have hraw : ∀ raw : Option Text, (∀ s ∈ raw, Remarks s) → c ∈ remarks raw → c.head? = some '#' := by
      intro raw hraw hc
      cases raw with
      | none => cases hc
      | some s => exact hraw s rfl c hc
    rw [he, Option.map_some, Option.map_some, Option.getD_some] at h
    rcases List.mem_append.mp h with h | h
    · rcases List.mem_append.mp h with h | h
      · exact hraw _ (fun s hs => (hentry.key_before s hs).remarks) h
      · exact hraw _ (fun s hs => (hentry.key_after s hs).remarks) h
    · rcases List.mem_append.mp h with h | h
      · exact hraw _ (fun s hs => (hentry.value_before s hs).remarks) h
      · exact hraw _ (fun s hs => (hentry.value_after s hs).remarks) h

theorem migrated_self (h : ∀ key ∈ LEGACY, (d.root.at LIMITS).bind (·.entry key) = none) :
    Migrated d d := by
  have hsaid : ∀ key ∈ LEGACY, comments_at d LIMITS key = [] := by
    intro key hkey
    simp [comments_at, Item.said, Item.value_at, h key hkey]
  constructor
  · exact h
  · have hlimit : ∀ key ∈ LEGACY, limit d key = none := by
      intro key hkey
      rw [limit, h key hkey, Option.bind_none]
    rw [hlimit _ (by decide), hlimit _ (by decide)]
    simp [smaller]
  · simp
  · rw [List.flatMap_eq_nil_iff.mpr hsaid, List.nil_append]

theorem smaller_eq {a b : Option Int} {first : Int} {rest : List Int}
    (h : a.toList ++ b.toList = first :: rest) : smaller a b = some (smallest first rest) := by
  cases a with
  | none =>
    cases b with
    | none => cases h
    | some b =>
      obtain ⟨rfl, rfl⟩ := List.cons.inj h
      simp [smaller, smallest, Int.min_comm]
  | some a =>
    cases b with
    | none =>
      obtain ⟨rfl, rfl⟩ := List.cons.inj h
      simp [smaller, smallest]
    | some b =>
      obtain ⟨rfl, rfl⟩ := List.cons.inj h
      simp [smaller, smallest]

theorem filterMap_legacy (f : String → Option Int) :
    LEGACY.filterMap f = (f "max_wait_replies").toList ++ (f "max_no_progress").toList := by
  unfold LEGACY
  cases hwait : f "max_wait_replies" <;> cases hprogress : f "max_no_progress" <;>
    simp [hwait, hprogress]

theorem smallest_pos {first : Int} {rest : List Int} (hfirst : 0 < first)
    (hrest : ∀ n ∈ rest, 0 < n) : 0 < smallest first rest := by
  have hmin : ∀ l : List Int, (∀ n ∈ l, 0 < n) → ∀ a, 0 < a → 0 < l.foldl min a := by
    intro l
    induction l with
    | nil => exact fun _ a ha => ha
    | cons b l ih =>
      intro hl a ha
      have hb := hl b List.mem_cons_self
      exact ih (fun n hn => hl n (List.mem_cons_of_mem b hn)) _ (by omega)
  unfold smallest
  apply hmin _ ?_ first hfirst
  split
  · simp
  · exact hrest

theorem lawful_with_comments {comments : Text} {e : Key φ × Value σ φ} (hclosed : Closed comments)
    (hremarks : Remarks comments) (h : LawfulEntry e) :
    LawfulEntry (with_comments comments e.1, e.2) := by
  unfold with_comments
  split
  · exact h
  · constructor
    · intro s hs
      obtain rfl := Option.some.inj hs
      apply Leading.append hclosed hremarks
      cases hbefore : e.1.leaf_decor.before with
      | none => exact leading_nil
      | some s => exact h.key_before s hbefore
    · exact h.key_after
    · exact h.value_before
    · exact h.value_after

theorem lift_legacy_nil (hlift : lift_legacy d.entries = .ok st) (hnil : st.legacy = []) :
    st.table = d.entries ∧ ∀ key ∈ LEGACY, (d.root.at LIMITS).bind (·.entry key) = none := by
  rcases lift_legacy_ok hlift with ⟨hnone, rfl⟩ | ⟨k, table, format, mid, hfound, hmid, rfl⟩
  · refine ⟨rfl, fun key _ => ?_⟩
    simp [LIMITS, Document.root, Item.at, Item.child, hnone]
  · have hlifts := lift_keys_lifts legacy_nodup hmid
    obtain rfl := hlifts.unchanged hnil
    constructor
    · apply update_self
      intro e he
      rw [hfound] at he
      obtain rfl := Option.some.inj he
      rfl
    · intro key hkey
      simpa [LIMITS, Document.root, Item.at, Item.child, hfound, Item.entry] using
        hlifts.gone key hkey

theorem lift_legacy_cons (hlawful : Lawful d) (hlift : lift_legacy d.entries = .ok st)
    {first : Int} {rest : List Int} (hlegacy : st.legacy = first :: rest) :
    (∃ k ts f, find "limits" st.table = some (k, .table ts f) ∧ ∀ key ∈ LEGACY, find key ts = none) ∧
    (∀ format path name, ¬ (path = LIMITS ∧ name ∈ LEGACY) →
      (Item.table st.table format).value_at path name =
        (Item.table d.entries format).value_at path name) ∧
    smaller (limit d "max_wait_replies") (limit d "max_no_progress") =
      some (smallest first rest) ∧
    0 < smallest first rest ∧ Closed st.comments ∧
    Lines.content st.comments = LEGACY.flatMap (comments_at d LIMITS) := by
  rcases lift_legacy_ok hlift with ⟨-, rfl⟩ | ⟨k, table, format, mid, hfound, hmid, rfl⟩
  · cases hlegacy
  · have hlifts := lift_keys_lifts legacy_nodup hmid
    have hentries : ∀ name, ∀ e ∈ (find name table).bind as_value, LawfulEntry e := by
      intro name e he
      apply hlawful LIMITS name e
      unfold LIMITS Document.root
      rw [value_at_key, hfound, Option.bind_some, value_at_nil]
      exact he
    obtain ⟨hclosed, hcontent⟩ := lift_keys_comments hentries legacy_nodup (fun _ _ => rfl)
      (.inl rfl) hmid
    have hnumbers : LEGACY.filterMap (limit_in table) = first :: rest := by
      rw [← hlegacy, hlifts.legacy, List.nil_append]
    have hpos : ∀ n ∈ first :: rest, 0 < n := by
      intro n hn
      rw [← hnumbers] at hn
      obtain ⟨key, hkey, hlimit⟩ := List.mem_filterMap.mp hn
      exact hlifts.positive key hkey n hlimit
    refine ⟨⟨k, mid.table, format, find_replace_table_self hfound, hlifts.gone⟩, ?_, ?_, ?_, hclosed,
      ?_⟩
    · intro format' path name hne
      have hbeside : Beside (· ∈ LEGACY) table mid.table := by
        refine ⟨hlifts.same, hlifts.flat, ?_⟩
        intro key hkey e he
        rw [hlifts.gone key hkey] at he
        cases he
      exact value_at_replace_table hfound hbeside fun hpath hname => hne ⟨hpath, hname⟩
    · rw [limit_of_table hfound, limit_of_table hfound]
      apply smaller_eq
      rw [← filterMap_legacy, hnumbers]
    · exact smallest_pos (hpos first List.mem_cons_self) fun n hn => hpos n (List.mem_cons_of_mem _ hn)
    · rw [hcontent, Lines.content_nil, List.nil_append]
      exact List.flatMap_congr fun key _ => (comments_of_table hfound key).symm

variable [Inhabited φ]

/-- What a migration writes, besides what it moves. -/
structure Writes (d d' : Document σ φ) : Prop where
  migrated : Migrated d d'
  lawful : Lawful d'
  limits : ∃ k ts f, find "limits" d'.entries = some (k, .table ts f)
  attention : ∃ k ts f, find "attention" d'.entries = some (k, .table ts f)
  positive : ∃ k n decor format, 0 < n ∧
    d'.root.value_at ATTENTION "streak_signal" = some (k, .integer n decor format)

theorem setting_entry {limit : Int} (hlawful : Lawful d) (hlimit : 0 < limit)
    (hinteger : ∀ item ∈ explicit d.entries, ∃ m, item.as_integer = some m ∧ 0 < m)
    (horigin : find "attention" d.entries = none ∨
      ∃ k ts f, find "attention" d.entries = some (k, .table ts f)) :
    ∃ k n decor format,
      (d.root.value_at ATTENTION "streak_signal").getD
        (new_key "streak_signal", .integer limit .empty default) = (k, .integer n decor format) ∧
      0 < n ∧ LawfulEntry ((k, .integer n decor format) : Key φ × Value σ φ) ∧
      some n = (streak_signal d).or (some limit) ∧
      k.leaf_decor.remarks ++ decor.remarks = comments_at d ATTENTION "streak_signal" := by
  have hexplicit : explicit d.entries =
      (d.root.value_at ATTENTION "streak_signal").map fun e => .value e.2 :=
    explicit_eq horigin fun item hitem => (hinteger item hitem).imp fun _ hm => hm.1
  unfold streak_signal comments_at Item.said
  rw [hexplicit] at hinteger ⊢
  cases hold : d.root.value_at ATTENTION "streak_signal" with
  | none =>
    refine ⟨new_key "streak_signal", limit, .empty, default, rfl, hlimit, ?_, rfl, rfl⟩
    constructor <;> simp [new_key, Decor.empty, Value.decor]
  | some e =>
    obtain ⟨k, v⟩ := e
    obtain ⟨n, hn, hpos⟩ := hinteger (.value v) (by simp [hold])
    obtain ⟨decor, format, hvalue⟩ := as_integer_some hn
    obtain rfl := Item.value.inj hvalue
    exact ⟨k, n, decor, format, rfl, hpos, hlawful _ _ _ hold, rfl, rfl⟩

/-- Lifting out and folding in, together. -/
theorem written {es entries : Entries σ φ} {comments : Text} {limit : Int} (hlawful : Lawful d)
    (hlimits : ∃ k ts f, find "limits" es = some (k, .table ts f) ∧
      ∀ key ∈ LEGACY, find key ts = none)
    (hkept : ∀ format path name, ¬ (path = LIMITS ∧ name ∈ LEGACY) →
      (Item.table es format).value_at path name = (Item.table d.entries format).value_at path name)
    (hattention : find "attention" es = find "attention" d.entries)
    (hsmaller : smaller (Migrate.limit d "max_wait_replies") (Migrate.limit d "max_no_progress") =
      some limit)
    (hlimit : 0 < limit)
    (hinteger : ∀ item ∈ explicit d.entries, ∃ m, item.as_integer = some m ∧ 0 < m)
    (hclosed : Closed comments)
    (hcontent : Lines.content comments = LEGACY.flatMap (comments_at d LIMITS))
    (hremarks : Remarks comments) (hfolds : Folds limit comments es entries) :
    Writes d { d with entries } := by
  obtain ⟨k, n, decor, format, hentry, hn, hlawfulEntry, hstreak, hcomments⟩ :=
    setting_entry hlawful hlimit hinteger (hattention ▸ hfolds.origin)
  have hne : ¬ (ATTENTION = LIMITS ∧ "streak_signal" ∈ LEGACY) := by decide
  have hnew : (Item.table entries d.format).value_at ATTENTION "streak_signal" =
      some (with_comments comments k, .integer n decor format) := by
    have hentry' := hentry
    unfold Document.root at hentry'
    rw [hfolds.streak, hkept _ _ _ hne, hentry']
  obtain ⟨kl, ts, f, hts, hgone⟩ := hlimits
  have hfound : find "limits" entries = some (kl, .table ts f) := by
    rw [hfolds.same _ (by decide), hts]
  constructor
  · constructor
    · intro key hkey
      simpa [LIMITS, Document.root, Item.at, Item.child, hfound, Item.entry] using hgone key hkey
    · unfold streak_signal at hstreak ⊢
      rw [explicit_of_value hfolds.table hnew, hsmaller, ← hstreak]
      rfl
    · intro path name hmoved
      unfold Moved at hmoved
      rw [not_or] at hmoved
      unfold Item.said Document.root
      rw [hfolds.others _ _ _ hmoved.2, hkept _ _ _ hmoved.1]
    · rw [← hcomments, ← hcontent]
      unfold comments_at Item.said Document.root
      rw [hnew, Option.map_some, Option.map_some, Option.getD_some]
      unfold say
      dsimp only
      rw [with_comments_remarks hclosed, List.append_assoc]
      rfl
  · intro path name e he
    unfold Document.root at he
    by_cases hsetting : path = ATTENTION ∧ name = "streak_signal"
    · obtain ⟨rfl, rfl⟩ := hsetting
      rw [hnew] at he
      obtain rfl := Option.some.inj he
      exact lawful_with_comments hclosed hremarks hlawfulEntry
    · rw [hfolds.others _ _ _ hsetting] at he
      by_cases hlegacy : path = LIMITS ∧ name ∈ LEGACY
      · obtain ⟨rfl, hname⟩ := hlegacy
        unfold LIMITS at he
        rw [value_at_key, hts, Option.bind_some, value_at_nil, hgone name hname] at he
        cases he
      · rw [hkept _ _ _ hlegacy] at he
        exact hlawful path name e he
  · exact ⟨kl, ts, f, hfound⟩
  · exact hfolds.table
  · exact ⟨_, n, decor, format, hn, hnew⟩

theorem migrate_ok (hlawful : Lawful d) (h : migrate d = .ok d') :
    (d' = d ∧ Migrated d d) ∨ Writes d d' := by
  unfold migrate at h
  simp only [bind_ok, refuse_ok, exists_and_left] at h
  obtain ⟨hcheck, -, st, hlift, h⟩ := h
  have hexplicit : ∀ item ∈ explicit d.entries, ∃ m, item.as_integer = some m ∧ 0 < m := by
    intro item hitem
    rw [Option.mem_def.mp hitem] at hcheck
    simpa [Option.any_eq_true] using hcheck
  cases hlegacy : st.legacy with
  | nil =>
    obtain ⟨htable, hnone⟩ := lift_legacy_nil hlift hlegacy
    rw [hlegacy, pure_ok, htable] at h
    exact .inl ⟨h.symm, migrated_self hnone⟩
  | cons first rest =>
    obtain ⟨⟨kl, ts, f, hlimits, hgone⟩, hkept, hsmaller, hpos, hclosed, hcontent⟩ :=
      lift_legacy_cons hlawful hlift hlegacy
    rw [hlegacy] at h
    simp only [bind_ok, pure_ok] at h
    obtain ⟨entries, hfold, rfl⟩ := h
    have hsame : explicit st.table = explicit d.entries :=
      explicit_congr (find_lifted hlift (by decide))
    rw [← hsame] at hexplicit hfold
    have hintegers : ∀ item ∈ explicit st.table, ∃ m, item.as_integer = some m :=
      fun item hitem => (hexplicit item hitem).imp fun _ hm => hm.1
    have hfolds := fold_in_ok hintegers hfold
    refine .inr (written hlawful ⟨kl, ts, f, hlimits, hgone⟩ hkept (find_lifted hlift (by decide))
      hsmaller hpos (hsame ▸ hexplicit) hclosed hcontent ?_ hfolds)
    intro c hc
    rw [hcontent] at hc
    obtain ⟨key, -, hc⟩ := List.mem_flatMap.mp hc
    exact comments_at_remark hlawful hc

end Migration

/-! ## Migrating again -/

section Again

variable {entries : Entries σ φ} {d : Document σ φ} {st : Lifted σ φ}

theorem table_of_kind {item : Item σ φ} (h : item.kind = .table) : ∃ ts f, item = .table ts f := by
  cases item with
  | table ts f => exact ⟨ts, f, rfl⟩
  | _ => cases h

theorem integer_of_plain {v : Value σ φ} {n : Int} (h : v.plain = .integer n) :
    ∃ decor format, v = .integer n decor format := by
  cases v with
  | integer m decor format =>
    obtain rfl := Plain.integer.inj h
    exact ⟨decor, format, rfl⟩
  | inline_table => simp [Value.plain] at h
  | other => simp [Value.plain] at h

theorem at_entry {t name : String} : d.root.at [.key t, .key name] =
    ((d.root.at [.key t]).bind (·.entry name)).map (·.2) := by
  simp only [Document.root, Item.at, Item.child]
  cases find t d.entries with
  | none => rfl
  | some e =>
    simp only [Option.map_some, Option.bind_some]
    cases e.2 with
    | table => simp [Item.entry]
    | _ => rfl

theorem lift_keys_absent {keys : List String} (h : ∀ key ∈ keys, find key st.table = none) :
    keys.foldlM lift_key st = .ok st := by
  induction keys with
  | nil => rfl
  | cons key keys ih =>
    have hkey : lift_key st key = .ok st := by
      unfold lift_key
      rw [h key List.mem_cons_self]
    rw [List.foldlM_cons, hkey]
    exact ih fun k hk => h k (List.mem_cons_of_mem key hk)

variable [Inhabited φ]

theorem migrate_self (hinteger : ∀ item ∈ explicit d.entries, ∃ n, item.as_integer = some n ∧ 0 < n)
    (hlimits : find "limits" d.entries = none ∨ ∃ k ts f,
      find "limits" d.entries = some (k, .table ts f) ∧ ∀ key ∈ LEGACY, find key ts = none) :
    migrate d = .ok d := by
  have hcheck : ¬ ((explicit d.entries).any fun item => !item.as_integer.any (0 < ·)) = true := by
    cases he : explicit d.entries with
    | none => simp
    | some item =>
      obtain ⟨n, hn, hpos⟩ := hinteger item he
      simp [hn, hpos]
  have hlift : lift_legacy d.entries = .ok ⟨d.entries, [], []⟩ := by
    unfold lift_legacy
    rcases hlimits with hnone | ⟨k, ts, f, hts, hgone⟩
    · rw [hnone]
    · have hself : replace_table "limits" ts f d.entries = d.entries := by
        apply update_self
        intro e he
        rw [hts] at he
        obtain rfl := Option.some.inj he
        rfl
      rw [hts]
      dsimp only
      rw [lift_keys_absent hgone]
      exact congrArg (fun t => Except.ok (Lifted.mk t [] [])) hself
  unfold migrate
  rw [refuse, if_neg hcheck, hlift]
  rfl

section Reread

variable {d₁ d₂ : Document σ φ}

omit [Inhabited φ] in
theorem table_again
    (hkind : ∀ path i', d₂.root.at path = some i' →
      ∃ i, d₁.root.at path = some i ∧ i.kind = i'.kind)
    {t : String} {k : Key φ} {ts : Entries σ φ} {f : φ} {e : Key φ × Item σ φ}
    (h₁ : find t d₁.entries = some (k, .table ts f)) (h₂ : find t d₂.entries = some e) :
    ∃ k ts f, e = (k, .table ts f) := by
  obtain ⟨i, hi, hsame⟩ := hkind [.key t] e.2 (by simp [Document.root, Item.at, Item.child, h₂])
  simp [Document.root, Item.at, Item.child, h₁] at hi
  rw [← hi] at hsame
  obtain ⟨ts, f, hitem⟩ := table_of_kind hsame.symm
  exact ⟨e.1, ts, f, Prod.ext rfl hitem⟩

omit [Inhabited φ] in
theorem Writes.gone_again (h : Writes d d₁)
    (hkind : ∀ path i', d₂.root.at path = some i' →
      ∃ i, d₁.root.at path = some i ∧ i.kind = i'.kind) :
    ∀ key ∈ LEGACY, (d₂.root.at LIMITS).bind (·.entry key) = none := by
  intro key hkey
  rw [Option.eq_none_iff_forall_ne_some]
  intro e he
  have hat : d₂.root.at [.key "limits", .key key] = some e.2 := by
    rw [at_entry]
    exact congrArg (Option.map (·.2)) he
  obtain ⟨i, hi, -⟩ := hkind _ _ hat
  rw [at_entry] at hi
  have hnone := h.migrated.no_legacy key hkey
  unfold LIMITS at hnone
  rw [hnone] at hi
  cases hi

omit [Inhabited φ] in
theorem Writes.explicit_again (h : Writes d d₁)
    (hsaid : ∀ path name, d₂.root.said path name = d₁.root.said path name)
    (hkind : ∀ path i', d₂.root.at path = some i' →
      ∃ i, d₁.root.at path = some i ∧ i.kind = i'.kind) :
    ∃ n decor format, 0 < n ∧ explicit d₂.entries = some (.value (.integer n decor format)) ∧
      streak_signal d₂ = streak_signal d₁ := by
  obtain ⟨k, n, decor, format, hn, hvalue⟩ := h.positive
  have hsame := hsaid ATTENTION "streak_signal"
  unfold Item.said at hsame
  rw [hvalue, Option.map_some] at hsame
  obtain ⟨⟨k', v'⟩, hvalue', hsay⟩ := Option.map_eq_some_iff.mp hsame
  obtain ⟨decor', format', rfl⟩ := integer_of_plain (congrArg Said.value hsay)
  obtain ⟨k₁, ts, f, h₁⟩ := h.attention
  have htable : ∃ k ts f, find "attention" d₂.entries = some (k, .table ts f) := by
    cases h₂ : find "attention" d₂.entries with
    | none =>
      unfold ATTENTION Document.root at hvalue'
      rw [value_at_key, h₂] at hvalue'
      cases hvalue'
    | some e =>
      obtain ⟨k₂, ts₂, f₂, rfl⟩ := table_again hkind h₁ h₂
      exact ⟨k₂, ts₂, f₂, rfl⟩
  have hexplicit := explicit_of_value htable hvalue'
  refine ⟨n, decor', format', hn, hexplicit, ?_⟩
  unfold streak_signal
  rw [hexplicit, explicit_of_value h.attention hvalue]
  rfl

/-- What was written, read again: with everything that was moved, and nothing more to move. -/
theorem Writes.reread (h : Writes d d₁)
    (hsaid : ∀ path name, d₂.root.said path name = d₁.root.said path name)
    (hkind : ∀ path i', d₂.root.at path = some i' →
      ∃ i, d₁.root.at path = some i ∧ i.kind = i'.kind) :
    Migrated d d₂ ∧ migrate d₂ = .ok d₂ := by
  obtain ⟨n, decor, format, hn, hexplicit, hstreak⟩ := h.explicit_again hsaid hkind
  have hgone := h.gone_again hkind
  constructor
  · constructor
    · exact hgone
    · exact hstreak.trans h.migrated.streak
    · exact fun path name hmoved => (hsaid path name).trans (h.migrated.others path name hmoved)
    · rw [← h.migrated.comments]
      unfold comments_at
      rw [hsaid ATTENTION "streak_signal"]
  · apply migrate_self
    · intro item hitem
      rw [hexplicit] at hitem
      obtain rfl := Option.some.inj hitem
      exact ⟨n, rfl, hn⟩
    · obtain ⟨k₁, ts, f, h₁⟩ := h.limits
      cases h₂ : find "limits" d₂.entries with
      | none => exact .inl rfl
      | some e =>
        obtain ⟨k₂, ts₂, f₂, rfl⟩ := table_again hkind h₁ h₂
        refine .inr ⟨k₂, ts₂, f₂, rfl, fun key hkey => ?_⟩
        simpa [LIMITS, Document.root, Item.at, Item.child, h₂, Item.entry] using hgone key hkey

end Reread

/-- **A migration moves the old limits into one setting, and does nothing to a document twice.** -/
theorem migrate_text_spec {toml : Toml σ φ} {source result : Text} (hfaithful : Faithful toml source)
    (h : migrate_text toml source = .ok result) :
    ∃ d d', toml.parse source = some d ∧ toml.parse result = some d' ∧ Migrated d d' ∧
      migrate_text toml result = .ok result := by
  unfold migrate_text at h ⊢
  split at h
  · cases h
  next d hparse =>
    cases hmigrate : migrate d with
    | error e =>
      rw [hmigrate] at h
      cases h
    | ok d₁ =>
      rw [hmigrate] at h
      have hresult : toml.print d₁ = result := Except.ok.inj h
      rcases migrate_ok (hfaithful.lawful d hparse) hmigrate with ⟨rfl, hmigrated⟩ | hwrites
      · have hsource : result = source := by rw [← hresult, hfaithful.lossless _ hparse]
        refine ⟨d₁, d₁, hparse, hsource ▸ hparse, hmigrated, ?_⟩
        rw [hsource, hparse]
        dsimp only
        rw [hmigrate, ← hsource, ← hresult]
        rfl
      · obtain ⟨d₂, hread, hprints, hsaid, hkind⟩ :=
          hfaithful.rereads d d₁ hparse hmigrate hwrites.lawful
        rw [hresult] at hread hprints
        obtain ⟨hmigrated, hagain⟩ := hwrites.reread hsaid hkind
        refine ⟨d, d₂, hparse, hread, hmigrated, ?_⟩
        rw [hread]
        dsimp only
        rw [hagain]
        exact congrArg Except.ok hprints

end Again

/-! ## An override with a limit beside it -/

section Override

def line_decor (before after : String) : Decor := ⟨some before.toList, some after.toList⟩

/-- A setting of four, with text before its key. -/
def override (before : String) : Key Unit × Item Unit Unit :=
  (⟨"streak_signal", line_decor before " ", ()⟩, .value (.integer 4 (line_decor " " "") ()))

def old_limit : Key Unit × Item Unit Unit :=
  (⟨"max_no_progress", line_decor "" " ", ()⟩, .value (.integer 2 (line_decor " " " # keep") ()))

def sections (before : String) (limits : Entries Unit Unit) : Document Unit Unit :=
  ⟨[(⟨"attention", .empty, ()⟩, .table [override before] ()),
    (⟨"limits", .empty, ()⟩, .table limits ())], (), []⟩

def old_text : Text := "[attention]\nstreak_signal = 4\n\n[limits]\nmax_no_progress = 2 # keep\n".toList

def new_text : Text := "[attention]\n# keep\nstreak_signal = 4\n\n[limits]\n".toList

def sections_toml : Toml Unit Unit where
  parse t := if t = old_text then some (sections "" [old_limit])
    else if t = new_text then some (sections "# keep\n" []) else none
  print d := if (limit d "max_no_progress").isSome then old_text else new_text

theorem old_limit_lawful {e : Key Unit × Value Unit Unit} (h : as_value old_limit = some e) :
    LawfulEntry e := by
  obtain rfl := Option.some.inj h
  constructor
  · rintro _ ⟨⟩
    exact leading_nil
  · rintro _ ⟨⟩
    exact ⟨by decide +kernel, by decide⟩
  · rintro _ ⟨⟩
    exact ⟨by decide +kernel, by decide⟩
  · rintro _ ⟨⟩
    refine ⟨fun c hc => ?_, by decide⟩
    rw [show Lines.content " # keep".toList = ["# keep".toList] by decide +kernel] at hc
    rw [List.mem_singleton.mp hc]
    rfl

theorem override_lawful {e : Key Unit × Value Unit Unit} (h : as_value (override "") = some e) :
    LawfulEntry e := by
  obtain rfl := Option.some.inj h
  constructor
  · rintro _ ⟨⟩
    exact leading_nil
  · rintro _ ⟨⟩
    exact ⟨by decide +kernel, by decide⟩
  · rintro _ ⟨⟩
    exact ⟨by decide +kernel, by decide⟩
  · rintro _ ⟨⟩
    exact ⟨by simp [Remarks, Lines.content_nil], by decide⟩

theorem value_at_values {ts : Entries Unit Unit} {path : List Step} {name : String}
    {e : Key Unit × Value Unit Unit} (hflat : ∀ t ∈ ts, ∃ v, t.2 = .value v)
    (h : (Item.table ts ()).value_at path name = some e) : ∃ t ∈ ts, as_value t = some e := by
  match path with
  | [] =>
    obtain ⟨t, ht, he⟩ := Option.bind_eq_some_iff.mp h
    exact ⟨t, List.mem_of_find?_eq_some ht, he⟩
  | .index n :: path => cases h
  | .key u :: path =>
    rw [value_at_key, value_at_flat fun t ht => hflat t (List.mem_of_find?_eq_some ht)] at h
    cases h

theorem sections_lawful : Lawful (sections "" [old_limit]) := by
  intro path name e he
  match path with
  | [] =>
    unfold Document.root at he
    rw [value_at_nil] at he
    obtain ⟨t, ht, he⟩ := Option.bind_eq_some_iff.mp he
    rcases List.mem_pair.mp (List.mem_of_find?_eq_some ht) with rfl | rfl <;> cases he
  | .index n :: path => cases he
  | .key u :: path =>
    unfold Document.root at he
    rw [value_at_key] at he
    obtain ⟨t, ht, he⟩ := Option.bind_eq_some_iff.mp he
    rcases List.mem_pair.mp (List.mem_of_find?_eq_some ht) with rfl | rfl
    · obtain ⟨t, hmem, ht⟩ := value_at_values (by simp [override]) he
      obtain rfl := List.mem_singleton.mp hmem
      exact override_lawful ht
    · obtain ⟨t, hmem, ht⟩ := value_at_values (by simp [old_limit]) he
      obtain rfl := List.mem_singleton.mp hmem
      exact old_limit_lawful ht

theorem sections_migrated :
    migrate (sections "" [old_limit]) = .ok (sections "# keep\n" []) := rfl

theorem sections_faithful : Faithful sections_toml old_text := by
  have hdistinct : new_text ≠ old_text := by decide +kernel
  have hold : sections_toml.parse old_text = some (sections "" [old_limit]) := by
    unfold sections_toml
    dsimp only
    rw [if_pos rfl]
  have hnew : sections_toml.parse new_text = some (sections "# keep\n" []) := by
    unfold sections_toml
    dsimp only
    rw [if_neg hdistinct, if_pos rfl]
  have hparse : ∀ d, sections_toml.parse old_text = some d → d = sections "" [old_limit] :=
    fun d h => (Option.some.inj (hold.symm.trans h)).symm
  constructor
  · intro d h
    obtain rfl := hparse d h
    rfl
  · intro d h
    obtain rfl := hparse d h
    exact sections_lawful
  · intro d d' hd hmigrate _
    obtain rfl := hparse d hd
    rw [sections_migrated] at hmigrate
    obtain rfl := Except.ok.inj hmigrate
    refine ⟨_, hnew, rfl, fun _ _ => rfl, fun path i h => ⟨i, h, rfl⟩⟩

theorem migrate_text_spec_override : ∃ d d', sections_toml.parse old_text = some d ∧
    sections_toml.parse new_text = some d' ∧ Migrated d d' ∧
    migrate_text sections_toml new_text = .ok new_text :=
  migrate_text_spec sections_faithful (by decide +kernel)

end Override

end Fridica.Config.Migrate
