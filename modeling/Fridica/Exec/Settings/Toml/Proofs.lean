import Fridica.Exec.Settings.Toml.Values

/-!
# Settings read back

A snapshot of a TOML layer reads as the cleaned document of the layer.
-/

namespace Fridica.Exec.Settings

open Fridica.Toml
open Fridica.Checked

/-! ## Lines -/

/-- No line ends with `\r\n`. -/
def Plain (t : Text) : Prop := '\r' ∉ t

section Plain

variable {t u ds : Text}

theorem plain_append : Plain (t ++ u) ↔ Plain t ∧ Plain u := by simp [Plain]

theorem plain_cons {c : Char} : Plain (c :: t) ↔ '\r' ≠ c ∧ Plain t := by simp [Plain]

theorem plain_nil : Plain [] := by simp [Plain]

theorem normalize_plain (h : Plain t) : normalize t = t := by
  induction t with
  | nil => rfl
  | cons c t ih =>
    obtain ⟨hc, ht⟩ := plain_cons.mp h
    rw [Toml.normalize.eq_2 _ _ (by rintro - rfl; exact absurd rfl hc), ih ht]

theorem Digits.plain (h : Digits ds) : Plain ds := by
  intro hmem
  have hdigit := h _ hmem
  revert hdigit
  decide

theorem plain_intercalate {sep : Text} {parts : List Text} (hsep : Plain sep)
    (h : ∀ p ∈ parts, Plain p) : Plain (sep.intercalate parts) := by
  induction parts with
  | nil => exact plain_nil
  | cons p parts ih =>
    cases parts with
    | nil => simpa using h
    | cons q parts =>
      rw [List.intercalate_cons_cons, plain_append, plain_append]
      exact ⟨⟨h p (by simp), hsep⟩, ih fun x hx => h x (List.mem_cons_of_mem _ hx)⟩

theorem str_plain {n : Int} (h : str n = .ok t) : Plain t := by
  unfold str at h
  dsimp only at h
  split at h
  · cases h
  obtain rfl := Except.ok.inj h
  have hdigits := (toDigits_digits n.natAbs).plain
  split
  · exact plain_cons.mpr ⟨by decide, hdigits⟩
  · exact hdigits

theorem exponent_digits_plain (n : Nat) : Plain (exponent_digits n) :=
  (exponent_digits_read n).1.plain

theorem places_plain (h : Digits ds) (point : Int) : Plain (places ds point) := by
  have hzeros : ∀ n, Plain (List.replicate n '0') := fun n => (digits_zeros n).plain
  have htake : ∀ n, Plain (ds.take n) := fun n hmem => h.plain (List.mem_of_mem_take hmem)
  have hdrop : ∀ n, Plain (ds.drop n) := fun n hmem => h.plain (List.mem_of_mem_drop hmem)
  unfold places
  split_ifs <;>
    simp [plain_append, plain_cons, plain_nil, hzeros, htake, hdrop, h.plain,
      exponent_digits_plain, -List.drop_one]

theorem significant_digits (units : Nat) : Digits (significant units).1 := by
  rw [significant_eq]
  exact fun c hc => toDigits_digits _ c ((List.rdropWhile_prefix _ _).subset hc)

theorem repr_plain (negative : Bool) (units : Nat) : Plain (repr negative units) := by
  have hplaces := places_plain (significant_digits units) (significant units).2
  unfold repr
  rw [plain_append]
  constructor
  · split <;> simp [Plain]
  · split
    · simp [Plain]
    · exact hplaces

theorem padded_plain (w n : Nat) : Plain (padded w n) := (padded_digits w n).plain

theorem date_plain (d : Toml.Date) : Plain (Date.isoformat d) := by
  simp [Date.isoformat, plain_append, plain_cons, padded_plain]

theorem time_plain (t : Toml.Time) : Plain (Time.isoformat t) := by
  unfold Time.isoformat
  split <;> simp [plain_append, plain_cons, padded_plain]

theorem offset_plain (o : Toml.Offset) : Plain (Offset.isoformat o) := by
  unfold Offset.isoformat
  split <;> simp [plain_append, plain_cons, padded_plain]

theorem scalar_plain {a : Leaf} (h : scalar_text a = .ok t) : Plain t := by
  match a with
  | none => cases h
  | some (.int n) => exact str_plain h
  | some (.float .nan) =>
    obtain rfl := Except.ok.inj h
    simp [Plain]
  | some (.float (.infinity negative)) =>
    obtain rfl := Except.ok.inj h
    cases negative <;> simp [Plain]
  | some (.float (.finite negative units hfits)) =>
    obtain rfl := Except.ok.inj h
    exact repr_plain negative units
  | some (.date d) =>
    obtain rfl := Except.ok.inj h
    exact date_plain d
  | some (.time time) =>
    obtain rfl := Except.ok.inj h
    exact time_plain time
  | some (.datetime d time o) =>
    obtain rfl := Except.ok.inj h
    have hoffset : Plain ((o.map Offset.isoformat).getD []) := by
      cases o with
      | none => exact plain_nil
      | some o => exact offset_plain o
    simp [plain_append, plain_cons, date_plain, time_plain, hoffset]

theorem escape_plain (c : Char) : Plain (escape_char c) := by
  unfold escape_char
  split_ifs with h1 h2 h3 h4
  any_goals simp [Plain]
  exact fun heq => h4 heq.symm

theorem dumps_plain (s : Text) : Plain (dumps s) := by
  have hescaped : Plain (s.flatMap escape_char) := by
    intro hmem
    obtain ⟨c, -, hc⟩ := List.mem_flatMap.mp hmem
    exact escape_plain c hc
  simp [dumps, plain_append, plain_cons, plain_nil, hescaped]

theorem items_plain {depth : Nat} {items : List (Document Leaf)} {parts : List Text}
    (ih : ∀ d ∈ items, ∀ depth t, toml depth d = .ok t → Plain t)
    (h : toml_items depth items = .ok parts) : ∀ p ∈ parts, Plain p := by
  induction items generalizing parts with
  | nil =>
    obtain rfl := Except.ok.inj h
    simp
  | cons d items ihl =>
    obtain ⟨part, more, hpart, hmore, rfl⟩ := toml_items_cons h
    have hrest := ihl (fun x hx => ih x (List.mem_cons_of_mem _ hx)) hmore
    simpa using ⟨ih d (by simp) _ _ hpart, hrest⟩

theorem entries_plain {depth : Nat} {entries : List (String × Document Leaf)} {parts : List Text}
    (ih : ∀ e ∈ entries, ∀ depth t, toml depth e.2 = .ok t → Plain t)
    (h : toml_entries depth entries = .ok parts) : ∀ p ∈ parts, Plain p := by
  induction entries generalizing parts with
  | nil =>
    obtain rfl := Except.ok.inj h
    simp
  | cons e entries ihl =>
    obtain ⟨part, more, hpart, hmore, rfl⟩ := toml_entries_cons h
    have hrest := ihl (fun x hx => ih x (List.mem_cons_of_mem _ hx)) hmore
    have hpair : Plain (pair_text e.1 part) := by
      simp [pair_text, plain_append, plain_cons, dumps_plain, ih e (by simp) _ _ hpart]
    simpa using ⟨hpair, hrest⟩

theorem toml_plain (d : Document Leaf) : ∀ depth t, toml depth d = .ok t → Plain t := by
  have hcomma : Plain [',', ' '] := by simp [Plain]
  induction d using Document.induct with
  | text s =>
    intro depth t h
    rw [show t = dumps s.toList from toml_ok h]
    exact dumps_plain _
  | bool b =>
    intro depth t h
    rw [show t = if b then "true".toList else "false".toList from toml_ok h]
    cases b <;> simp [Plain]
  | scalar a => exact fun depth t h => scalar_plain (toml_ok h)
  | list items ih =>
    intro depth t h
    obtain ⟨parts, hparts, rfl⟩ : Shape depth t (.list items) := toml_ok h
    have hinter := plain_intercalate hcomma (items_plain ih hparts)
    simp [plain_append, plain_cons, plain_nil, hinter]
  | dict entries ih =>
    intro depth t h
    obtain ⟨parts, hparts, rfl⟩ : Shape depth t (.dict entries) := toml_ok h
    have hinter := plain_intercalate hcomma (entries_plain ih hparts)
    simp [plain_append, plain_cons, plain_nil, hinter]

end Plain

/-! ## Statements -/

section Statements

variable {fuel : Nat} {t text : Text} {d : Document Leaf} {st : State}

/-- The state after a key that is in no table. -/
def with_key (st : State) (k : Text) (v : Value) (data : Table) : State :=
  { st with data, frozen := if v.is_container then [k] :: st.frozen else st.frozen }

@[simp] theorem with_key_data (k : Text) (v : Value) (data : Table) :
    (with_key st k v data).data = data := rfl

theorem key_value_read {k : String} (hd : toml 0 d = .ok text)
    (hfuel : (pair_text k text).length ≤ fuel) (hst : st.header = []) :
    key_value fuel st (pair_text k text ++ '\n' :: t) =
      if DEL ∈ k.toList then none
      else (read_back d).bind fun v => (Toml.add k.toList v st.data).map fun data =>
        (with_key st k.toList v data, '\n' :: t) := by
  -- A key of one part has no tables before it that could be closed.
  have hread := pair_read (fun k v t =>
    let parents := (k.dropLast.inits.tail).map (st.header ++ ·)
    if parents.any (st.explicit.contains ·) then none
    else if is_frozen st.frozen (st.header ++ k.dropLast) then none
    else (at_nest true (Toml.add (k.getLastD []) v) (st.header ++ k.dropLast) st.data).map
      fun data => ({ st with
          data
          pending := parents ++ st.pending
          frozen := if v.is_container then (st.header ++ k) :: st.frozen else st.frozen }, t))
    (value_read d) hd hfuel (.newline t)
  unfold key_value
  refine hread.trans ?_
  simp [hst, is_frozen, at_nest, with_key]

theorem statement_step {k : String} (hd : toml 0 d = .ok text)
    (hfuel : (pair_text k text).length ≤ fuel) (hst : st.header = []) :
    statements (fuel + 1) st (pair_text k text ++ '\n' :: t) =
      if DEL ∈ k.toList then none
      else (read_back d).bind fun v => (Toml.add k.toList v st.data).bind fun data =>
        statements fuel (with_key st k.toList v data) t := by
  have hskip := ((pair_starts k text).append ('\n' :: t)).skip_ws
  have hquote : pair_text k text ++ '\n' :: t =
      '"' :: (pair_text k text ++ '\n' :: t).tail := rfl
  have hstatement : statement fuel st (pair_text k text ++ '\n' :: t) =
      key_value fuel st (pair_text k text ++ '\n' :: t) := rfl
  conv_lhs => unfold statements
  rw [hskip, if_neg (by rw [hquote]; simp), if_neg (by rw [hquote]; simp), hstatement,
    key_value_read hd hfuel hst]
  split
  · rfl
  · cases hback : read_back d with
    | none => rfl
    | some v =>
      cases hadd : Toml.add k.toList v st.data with
      | none => simp [hadd]
      | some data => simp [hadd, skip_ws, ws, skip_comment]

theorem statements_read {entries : List (String × Document Leaf)} {parts : List Text}
    (h : toml_entries 0 entries = .ok parts)
    (hfuel : (['\n'].intercalate parts).length + 2 ≤ fuel) (hst : st.header = []) :
    statements fuel st (['\n'].intercalate parts ++ ['\n']) = read_entries entries st.data := by
  induction entries generalizing parts fuel st with
  | nil =>
    obtain rfl := Except.ok.inj h
    rw [List.intercalate_nil] at hfuel ⊢
    obtain ⟨fuel, rfl⟩ : ∃ n, fuel = n + 2 := ⟨fuel - 2, by omega⟩
    simp [statements, skip_ws, ws, read_entries]
  | cons e entries ih =>
    obtain ⟨k, d⟩ := e
    obtain ⟨part, more, hpart, hmore, rfl⟩ := toml_entries_cons h
    obtain ⟨fuel, rfl⟩ : ∃ n, fuel = n + 1 := ⟨fuel - 1, by omega⟩
    have hrest : ∃ t, ['\n'].intercalate (pair_text k part :: more) ++ ['\n'] =
        pair_text k part ++ '\n' :: t ∧ (pair_text k part).length ≤ fuel ∧
        ∀ st : State, st.header = [] → statements fuel st t = read_entries entries st.data := by
      cases entries with
      | nil =>
        obtain rfl := Except.ok.inj hmore
        rw [List.intercalate_singleton] at hfuel ⊢
        obtain ⟨fuel, rfl⟩ : ∃ n, fuel = n + 1 := ⟨fuel - 1, by omega⟩
        exact ⟨[], rfl, by omega, fun st _ => by simp [statements, skip_ws, read_entries]⟩
      | cons x entries =>
        obtain ⟨part', more', -, -, rfl⟩ := toml_entries_cons hmore
        rw [List.intercalate_cons_cons] at hfuel ⊢
        simp only [List.length_append, List.length_singleton] at hfuel
        exact ⟨['\n'].intercalate (pair_text x.1 part' :: more') ++ ['\n'], by simp, by omega,
          fun st hst => ih hmore (by omega) hst⟩
    obtain ⟨t, htext, hlen, hstatements⟩ := hrest
    rw [htext, statement_step hpart hlen hst, read_entries]
    split
    · rfl
    · cases read_back d with
      | none => rfl
      | some v =>
        cases hadd : Toml.add k.toList v st.data with
        | none => simp [hadd]
        | some data =>
          have hread := hstatements (with_key st k.toList v data) hst
          simpa [hadd] using hread

end Statements

/-! ## Layers -/

/-- The lines of a document. -/
def lines (parts : List Text) : Text := ['\n'].intercalate parts ++ ['\n']

section Layers

variable {entries : List (String × Document Leaf)} {parts : List Text}

theorem lines_plain (h : toml_entries 0 entries = .ok parts) : Plain (lines parts) := by
  have hnewline : Plain ['\n'] := by simp [Plain]
  have hparts := entries_plain (fun e _ => toml_plain e.2) h
  exact plain_append.mpr ⟨plain_intercalate hnewline hparts, hnewline⟩

/-- What is written of a document reads as the entries, one after another. -/
theorem loads_lines (h : toml_entries 0 entries = .ok parts) :
    loads (lines parts) = read_entries entries [] := by
  unfold loads
  rw [normalize_plain (lines_plain h)]
  exact statements_read h (by simp [lines]) rfl

/-- What TOML has not is refused, and nothing else that can be written. -/
theorem toml_text_iff {text : Text} : toml_text (.dict entries) = .ok text ↔
    Readable (.dict entries) ∧
      ∃ parts, toml_entries 0 entries = .ok parts ∧ text = lines parts := by
  have hback := read_back_isSome (.dict entries)
  rw [read_back, Option.isSome_map] at hback
  unfold toml_text
  rw [bind_ok]
  constructor
  · rintro ⟨parts, hparts, h⟩
    have hloads := loads_lines hparts
    unfold lines at hloads
    dsimp only at h
    rw [hloads] at h
    cases hread : read_entries entries [] with
    | none =>
      rw [hread] at h
      cases h
    | some t =>
      rw [hread] at h
      exact ⟨hback.mp (by rw [hread]; rfl), parts, hparts, (pure_ok.mp h).symm⟩
  · rintro ⟨hreadable, parts, hparts, rfl⟩
    have hloads := loads_lines hparts
    have hsome : ¬ (read_entries entries []).isNone = true := by
      rw [Option.isNone_iff_eq_none]
      exact Option.isSome_iff_ne_none.mp (hback.mpr hreadable)
    unfold lines at hloads
    refine ⟨parts, hparts, ?_⟩
    dsimp only
    rw [hloads, if_neg hsome]
    rfl

theorem toml_text_ok {d : Document Leaf} {text : Text} (h : toml_text d = .ok text) :
    ∃ t, loads text = some t ∧ of_value (.table t) = d := by
  cases d with
  | dict entries =>
    obtain ⟨hreadable, parts, hparts, rfl⟩ := toml_text_iff.mp h
    obtain ⟨v, hv⟩ := Option.isSome_iff_exists.mp ((read_back_isSome _).mpr hreadable)
    rw [read_back] at hv
    obtain ⟨t, ht, rfl⟩ := Option.map_eq_some_iff.mp hv
    exact ⟨t, (loads_lines hparts).trans ht, of_read_back _ (by rw [read_back, ht]; rfl)⟩
  | text | bool | scalar | list => cases h

variable {json : Document Leaf → Except Refused Text}

theorem render_ok {name : String} {d : Document Leaf} {text : Text} (hname : is_toml name = true)
    (h : render json name d = .ok text) : toml_text d = .ok text := by
  unfold render at h
  rw [if_pos hname] at h
  obtain ⟨written, hwritten, h⟩ := bind_ok.mp h
  dsimp only at h
  split at h
  · cases h
  · rw [hwritten, Except.ok.inj h]

/-- The snapshot has the name of the layer. Of TOML, it reads as the cleaned document. -/
def ReadsAs (layer : Layer Leaf) (snapshot : String × Text) : Prop :=
  snapshot.1 = layer.1 ∧
    (is_toml layer.1 = true → ∃ d t after, visit true 0 layer.2 [] = .ok (d, after) ∧
      loads snapshot.2 = some t ∧ of_value (.table t) = d)

theorem clean_reads {layers : List (Layer Leaf)} {aliases aliases' : List String}
    {snapshots : List (String × Text)}
    (h : clean (render json) layers aliases = .ok (snapshots, aliases')) :
    List.Forall₂ ReadsAs layers snapshots := by
  induction layers generalizing aliases snapshots with
  | nil =>
    obtain ⟨rfl, rfl⟩ := Prod.mk.inj (Except.ok.inj h)
    exact .nil
  | cons layer layers ih =>
    unfold clean at h
    obtain ⟨⟨d, aliases₁⟩, hvisit, h⟩ := bind_ok.mp h
    obtain ⟨data, hdata, h⟩ := bind_ok.mp h
    obtain ⟨⟨snapshots', aliases₂⟩, hrest, h⟩ := bind_ok.mp h
    obtain ⟨rfl, rfl⟩ := Prod.mk.inj (pure_ok.mp h)
    refine .cons ⟨rfl, fun hname => ?_⟩ (ih hrest)
    obtain ⟨t, hloads, hback⟩ := toml_text_ok (render_ok hname hdata)
    obtain ⟨after, hclean⟩ := steady_visit _ _ _ _ _ hvisit []
    exact ⟨d, t, after, hclean, hloads, hback⟩

/-- **Every snapshot of TOML reads as the cleaned document.** -/
theorem snapshots_read_back {codex_only : Bool} {layers : List (Layer Leaf)}
    {snapshots : List (String × Text)} {aliases : List String}
    (h : settings_snapshots codex_only (render json) layers = .ok (snapshots, aliases)) :
    if codex_only then snapshots = [] else List.Forall₂ ReadsAs layers snapshots := by
  unfold settings_snapshots at h
  obtain ⟨found, hfound, h⟩ := bind_ok.mp h
  split at h
  · cases h
  split at h
  next honly =>
    obtain ⟨rfl, rfl⟩ := Prod.mk.inj (pure_ok.mp h)
    rw [if_pos honly]
  next honly =>
    obtain ⟨⟨snapshots', aliases₁⟩, hclean, h⟩ := bind_ok.mp h
    obtain ⟨rfl, rfl⟩ := Prod.mk.inj (pure_ok.mp h)
    rw [if_neg honly]
    exact clean_reads hclean

end Layers

/-- Text with quotes and a newline, a server, and scalars in a list. -/
def mixed : Document Leaf :=
  .dict [("a key", .text "say \"hi\"\n\u0001é"),
    ("mcp_servers", .dict [("s", .dict [("command", .text "run")])]),
    ("list", .list [.scalar (some (.int (-30))), .bool true, .dict [],
      .scalar (some (.float (.infinity true))),
      .scalar (some (.datetime ⟨2024, 2, 29, by decide, by decide, by decide⟩
        ⟨1, 2, 3, 40, by decide⟩ (some ⟨-90, by decide⟩)))])]

def mixed_text : Text :=
  ("\"a key\" = \"say \\\"hi\\\"\\n\\u0001é\"\n" ++
    "\"mcp_servers\" = \x7b \"s\" = \x7b \"command\" = \"/bin/false\", " ++
    "\"enabled\" = false \x7d \x7d\n" ++
    "\"list\" = [-30, true, \x7b  \x7d, -inf, 2024-02-29T01:02:03.000040-01:30]\n").toList

theorem mixed_accepted : settings_snapshots false (render fun _ => .error ⟨⟩) [("/c.toml", mixed)] =
    .ok ([("/c.toml", mixed_text)], ["s"].mergeSort) := by
  have hfound : discover [("/c.toml", mixed)] [] = .ok ["s"] := by decide +kernel
  have hclean : clean (render fun _ => .error ⟨⟩) [("/c.toml", mixed)] ["s"] =
      .ok ([("/c.toml", mixed_text)], ["s"]) := by decide +kernel
  unfold settings_snapshots
  rw [hfound]
  dsimp only [bind, Except.bind]
  rw [hclean]
  rfl

theorem snapshots_read_back_mixed :
    List.Forall₂ ReadsAs [("/c.toml", mixed)] [("/c.toml", mixed_text)] :=
  snapshots_read_back mixed_accepted

end Fridica.Exec.Settings
