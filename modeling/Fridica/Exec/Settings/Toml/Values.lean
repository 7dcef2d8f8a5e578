import Fridica.Exec.Settings.Proofs
import Fridica.Exec.Settings.Toml.Numbers

/-!
# Values read back

What is written of a value reads as the value, unless it holds the one character that JSON writes as
it is and TOML does not have.
-/

namespace Fridica.Exec.Settings

open Fridica.Toml
open Fridica.Checked

/-! ## Strings -/

def DEL : Char := Char.ofNat 127

section Strings

variable {s rest t : Text} {fuel : Nat}

theorem hex_escape : ∀ n < 32,
    hex_value ['0', '0', (n / 16).digitChar, (n % 16).digitChar] = some n := by decide

theorem basic_escape {c : Char} (h : c ≠ DEL) (fuel : Nat) (t : Text) :
    basic false (fuel + 1) (escape_char c ++ t) =
      (basic false fuel t).map fun (s, r) => (c :: s, r) := by
  unfold escape_char
  split_ifs with h1 h2 h3 h4 h5 h6 h7 h8
  · rw [h1]
    rfl
  · rw [h2]
    rfl
  · rw [h3]
    rfl
  · rw [h4]
    rfl
  · rw [h5]
    rfl
  · rw [h6]
    rfl
  · rw [h7]
    rfl
  · have hchar : escape ('u' :: '0' :: '0' :: (c.toNat / 16).digitChar ::
        (c.toNat % 16).digitChar :: t) = some (c, t) := by
      have hvalid : c.toNat.isValidChar := c.valid
      simp [escape, hex_char, hex_escape c.toNat h8, hvalid]
    simp [basic, hchar]
  · have hillegal : illegal c = false := by
      have hdel : c.toNat ≠ 127 := by
        intro heq
        apply h
        rw [← Char.ofNat_toNat c, heq]
        rfl
      simp [illegal, Toml.control, hdel]
      omega
    simp [basic, h1, h2, hillegal]

theorem escape_del : escape_char DEL = [DEL] := by decide

theorem basic_read (h : s.length < fuel) : basic false fuel (s.flatMap escape_char ++ '"' :: rest) =
    if DEL ∈ s then none else some (s, rest) := by
  induction s generalizing fuel with
  | nil =>
    obtain ⟨fuel, rfl⟩ := Nat.exists_eq_add_of_lt h
    simp [basic]
  | cons c s ih =>
    obtain ⟨fuel, rfl⟩ : ∃ n, fuel = n + 1 := ⟨fuel - 1, by omega⟩
    rw [List.length_cons] at h
    rw [List.flatMap_cons, List.append_assoc]
    by_cases hc : c = DEL
    · subst hc
      have hillegal : illegal DEL = true := by decide
      have hquote : DEL ≠ '"' ∧ DEL ≠ '\\' := by decide
      rw [escape_del, if_pos (by simp)]
      simp [basic, hillegal, hquote]
    · rw [basic_escape hc, ih (by omega)]
      have hne : DEL ≠ c := fun heq => hc heq.symm
      by_cases hdel : DEL ∈ s <;> simp [hdel, hne]

theorem escape_char_head (c : Char) : ∃ d u, escape_char c = d :: u ∧ d ≠ '"' := by
  unfold escape_char
  split_ifs with h1 <;> exact ⟨_, _, rfl, by first | decide | exact h1⟩

theorem length_le_escaped (s : Text) : s.length ≤ (s.flatMap escape_char).length := by
  induction s with
  | nil => simp
  | cons c s ih =>
    obtain ⟨d, u, heq, -⟩ := escape_char_head c
    rw [List.flatMap_cons, heq, List.length_append, List.length_cons, List.length_cons]
    omega

theorem dumps_length (s : Text) : s.length + 2 ≤ (dumps s).length := by
  have hle := length_le_escaped s
  rw [dumps, List.length_cons, List.length_append, List.length_singleton]
  omega

end Strings

/-! ## What is written -/

/-- What is written of a value, by its kind. -/
def Shape (depth : Nat) (text : Text) : Document Leaf → Prop
  | .text s => text = dumps s.toList
  | .bool b => text = if b then "true".toList else "false".toList
  | .scalar a => scalar_text a = .ok text
  | .list items => ∃ parts, toml_items (depth + 1) items = .ok parts ∧
      text = '[' :: ([',', ' '].intercalate parts ++ [']'])
  | .dict entries => ∃ parts, toml_entries (depth + 1) entries = .ok parts ∧
      text = '\x7b' :: ' ' :: ([',', ' '].intercalate parts ++ [' ', '\x7d'])

section Written

variable {depth : Nat} {text t : Text} {parts : List Text} {d : Document Leaf}
variable {ds : List (Document Leaf)} {entries : List (String × Document Leaf)}

theorem toml_ok (h : toml depth d = .ok text) : Shape depth text d := by
  unfold toml at h
  split at h
  · cases h
  cases d with
  | text s => exact (Except.ok.inj h).symm
  | bool b => exact (Except.ok.inj h).symm
  | scalar a => exact h
  | list items =>
    obtain ⟨parts, hparts, h⟩ := bind_ok.mp h
    exact ⟨parts, hparts, (pure_ok.mp h).symm⟩
  | dict entries =>
    obtain ⟨parts, hparts, h⟩ := bind_ok.mp h
    exact ⟨parts, hparts, (pure_ok.mp h).symm⟩

theorem toml_items_cons (h : toml_items depth (d :: ds) = .ok parts) :
    ∃ part rest, toml depth d = .ok part ∧ toml_items depth ds = .ok rest ∧
      parts = part :: rest := by
  unfold toml_items at h
  obtain ⟨part, hpart, h⟩ := bind_ok.mp h
  obtain ⟨rest, hrest, h⟩ := bind_ok.mp h
  exact ⟨part, rest, hpart, hrest, (pure_ok.mp h).symm⟩

/-- A key and its value. -/
def pair_text (k : String) (part : Text) : Text := dumps k.toList ++ ' ' :: '=' :: ' ' :: part

theorem toml_entries_cons {k : String} (h : toml_entries depth ((k, d) :: entries) = .ok parts) :
    ∃ part rest, toml depth d = .ok part ∧ toml_entries depth entries = .ok rest ∧
      parts = pair_text k part :: rest := by
  unfold toml_entries at h
  obtain ⟨key, hkey, h⟩ := bind_ok.mp h
  obtain ⟨part, hpart, h⟩ := bind_ok.mp h
  obtain ⟨rest, hrest, h⟩ := bind_ok.mp h
  unfold toml_key at hkey
  split at hkey
  · cases hkey
  obtain rfl := Except.ok.inj hkey
  exact ⟨part, rest, hpart, hrest, (pure_ok.mp h).symm⟩

/-! ### How it begins -/

/-- Nothing that is skipped before a value, and no end of a container. -/
def Starts (t : Text) : Prop :=
  ∃ c u, t = c :: u ∧ c ∉ [' ', '\t', '\n', '#', ']', '\x7d']

theorem Starts.append (h : Starts t) (u : Text) : Starts (t ++ u) := by
  obtain ⟨c, t, rfl, hc⟩ := h
  exact ⟨c, t ++ u, rfl, hc⟩

theorem Starts.length_pos (h : Starts t) : 0 < t.length := by
  obtain ⟨c, t, rfl, -⟩ := h
  simp

/-- What begins neither a string, a truth value nor a container, and is not skipped. -/
def StartsScalar (c : Char) : Prop :=
  c ∉ ['"', '\'', 't', 'f', '[', '\x7b', ' ', '\t', '\n', '#', ']', '\x7d']

theorem scalar_none {c : Char} (hc : ¬ StartsScalar c) (t : Text) : scalar (c :: t) = none := by
  have hother : ∀ c ∈ ['"', '\'', 't', 'f', '[', '\x7b', ' ', '\t', '\n', '#', ']', '\x7d'],
      c.isDigit = false ∧ c ∉ ['0', '+', '-', 'i', 'n'] := by
    simp only [List.forall_mem_cons, List.not_mem_nil, false_implies, implies_true, and_true]
    decide
  obtain ⟨hdigit, hnot⟩ := hother c (not_not.mp hc)
  simp only [List.mem_cons, List.not_mem_nil, or_false, not_or] at hnot
  obtain ⟨hzero, hplus, hminus, hi, hn⟩ := hnot
  have hsign : sign (c :: t) = (false, c :: t) := by simp [sign, hplus, hminus]
  rw [scalar_word hdigit hzero (by simp [hsign, integer_part, digits_of, hdigit, hzero])]
  simp [special, hsign, hi, hn]

theorem scalar_starts {a : Leaf} (h : scalar_text a = .ok text) :
    ∃ c u, text = c :: u ∧ StartsScalar c := by
  cases a with
  | none => cases h
  | some a =>
    have hread := scalar_read h (.newline [])
    cases text with
    | nil =>
      rw [List.nil_append, scalar_none (by simp [StartsScalar])] at hread
      cases hread
    | cons c u =>
      refine ⟨c, u, rfl, ?_⟩
      by_contra hc
      rw [List.cons_append, scalar_none hc] at hread
      cases hread

theorem toml_starts (h : toml depth d = .ok text) : Starts text := by
  have hshape := toml_ok h
  cases d with
  | text s =>
    obtain rfl := hshape
    exact ⟨_, _, rfl, by decide⟩
  | bool b =>
    obtain rfl := hshape
    cases b <;> exact ⟨_, _, rfl, by decide⟩
  | scalar a =>
    obtain ⟨c, u, rfl, hc⟩ := scalar_starts hshape
    refine ⟨c, u, rfl, fun hmem => hc ?_⟩
    simp only [List.mem_cons, List.not_mem_nil] at hmem ⊢
    tauto
  | list items =>
    obtain ⟨parts, -, rfl⟩ := hshape
    exact ⟨_, _, rfl, by decide⟩
  | dict entries =>
    obtain ⟨parts, -, rfl⟩ := hshape
    exact ⟨_, _, rfl, by decide⟩

theorem pair_starts (k : String) (part : Text) : Starts (pair_text k part) :=
  ⟨_, _, rfl, by decide⟩

theorem Starts.intercalate (h : Starts t) (sep : Text) (parts : List Text) :
    Starts (sep.intercalate (t :: parts)) := by
  cases parts with
  | nil => simpa using h
  | cons u parts =>
    rw [List.intercalate_cons_cons, List.append_assoc]
    exact h.append _

end Written

/-! ## What is skipped -/

section Skipped

variable {t : Text} {fuel : Nat}

theorem Starts.skip_ws (h : Starts t) : skip_ws t = t := by
  obtain ⟨c, t, rfl, hc⟩ := h
  simp only [List.mem_cons, not_or] at hc
  simp [Toml.skip_ws, ws, hc]

theorem skip_ws_blank (t : Text) : skip_ws (' ' :: t) = skip_ws t := by
  simp [skip_ws, ws]

theorem skip_array_ws_stays {c : Char} (hc : c ∉ [' ', '\t', '\n', '#']) (t : Text) :
    skip_array_ws (fuel + 1) (c :: t) = some (c :: t) := by
  simp only [List.mem_cons, List.not_mem_nil, not_or] at hc
  have hdrop : (c :: t).dropWhile ws_or_newline = c :: t := by
    simp [ws_or_newline, ws, hc]
  unfold skip_array_ws
  rw [hdrop]
  split
  next heq => simp_all
  · rfl

theorem skip_array_ws_blank (t : Text) : skip_array_ws fuel (' ' :: t) = skip_array_ws fuel t := by
  cases fuel with
  | zero => rfl
  | succ fuel => simp [skip_array_ws, ws_or_newline, ws]

theorem Starts.skip_array_ws (h : Starts t) (hfuel : 0 < fuel) :
    skip_array_ws fuel t = some t ∧ t.head? ≠ some ']' := by
  obtain ⟨c, t, rfl, hc⟩ := h
  obtain ⟨fuel, rfl⟩ := Nat.exists_eq_add_of_lt hfuel
  constructor
  · rw [Nat.zero_add]
    apply skip_array_ws_stays
    simp only [List.mem_cons, List.not_mem_nil] at hc ⊢
    tauto
  · simp only [List.mem_cons, not_or] at hc
    simp [hc]

end Skipped

/-! ## What the reader makes of a document -/

mutual

/-- The value that a document reads as when it is written. -/
def read_back : Document Leaf → Option Value
  | .text s => if DEL ∈ s.toList then none else some (.string s.toList)
  | .bool b => some (.bool b)
  | .scalar a => a.map .scalar
  | .list items => (read_items items).map .array
  | .dict entries => (read_entries entries []).map .table

def read_items : List (Document Leaf) → Option (List Value)
  | [] => some []
  | d :: items => (read_back d).bind fun v => (read_items items).map (v :: ·)

/-- One entry after another, in a table that has each key once. -/
def read_entries : List (String × Document Leaf) → Table → Option Table
  | [], t => some t
  | (k, d) :: entries, t =>
    if DEL ∈ k.toList then none
    else (read_back d).bind fun v => (Toml.add k.toList v t).bind (read_entries entries)

end

section ReadBack

theorem of_entries_append (t u : Table) : of_entries (t ++ u) = of_entries t ++ of_entries u := by
  induction t with
  | nil => rfl
  | cons e t ih =>
    obtain ⟨k, v⟩ := e
    simp [of_entries, ih]

theorem add_ok {k : Text} {v : Value} {t t' : Table} (h : Toml.add k v t = some t') :
    t' = t ++ [(k, v)] := by
  unfold Toml.add at h
  split at h
  · cases h
  · exact (Option.some.inj h).symm

theorem of_read_items {items : List (Document Leaf)}
    (ih : ∀ d ∈ items, ∀ v, read_back d = some v → of_value v = d) {vs : List Value}
    (h : read_items items = some vs) : of_items vs = items := by
  induction items generalizing vs with
  | nil =>
    obtain rfl := Option.some.inj h
    rfl
  | cons d items ihl =>
    unfold read_items at h
    obtain ⟨v, hv, h⟩ := Option.bind_eq_some_iff.mp h
    obtain ⟨vs, hvs, rfl⟩ := Option.map_eq_some_iff.mp h
    rw [of_items, ih d (by simp) v hv, ihl (fun d hd => ih d (by simp [hd])) hvs]

theorem of_read_entries {entries : List (String × Document Leaf)}
    (ih : ∀ e ∈ entries, ∀ v, read_back e.2 = some v → of_value v = e.2) {t t' : Table}
    (h : read_entries entries t = some t') : of_entries t' = of_entries t ++ entries := by
  induction entries generalizing t with
  | nil =>
    obtain rfl := Option.some.inj h
    simp
  | cons e entries ihl =>
    obtain ⟨k, d⟩ := e
    unfold read_entries at h
    split at h
    · cases h
    obtain ⟨v, hv, h⟩ := Option.bind_eq_some_iff.mp h
    obtain ⟨u, hu, h⟩ := Option.bind_eq_some_iff.mp h
    obtain rfl := add_ok hu
    rw [ihl (fun e he => ih e (by simp [he])) h, of_entries_append]
    simp [of_entries, ih (k, d) (by simp) v hv]

theorem of_read_back {d : Document Leaf} : ∀ v, read_back d = some v → of_value v = d := by
  induction d using Document.induct with
  | text s =>
    intro v h
    unfold read_back at h
    split at h
    · cases h
    obtain rfl := Option.some.inj h
    simp [of_value]
  | bool b =>
    intro v h
    obtain rfl := Option.some.inj h
    rfl
  | scalar a =>
    intro v h
    obtain ⟨a, rfl, rfl⟩ := Option.map_eq_some_iff.mp h
    rfl
  | list items ih =>
    intro v h
    unfold read_back at h
    obtain ⟨vs, hvs, rfl⟩ := Option.map_eq_some_iff.mp h
    rw [of_value, of_read_items ih hvs]
  | dict entries ih =>
    intro v h
    unfold read_back at h
    obtain ⟨t, ht, rfl⟩ := Option.map_eq_some_iff.mp h
    rw [of_value, of_read_entries ih ht]
    rfl

mutual

/-- TOML has the document: no text of it has DEL, nothing is `null`, and no map has a key twice. -/
def Readable : Document Leaf → Prop
  | .text s => DEL ∉ s.toList
  | .bool _ => True
  | .scalar a => a ≠ none
  | .list items => ReadableItems items
  | .dict entries => (entries.map (·.1)).Nodup ∧ ReadableEntries entries

def ReadableItems : List (Document Leaf) → Prop
  | [] => True
  | d :: items => Readable d ∧ ReadableItems items

def ReadableEntries : List (String × Document Leaf) → Prop
  | [] => True
  | (k, d) :: entries => DEL ∉ k.toList ∧ Readable d ∧ ReadableEntries entries

end

theorem read_items_isSome {items : List (Document Leaf)}
    (ih : ∀ d ∈ items, (read_back d).isSome = true ↔ Readable d) :
    (read_items items).isSome = true ↔ ReadableItems items := by
  induction items with
  | nil => simp [read_items, ReadableItems]
  | cons d items ihl =>
    have hrest := ihl fun x hx => ih x (by simp [hx])
    rw [ReadableItems, ← ih d (by simp), ← hrest, read_items]
    cases read_back d <;> simp

theorem read_entries_isSome {entries : List (String × Document Leaf)}
    (ih : ∀ e ∈ entries, (read_back e.2).isSome = true ↔ Readable e.2) (t : Table) :
    (read_entries entries t).isSome = true ↔
      ((entries.map (·.1)).Nodup ∧ ∀ e ∈ entries, t.lookup e.1.toList = none) ∧
        ReadableEntries entries := by
  induction entries generalizing t with
  | nil => simp [read_entries, ReadableEntries]
  | cons e entries ihl =>
    obtain ⟨k, d⟩ := e
    have hrest := ihl fun x hx => ih x (by simp [hx])
    rw [ReadableEntries, ← ih (k, d) (by simp), read_entries]
    by_cases hdel : DEL ∈ k.toList
    · simp [hdel]
    rw [if_neg hdel]
    cases hback : read_back d with
    | none => simp
    | some v =>
      cases hlookup : t.lookup k.toList with
      | some w =>
        have hadd : Toml.add k.toList v t = none := by simp [Toml.add, hlookup]
        simp only [Option.bind_some, hadd, Option.bind_none, Option.isSome_none,
          Bool.false_eq_true, false_iff]
        rintro ⟨⟨-, hall⟩, -⟩
        have hnone : t.lookup k.toList = none := hall (k, d) (by simp)
        rw [hlookup] at hnone
        cases hnone
      | none =>
        have hadd : Toml.add k.toList v t = some (t ++ [(k.toList, v)]) := by
          simp [Toml.add, hlookup]
        have hnew : ∀ e ∈ entries, (t ++ [(k.toList, v)]).lookup e.1.toList = none ↔
            t.lookup e.1.toList = none ∧ k ≠ e.1 := by
          intro e _
          have hone : [(k.toList, v)].lookup e.1.toList = none ↔ e.1.toList ≠ k.toList := by simp
          rw [List.lookup_append, Option.or_eq_none_iff, hone]
          simp [String.toList_inj, eq_comm]
        rw [Option.bind_some, hadd, Option.bind_some, hrest, forall₂_congr hnew]
        simp only [List.map_cons, List.nodup_cons, List.forall_mem_cons, List.mem_map, not_exists,
          not_and, hlookup, hdel, forall_and, Option.isSome_some, not_false_eq_true, true_and]
        have hkey : (∀ e ∈ entries, k ≠ e.1) ↔ ∀ e ∈ entries, e.1 ≠ k := by
          simp only [ne_comm]
        tauto

theorem read_back_isSome (d : Document Leaf) : (read_back d).isSome = true ↔ Readable d := by
  induction d using Document.induct with
  | text s =>
    rw [read_back, Readable]
    split <;> simp_all
  | bool b => simp [read_back, Readable]
  | scalar a => cases a <;> simp [read_back, Readable]
  | list items ih =>
    rw [read_back, Readable, Option.isSome_map, read_items_isSome ih]
  | dict entries ih =>
    rw [read_back, Readable, Option.isSome_map, read_entries_isSome ih]
    simp

end ReadBack

/-! ## Values -/

/-- The reader reads what is written of the document as `read_back` has it, with enough fuel. -/
def ReadsBack (d : Document Leaf) : Prop :=
  ∀ depth text fuel rest, toml depth d = .ok text → text.length ≤ fuel → Delimited rest →
    value fuel (text ++ rest) = (read_back d).map (·, rest)

section Values

variable {depth fuel : Nat} {text t rest : Text} {parts : List Text} {d : Document Leaf}
variable {ds : List (Document Leaf)} {entries : List (String × Document Leaf)}

theorem text_reads (s : String) : ReadsBack (.text s) := by
  intro depth text fuel rest h hfuel hrest
  obtain rfl : text = dumps s.toList := toml_ok h
  have hlen := dumps_length s.toList
  obtain ⟨fuel, rfl⟩ : ∃ n, fuel = n + 1 := ⟨fuel - 1, by omega⟩
  have hsingle : ((s.toList.flatMap escape_char ++ '"' :: rest).take 2) ≠ ['"', '"'] := by
    cases hs : s.toList with
    | nil =>
      have hhead : rest.head? ≠ some '"' := hrest.head_ne (by decide)
      cases rest <;> simp_all
    | cons c u =>
      obtain ⟨e, w, heq, hne⟩ := escape_char_head c
      simp [heq, hne]
  have hread : basic false fuel (s.toList.flatMap escape_char ++ '"' :: rest) =
      if DEL ∈ s.toList then none else some (s.toList, rest) := basic_read (by omega)
  unfold dumps
  rw [List.cons_append, List.append_assoc, List.singleton_append]
  unfold value
  simp only [hsingle, hread, read_back, true_or, if_true, if_false]
  split <;> rfl

theorem bool_reads (b : Bool) : ReadsBack (.bool b) := by
  intro depth text fuel rest h hfuel hrest
  obtain rfl : text = if b then "true".toList else "false".toList := toml_ok h
  cases b with
  | true =>
    obtain ⟨fuel, rfl⟩ : ∃ n, fuel = n + 1 := ⟨fuel - 1, by simp at hfuel; omega⟩
    rfl
  | false =>
    obtain ⟨fuel, rfl⟩ : ∃ n, fuel = n + 1 := ⟨fuel - 1, by simp at hfuel; omega⟩
    rfl

theorem scalar_reads (a : Leaf) : ReadsBack (.scalar a) := by
  intro depth text fuel rest h hfuel hrest
  have htext : scalar_text a = .ok text := toml_ok h
  obtain ⟨c, u, rfl, hc⟩ := scalar_starts htext
  obtain ⟨fuel, rfl⟩ : ∃ n, fuel = n + 1 := ⟨fuel - 1, by simp at hfuel; omega⟩
  cases a with
  | none => cases htext
  | some a =>
    have hread := scalar_read htext hrest
    unfold StartsScalar at hc
    simp only [List.mem_cons, List.not_mem_nil, not_or] at hc
    rw [List.cons_append] at hread ⊢
    unfold value
    simp [hc, hread, read_back]

theorem item_step (hd : ReadsBack d) (hpart : toml depth d = .ok text) (hfuel : text.length ≤ fuel)
    (hrest : Delimited rest) :
    items (fuel + 1) (text ++ rest) =
      (read_back d).bind fun v => (skip_array_ws fuel rest).bind fun t =>
        if t.head? = some ']' then some ([v], t.tail)
        else if t.head? = some ',' then
          (skip_array_ws fuel t.tail).bind fun t =>
            if t.head? = some ']' then some ([v], t.tail)
            else (items fuel t).map fun (vs, r) => (v :: vs, r)
        else none := by
  conv_lhs => unfold items
  rw [hd _ _ fuel _ hpart hfuel hrest]
  cases read_back d <;> rfl

theorem items_read (ih : ∀ x ∈ d :: ds, ReadsBack x) (h : toml_items depth (d :: ds) = .ok parts)
    (hfuel : ([',', ' '].intercalate parts).length < fuel) :
    items fuel ([',', ' '].intercalate parts ++ ']' :: rest) =
      (read_items (d :: ds)).map (·, rest) := by
  induction ds generalizing d parts fuel with
  | nil =>
    obtain ⟨part, _, hpart, hnil, rfl⟩ := toml_items_cons h
    obtain rfl := Except.ok.inj hnil
    have hpos := (toml_starts hpart).length_pos
    rw [List.intercalate_singleton] at hfuel ⊢
    obtain ⟨fuel, rfl⟩ : ∃ n, fuel = n + 2 := ⟨fuel - 2, by omega⟩
    rw [item_step (ih d (by simp)) hpart (by omega) (.bracket rest), read_items]
    cases read_back d <;> simp [skip_array_ws_stays, read_items]
  | cons x ds ihl =>
    obtain ⟨part, more, hpart, hmore, rfl⟩ := toml_items_cons h
    obtain ⟨part', more', hpart', -, rfl⟩ := toml_items_cons hmore
    have hpos := (toml_starts hpart).length_pos
    have hstarts := ((toml_starts hpart').intercalate [',', ' '] more').append (']' :: rest)
    rw [List.intercalate_cons_cons] at hfuel ⊢
    simp only [List.length_append, List.length_cons, List.length_nil] at hfuel
    obtain ⟨fuel, rfl⟩ : ∃ n, fuel = n + 2 := ⟨fuel - 2, by omega⟩
    have hitems := ihl (fun x hx => ih x (by simp [List.mem_cons.mp hx])) hmore
      (show ([',', ' '].intercalate (part' :: more')).length < fuel + 1 by omega)
    obtain ⟨hskip, hhead⟩ := hstarts.skip_array_ws (show 0 < fuel + 1 by omega)
    have hassoc : part ++ [',', ' '] ++ [',', ' '].intercalate (part' :: more') ++ ']' :: rest =
        part ++ ',' :: ' ' :: ([',', ' '].intercalate (part' :: more') ++ ']' :: rest) := by simp
    rw [hassoc, item_step (ih d (by simp)) hpart (by omega) (.comma _), read_items]
    generalize [',', ' '].intercalate (part' :: more') ++ ']' :: rest = after at *
    cases read_back d with
    | none => rfl
    | some v =>
      simp [skip_array_ws_stays, skip_array_ws_blank, hskip, hhead, hitems]
      rfl

theorem list_reads {items : List (Document Leaf)} (ih : ∀ d ∈ items, ReadsBack d) :
    ReadsBack (.list items) := by
  intro depth text fuel rest h hfuel hrest
  obtain ⟨parts, hparts, rfl⟩ : Shape depth text (.list items) := toml_ok h
  simp only [List.length_cons, List.length_append, List.length_nil] at hfuel
  obtain ⟨fuel, rfl⟩ : ∃ n, fuel = n + 2 := ⟨fuel - 2, by omega⟩
  rw [List.cons_append, List.append_assoc, List.singleton_append]
  cases items with
  | nil =>
    obtain rfl := Except.ok.inj hparts
    simp [value, skip_array_ws_stays, read_back, read_items]
  | cons d ds =>
    have hitems : Toml.items (fuel + 1) ([',', ' '].intercalate parts ++ ']' :: rest) =
        (read_items (d :: ds)).map (·, rest) := items_read ih hparts (by omega)
    obtain ⟨part, more, hpart, -, rfl⟩ := toml_items_cons hparts
    have hstarts := ((toml_starts hpart).intercalate [',', ' '] more).append (']' :: rest)
    obtain ⟨hskip, hhead⟩ := hstarts.skip_array_ws (show 0 < fuel + 1 by omega)
    generalize [',', ' '].intercalate (part :: more) ++ ']' :: rest = after at *
    unfold value
    simp [hskip, hhead, hitems, read_back]
    rfl

/-! ### Keys and tables -/

theorem key_read (k : String) (h : k.toList.length + 1 < fuel) :
    key fuel (dumps k.toList ++ ' ' :: '=' :: t) =
      if DEL ∈ k.toList then none else some ([k.toList], '=' :: t) := by
  obtain ⟨fuel, rfl⟩ : ∃ n, fuel = n + 1 := ⟨fuel - 1, by omega⟩
  have hread : basic false fuel (k.toList.flatMap escape_char ++ '"' :: ' ' :: '=' :: t) =
      if DEL ∈ k.toList then none else some (k.toList, ' ' :: '=' :: t) := basic_read (by omega)
  have hpart : key_part fuel (dumps k.toList ++ ' ' :: '=' :: t) =
      if DEL ∈ k.toList then none else some (k.toList, ' ' :: '=' :: t) := by
    rw [← hread]
    simp [key_part, dumps, bare]
  unfold key
  rw [hpart]
  split <;> simp [skip_ws, ws]

/-- Only keys of the table are frozen. -/
def Known (st : Inline) : Prop := ∀ p ∈ st.frozen, ∃ k, p = [k] ∧ (st.table.lookup k).isSome

theorem inline_add {st : Inline} (hst : Known st) (k : Text) (v : Value) :
    st.add [k] v = (Toml.add k v st.table).map fun t =>
      ⟨t, if v.is_container then [k] :: st.frozen else st.frozen⟩ := by
  unfold Inline.add
  split
  next hfrozen =>
    obtain ⟨-, hany⟩ := (Bool.and_eq_true _ _).mp hfrozen
    obtain ⟨p, hp, hbefore⟩ := List.any_eq_true.mp hany
    obtain ⟨k', rfl, hsome⟩ := hst p hp
    obtain rfl : k' = k := by simpa using hbefore
    rw [Toml.add, if_pos hsome]
    rfl
  · rfl

theorem known_add {st : Inline} (hst : Known st) {k : Text} {v : Value} {t : Table}
    (h : Toml.add k v st.table = some t) :
    Known ⟨t, if v.is_container then [k] :: st.frozen else st.frozen⟩ := by
  obtain rfl := add_ok h
  intro p hp
  have hcases : p = [k] ∨ p ∈ st.frozen := by
    split at hp
    · exact List.mem_cons.mp hp
    · exact .inr hp
  rcases hcases with rfl | hp
  · exact ⟨k, rfl, by simp [List.lookup_append]⟩
  · obtain ⟨k', rfl, hsome⟩ := hst p hp
    exact ⟨k', rfl, by simp [List.lookup_append, hsome]⟩

theorem pair_read {β : Type} (g : Path → Value → Text → Option β) (hd : ReadsBack d)
    (hpart : toml depth d = .ok text) {k : String} (hfuel : (pair_text k text).length ≤ fuel)
    (hrest : Delimited rest) :
    ((key fuel (pair_text k text ++ rest)).bind fun (k, t) => (char '=' t).bind fun t =>
      (value fuel (skip_ws t)).bind fun (v, t) => g k v t) =
        if DEL ∈ k.toList then none else (read_back d).bind fun v => g [k.toList] v rest := by
  have hlen := dumps_length k.toList
  simp only [pair_text, List.length_append, List.length_cons] at hfuel
  have hread := hd _ _ fuel _ hpart (by omega) hrest
  have hstarts := (toml_starts hpart).append rest
  have hassoc : pair_text k text ++ rest =
      dumps k.toList ++ ' ' :: '=' :: (' ' :: (text ++ rest)) := by
    simp [pair_text]
  rw [hassoc, key_read k (by omega)]
  split
  · rfl
  · simp only [Option.bind_some, char_cons, skip_ws_blank, hstarts.skip_ws]
    rw [hread]
    cases read_back d <;> rfl

theorem pair_step {st : Inline} (hd : ReadsBack d) (hpart : toml depth d = .ok text) {k : String}
    (hfuel : (pair_text k text).length ≤ fuel) (hst : Known st) (hrest : Delimited rest) :
    pairs (fuel + 1) st (pair_text k text ++ rest) =
      if DEL ∈ k.toList then none
      else (read_back d).bind fun v => (Toml.add k.toList v st.table).bind fun t =>
        if (skip_ws rest).head? = some '\x7d' then some (t, (skip_ws rest).tail)
        else if (skip_ws rest).head? = some ',' then
          pairs fuel ⟨t, if v.is_container then [k.toList] :: st.frozen else st.frozen⟩
            (skip_ws (skip_ws rest).tail)
        else none := by
  have hread := pair_read (fun k v t => (st.add k v).bind fun st =>
    if (skip_ws t).head? = some '\x7d' then some (st.table, (skip_ws t).tail)
    else if (skip_ws t).head? = some ',' then pairs fuel st (skip_ws (skip_ws t).tail)
    else none) hd hpart hfuel hrest
  simp only [inline_add hst, Option.bind_map, Function.comp_def] at hread
  conv_lhs => unfold pairs
  exact hread

theorem pairs_read {e : String × Document Leaf} {st : Inline}
    (ih : ∀ x ∈ e :: entries, ReadsBack x.2)
    (h : toml_entries depth (e :: entries) = .ok parts)
    (hfuel : ([',', ' '].intercalate parts).length < fuel) (hst : Known st) :
    pairs fuel st ([',', ' '].intercalate parts ++ ' ' :: '\x7d' :: rest) =
      (read_entries (e :: entries) st.table).map (·, rest) := by
  obtain ⟨fuel, rfl⟩ : ∃ n, fuel = n + 1 := ⟨fuel - 1, by omega⟩
  induction entries generalizing e parts fuel st with
  | nil =>
    obtain ⟨k, d⟩ := e
    obtain ⟨part, _, hpart, hnil, rfl⟩ := toml_entries_cons h
    obtain rfl := Except.ok.inj hnil
    rw [List.intercalate_singleton] at hfuel ⊢
    rw [pair_step (ih (k, d) (by simp)) hpart (by omega) hst (.brace rest), read_entries]
    split
    · rfl
    · cases hback : read_back d with
      | none => rfl
      | some v =>
        cases hadd : Toml.add k.toList v st.table <;> simp [skip_ws, ws, hadd, read_entries]
  | cons x entries ihl =>
    obtain ⟨k, d⟩ := e
    obtain ⟨k', d'⟩ := x
    obtain ⟨part, more, hpart, hmore, rfl⟩ := toml_entries_cons h
    obtain ⟨part', more', -, -, rfl⟩ := toml_entries_cons hmore
    have hstarts := ((pair_starts k' part').intercalate [',', ' '] more').append
      (' ' :: '\x7d' :: rest)
    rw [List.intercalate_cons_cons] at hfuel ⊢
    simp only [List.length_append, List.length_cons, List.length_nil] at hfuel
    have hassoc : pair_text k part ++ [',', ' '] ++
        [',', ' '].intercalate (pair_text k' part' :: more') ++ ' ' :: '\x7d' :: rest =
        pair_text k part ++ ',' :: ' ' ::
          ([',', ' '].intercalate (pair_text k' part' :: more') ++ ' ' :: '\x7d' :: rest) := by simp
    obtain ⟨fuel, rfl⟩ : ∃ n, fuel = n + 1 := ⟨fuel - 1, by omega⟩
    have hpairs : ∀ st, Known st → pairs (fuel + 1) st
        ([',', ' '].intercalate (pair_text k' part' :: more') ++ ' ' :: '\x7d' :: rest) =
          (read_entries ((k', d') :: entries) st.table).map (·, rest) :=
      fun st hst => ihl (fun x hx => ih x (List.mem_cons_of_mem _ hx)) hmore hst fuel (by omega)
    rw [hassoc, pair_step (ih (k, d) (by simp)) hpart (by omega) hst (.comma _), read_entries]
    generalize [',', ' '].intercalate (pair_text k' part' :: more') ++ ' ' :: '\x7d' :: rest =
      after at *
    split
    · rfl
    · cases hback : read_back d with
      | none => rfl
      | some v =>
        cases hadd : Toml.add k.toList v st.table with
        | none => simp [hadd]
        | some u =>
          have hskip : skip_ws (',' :: ' ' :: after) = ',' :: ' ' :: after := by simp [skip_ws, ws]
          simp [hadd, hskip, skip_ws_blank, hstarts.skip_ws, hpairs _ (known_add hst hadd)]

theorem dict_reads {entries : List (String × Document Leaf)} (ih : ∀ e ∈ entries, ReadsBack e.2) :
    ReadsBack (.dict entries) := by
  intro depth text fuel rest h hfuel hrest
  obtain ⟨parts, hparts, rfl⟩ : Shape depth text (.dict entries) := toml_ok h
  simp only [List.length_cons, List.length_append, List.length_nil] at hfuel
  obtain ⟨fuel, rfl⟩ : ∃ n, fuel = n + 1 := ⟨fuel - 1, by omega⟩
  rw [List.cons_append, List.cons_append, List.append_assoc]
  cases entries with
  | nil =>
    obtain rfl := Except.ok.inj hparts
    simp [value, skip_ws, ws, read_back, read_entries]
  | cons e entries =>
    have hpairs : pairs fuel ⟨[], []⟩ ([',', ' '].intercalate parts ++ ' ' :: '\x7d' :: rest) =
        (read_entries (e :: entries) []).map (·, rest) :=
      pairs_read ih hparts (by omega) (by simp [Known])
    obtain ⟨k, d⟩ := e
    obtain ⟨part, more, -, -, rfl⟩ := toml_entries_cons hparts
    have hstarts := ((pair_starts k part).intercalate [',', ' '] more).append
      (' ' :: '\x7d' :: rest)
    rw [List.cons_append, List.singleton_append]
    generalize [',', ' '].intercalate (pair_text k part :: more) ++ ' ' :: '\x7d' :: rest =
      after at *
    have hhead : after.head? ≠ some '\x7d' := by
      obtain ⟨c, u, rfl, hc⟩ := hstarts
      simp only [List.mem_cons, not_or] at hc
      simp [hc]
    unfold value
    simp [hhead, skip_ws_blank, hstarts.skip_ws, hpairs, read_back]
    rfl

theorem value_read (d : Document Leaf) : ReadsBack d := by
  induction d using Document.induct with
  | text s => exact text_reads s
  | bool b => exact bool_reads b
  | scalar a => exact scalar_reads a
  | list items ih => exact list_reads ih
  | dict entries ih => exact dict_reads ih

end Values

end Fridica.Exec.Settings
