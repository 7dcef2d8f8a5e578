import Fridica.Lib.Json
import Fridica.Lib.Text
import Fridica.Lib.Toml.Spec
import Mathlib.Data.List.Lex

/-!
# JSON as text

The printer writes a value on one line. The reader takes any layout; its numbers are integers, and
a pair of surrogates is no character to it. What was printed of a value without fractions reads as
that value.
-/

namespace Fridica.JsonText

open Fridica.Json

abbrev Text := List Char

/-! ## The printer -/

def escape (c : Char) : Text :=
  if c = '"' ∨ c = '\\' then ['\\', c]
  else if c.toNat = 8 then ['\\', 'b']
  else if c.toNat = 12 then ['\\', 'f']
  else if c = '\n' then ['\\', 'n']
  else if c = '\r' then ['\\', 'r']
  else if c = '\t' then ['\\', 't']
  else if c.toNat < 32 then
    ['\\', 'u', '0', '0', Nat.digitChar (c.toNat / 16), Nat.digitChar (c.toNat % 16)]
  else [c]

def print_string (s : String) : Text := '"' :: (s.toList.flatMap escape ++ ['"'])

/-- How the digits of a fraction are found is left open. -/
def print_number (float : ℚ → Text) : Number → Text
  | .unsigned n => Nat.toDigits 10 n
  | .signed n => (if n < 0 then ['-'] else []) ++ Nat.toDigits 10 n.natAbs
  | .float q => float q

section Print

variable (float : ℚ → Text)

mutual

def print : Value → Text
  | .null => "null".toList
  | .bool true => "true".toList
  | .bool false => "false".toList
  | .number n => print_number float n
  | .string s => print_string s
  | .array [] => ['[', ']']
  | .array (v :: items) => '[' :: (print v ++ print_items items)
  | .object [] => ['\x7b', '\x7d']
  | .object ((key, v) :: fields) =>
    '\x7b' :: (print_string key ++ ':' :: (print v ++ print_fields fields))

/-- The items after the first one. -/
def print_items : List Value → Text
  | [] => [']']
  | v :: items => ',' :: (print v ++ print_items items)

def print_fields : List (String × Value) → Text
  | [] => ['\x7d']
  | (key, v) :: fields => ',' :: (print_string key ++ ':' :: (print v ++ print_fields fields))

end

end Print

/-! ## The reader -/

def ws (c : Char) : Bool := c = ' ' || c = '\t' || c = '\n' || c = '\r'

def skip (t : Text) : Text := t.dropWhile ws

def unescape : Text → Option (Char × Text)
  | 'b' :: t => some (Char.ofNat 8, t)
  | 'f' :: t => some (Char.ofNat 12, t)
  | 'n' :: t => some ('\n', t)
  | 'r' :: t => some ('\r', t)
  | 't' :: t => some ('\t', t)
  | '"' :: t => some ('"', t)
  | '\\' :: t => some ('\\', t)
  | '/' :: t => some ('/', t)
  | 'u' :: t => Toml.hex_char 4 t
  | _ => none

/-- A string after its opening quote. -/
def string : Nat → Text → Option (Text × Text)
  | 0, _ => none
  | _ + 1, [] => none
  | fuel + 1, c :: t =>
    if c = '"' then some ([], t)
    else if c = '\\' then
      (unescape t).bind fun d => (string fuel d.2).map fun s => (d.1 :: s.1, s.2)
    else if c.toNat < 32 then none
    else (string fuel t).map fun s => (c :: s.1, s.2)

def unquote (t : Text) : Option (String × Text) :=
  (string t.length t).map fun s => (String.ofList s.1, s.2)

/-- The characters of what is neither a string, an array nor an object. -/
def in_word (c : Char) : Bool := c.isAlphanum || c = '-' || c = '+' || c = '.'

def natural (ds : Text) : Option Nat :=
  if ds ≠ [] ∧ ds.all Char.isDigit ∧ (ds.head? = some '0' → ds.length = 1) then
    some (Nat.ofDigitChars 10 ds 0)
  else none

def integer : Text → Option Number
  | '-' :: ds => (natural ds).map fun n : Nat => .signed (-n)
  | ds => (natural ds).map .unsigned

def word (w : Text) : Option Value :=
  if w = "null".toList then some .null
  else if w = "true".toList then some (.bool true)
  else if w = "false".toList then some (.bool false)
  else (integer w).map .number

mutual

def value : Nat → Text → Option (Value × Text)
  | 0, _ => none
  | fuel + 1, t =>
    match skip t with
    | '"' :: t => (unquote t).map fun s => (.string s.1, s.2)
    | '[' :: t =>
      if (skip t).head? = some ']' then some (.array [], (skip t).tail)
      else
        (value fuel t).bind fun v =>
          (items fuel v.2).map fun vs => (.array (v.1 :: vs.1), vs.2)
    | '\x7b' :: t =>
      if (skip t).head? = some '\x7d' then some (.object [], (skip t).tail)
      else
        (field fuel t).bind fun kv =>
          (fields fuel kv.2).map fun kvs => (.of_fields (kv.1 :: kvs.1), kvs.2)
    | t => (word (t.takeWhile in_word)).map fun v => (v, t.dropWhile in_word)

def field : Nat → Text → Option ((String × Value) × Text)
  | 0, _ => none
  | fuel + 1, t =>
    match skip t with
    | '"' :: t =>
      (unquote t).bind fun key =>
        match skip key.2 with
        | ':' :: t => (value fuel t).map fun v => ((key.1, v.1), v.2)
        | _ => none
    | _ => none

/-- The items after the first one. -/
def items : Nat → Text → Option (List Value × Text)
  | 0, _ => none
  | fuel + 1, t =>
    match skip t with
    | ']' :: r => some ([], r)
    | ',' :: t =>
      (value fuel t).bind fun v => (items fuel v.2).map fun vs => (v.1 :: vs.1, vs.2)
    | _ => none

def fields : Nat → Text → Option (List (String × Value) × Text)
  | 0, _ => none
  | fuel + 1, t =>
    match skip t with
    | '\x7d' :: r => some ([], r)
    | ',' :: t =>
      (field fuel t).bind fun kv => (fields fuel kv.2).map fun kvs => (kv.1 :: kvs.1, kvs.2)
    | _ => none

end

/-- A text that is one value. -/
def read (t : Text) : Option Value :=
  match value (t.length + 1) t with
  | some (v, r) => if skip r = [] then some v else none
  | none => none

/-! ## Strings read back -/

theorem escape_length (c : Char) : 0 < (escape c).length := by
  unfold escape
  split_ifs <;> exact Nat.succ_pos _

theorem length_le_escaped (s : Text) : s.length ≤ (s.flatMap escape).length := by
  induction s with
  | nil => exact Nat.zero_le _
  | cons c s ih =>
    have hpos := escape_length c
    rw [List.flatMap_cons, List.length_append, List.length_cons]
    omega

theorem hex_value_control : ∀ n < 32, Toml.hex_value
    ['0', '0', Nat.digitChar (n / 16), Nat.digitChar (n % 16)] = some n := by
  decide

theorem unescape_control {n : Nat} (h : n < 32) (t : Text) :
    unescape ('u' :: '0' :: '0' :: Nat.digitChar (n / 16) :: Nat.digitChar (n % 16) :: t) =
      some (Char.ofNat n, t) := by
  show (Toml.hex_value ['0', '0', Nat.digitChar (n / 16), Nat.digitChar (n % 16)]).bind _ = _
  have hvalid : n.isValidChar := .inl (by omega)
  rw [hex_value_control n h, Option.bind_some, if_pos hvalid]
  rfl

section String

variable {c d : Char} {s t u r : Text} {fuel : Nat}

theorem string_escaped (hc : unescape t = some (c, u)) (h : string fuel u = some (s, r)) :
    string (fuel + 1) ('\\' :: t) = some (c :: s, r) := by
  rw [string, if_neg (by decide), if_pos rfl, hc, Option.bind_some, h, Option.map_some]

theorem string_escape (c : Char) (h : string fuel t = some (s, r)) :
    string (fuel + 1) (escape c ++ t) = some (c :: s, r) := by
  have of_toNat : ∀ n, c.toNat = n → c = Char.ofNat n := fun n hn => by rw [← hn, Char.ofNat_toNat]
  unfold escape
  split_ifs with hquote h8 h12 hn hr ht hcontrol
  · rcases hquote with rfl | rfl
    · exact string_escaped rfl h
    · exact string_escaped rfl h
  · rw [of_toNat 8 h8]
    exact string_escaped rfl h
  · rw [of_toNat 12 h12]
    exact string_escaped rfl h
  · rw [hn]
    exact string_escaped rfl h
  · rw [hr]
    exact string_escaped rfl h
  · rw [ht]
    exact string_escaped rfl h
  · refine string_escaped ?_ h
    have hread := unescape_control hcontrol t
    rw [Char.ofNat_toNat] at hread
    exact hread
  · rw [not_or] at hquote
    rw [List.singleton_append, string, if_neg hquote.1, if_neg hquote.2, if_neg hcontrol, h,
      Option.map_some]

theorem string_escapes (s r : Text) (h : s.length < fuel) :
    string fuel (s.flatMap escape ++ '"' :: r) = some (s, r) := by
  induction s generalizing fuel with
  | nil =>
    obtain ⟨fuel, rfl⟩ := Nat.exists_eq_add_of_lt h
    rw [List.flatMap_nil, List.nil_append, string, if_pos rfl]
  | cons c s ih =>
    obtain ⟨fuel, rfl⟩ := Nat.exists_eq_add_of_lt h
    rw [List.flatMap_cons, List.append_assoc]
    exact string_escape c (ih (by rw [List.length_cons]; omega))

end String

theorem unquote_print (s : String) (r : Text) :
    unquote (s.toList.flatMap escape ++ '"' :: r) = some (s, r) := by
  have hle := length_le_escaped s.toList
  unfold unquote
  rw [string_escapes _ _ (by rw [List.length_append, List.length_cons]; omega), Option.map_some,
    String.ofList_toList]

/-! ## Words read back -/

/-- No word goes on here. -/
def Ends (r : Text) : Prop := ∀ c ∈ r.head?, in_word c = false

theorem ends_cons {c : Char} {r : Text} (h : in_word c = false) : Ends (c :: r) := by
  intro d hd
  rw [← Option.some.inj hd, h]

theorem Ends.takeWhile {r : Text} (h : Ends r) : r.takeWhile in_word = [] := by
  cases r with
  | nil => rfl
  | cons c r => exact List.takeWhile_cons_of_neg (by simp [h c rfl])

theorem Ends.dropWhile {r : Text} (h : Ends r) : r.dropWhile in_word = r := by
  cases r with
  | nil => rfl
  | cons c r => exact List.dropWhile_cons_of_neg (by simp [h c rfl])

/-- A text that is read as one word. -/
structure Word (w : Text) (v : Value) : Prop where
  chars : ∀ c ∈ w, in_word c = true
  nonempty : w ≠ []
  reads : word w = some v

theorem natural_toDigits (n : Nat) : natural (Nat.toDigits 10 n) = some n := by
  have hdigits : (Nat.toDigits 10 n).all Char.isDigit = true :=
    List.all_eq_true.mpr fun c hc => Nat.isDigit_of_mem_toDigits (by omega) (by omega) hc
  have hzero : (Nat.toDigits 10 n).head? = some '0' → (Nat.toDigits 10 n).length = 1 := by
    intro hhead
    by_cases hn : n = 0
    · rw [hn]
      rfl
    · exact absurd hhead (Fridica.Text.toDigits_head hn)
  unfold natural
  rw [if_pos ⟨Nat.toDigits_ne_nil, hdigits, hzero⟩, Nat.ofDigitChars_ten_toDigits]

theorem digit_in_word {c : Char} {n : Nat} (h : c ∈ Nat.toDigits 10 n) : in_word c = true := by
  have hdigit := Nat.isDigit_of_mem_toDigits (by omega) (by omega) h
  unfold in_word Char.isAlphanum
  rw [hdigit, Bool.or_true]
  rfl

theorem integer_toDigits (n : Nat) : integer (Nat.toDigits 10 n) = some (.unsigned n) := by
  have hdash : ∀ ds, Nat.toDigits 10 n ≠ '-' :: ds := by
    intro ds hds
    have hmem : '-' ∈ Nat.toDigits 10 n := hds ▸ List.mem_cons_self
    exact absurd (Nat.isDigit_of_mem_toDigits (by omega) (by omega) hmem) (by decide)
  rw [integer, natural_toDigits, Option.map_some]
  exact hdash

theorem word_integer {w : Text} {n : Number} (h : integer w = some n) :
    word w = some (.number n) := by
  have hname : ∀ name, integer name = none → w ≠ name := by
    rintro name hnone rfl
    rw [hnone] at h
    cases h
  unfold word
  rw [if_neg (hname _ (by decide)), if_neg (hname _ (by decide)), if_neg (hname _ (by decide)), h,
    Option.map_some]

theorem word_null : Word "null".toList .null := ⟨List.all_eq_true.mp rfl, by decide, if_pos rfl⟩

theorem word_true : Word "true".toList (.bool true) := by
  refine ⟨List.all_eq_true.mp rfl, by decide, ?_⟩
  rw [word, if_neg (by decide), if_pos rfl]

theorem word_false : Word "false".toList (.bool false) := by
  refine ⟨List.all_eq_true.mp rfl, by decide, ?_⟩
  rw [word, if_neg (by decide), if_neg (by decide), if_pos rfl]

theorem word_number (float : ℚ → Text) (n : Nat) :
    Word (print_number float (.unsigned n)) (.number (.unsigned n)) where
  chars := fun _ hc => digit_in_word hc
  nonempty := Nat.toDigits_ne_nil
  reads := word_integer (integer_toDigits n)

theorem word_negative (float : ℚ → Text) {n : Int} (h : n < 0) :
    Word (print_number float (.signed n)) (.number (.signed n)) := by
  have hprint : print_number float (.signed n) = '-' :: Nat.toDigits 10 n.natAbs := by
    rw [print_number, if_pos h, List.singleton_append]
  have hvalue : -(n.natAbs : Int) = n := by omega
  refine hprint ▸ ⟨fun c hc => ?_, List.cons_ne_nil _ _, word_integer ?_⟩
  · rcases List.mem_cons.mp hc with rfl | hc
    · rfl
    · exact digit_in_word hc
  · rw [integer, natural_toDigits, Option.map_some, hvalue]

/-! ## Values read back -/

section Reads

variable {float : ℚ → Text} {v : Value} {w t r : Text} {fuel : Nat}

theorem skip_cons {c : Char} (h : ws c = false) (t : Text) : skip (c :: t) = c :: t :=
  List.dropWhile_cons_of_neg (by rw [h]; exact Bool.false_ne_true)

theorem Word.head (h : Word w v) : ∃ c t, w = c :: t ∧ in_word c = true := by
  obtain ⟨c, w, rfl⟩ := List.exists_cons_of_ne_nil h.nonempty
  exact ⟨c, w, rfl, h.chars c List.mem_cons_self⟩

theorem ws_of_in_word {c : Char} (h : in_word c = true) : ws c = false := by
  by_contra hws
  revert h
  unfold ws at hws
  simp only [Bool.not_eq_false, Bool.or_eq_true, decide_eq_true_eq] at hws
  rcases hws with ((rfl | rfl) | rfl) | rfl <;> decide

theorem Word.value (h : Word w v) (hr : Ends r) : value (fuel + 1) (w ++ r) = some (v, r) := by
  have htake : (w ++ r).takeWhile in_word = w := by
    rw [List.takeWhile_append_of_pos h.chars, hr.takeWhile, List.append_nil]
  have hdrop : (w ++ r).dropWhile in_word = r := by
    rw [List.dropWhile_append_of_pos h.chars, hr.dropWhile]
  obtain ⟨c, t, hw, hc⟩ := h.head
  have hne : ∀ d u, in_word d = false → w ++ r ≠ d :: u := by
    rintro d u hd heq
    rw [hw] at heq
    rw [(List.cons.inj heq).1, hd] at hc
    cases hc
  have hskip : skip (w ++ r) = w ++ r := by
    rw [hw]
    exact skip_cons (ws_of_in_word hc) _
  rw [JsonText.value, hskip]
  split
  next heq => exact absurd heq (hne _ _ (by decide))
  next heq => exact absurd heq (hne _ _ (by decide))
  next heq => exact absurd heq (hne _ _ (by decide))
  next => rw [htake, hdrop, h.reads, Option.map_some]

theorem fuel_succ {c : Char} (h : (c :: t).length ≤ fuel) : ∃ k, fuel = k + 1 :=
  Nat.exists_eq_add_one.mpr ((Nat.succ_pos _).trans_le h)

/-- What is printed of a value begins like one, and is read as the value. -/
structure Reads (float : ℚ → Text) (v : Value) : Prop where
  starts : ∃ c t, print float v = c :: t ∧ ws c = false ∧ c ≠ ']'
  value : ∀ {fuel r}, (print float v).length ≤ fuel → Ends r →
    JsonText.value fuel (print float v ++ r) = some (v, r)

theorem Word.read (h : Word (print float v) v) : Reads float v where
  starts := by
    obtain ⟨c, t, hprint, hc⟩ := h.head
    refine ⟨c, t, hprint, ws_of_in_word hc, ?_⟩
    rintro rfl
    cases hc
  value := by
    intro fuel r hfuel hr
    have hpos := List.length_pos_of_ne_nil h.nonempty
    obtain ⟨fuel, rfl⟩ := Nat.exists_eq_add_of_lt (hpos.trans_le hfuel)
    exact h.value hr

theorem read_string (s : String) : Reads float (.string s) where
  starts := ⟨_, _, rfl, rfl, by decide⟩
  value := by
    intro fuel r hfuel _
    obtain ⟨fuel, rfl⟩ := fuel_succ hfuel
    have hskip : skip (print float (.string s) ++ r) =
        '"' :: (s.toList.flatMap escape ++ '"' :: r) := by
      show skip ('"' :: (s.toList.flatMap escape ++ ['"'] ++ r)) = _
      rw [skip_cons rfl, List.append_assoc]
      rfl
    rw [JsonText.value, hskip]
    show (unquote _).map _ = _
    rw [unquote_print, Option.map_some]

/-! ### Arrays -/

theorem ends_items (vs : List Value) (r : Text) : Ends (print_items float vs ++ r) := by
  cases vs with
  | nil => exact ends_cons (by decide)
  | cons v vs => exact ends_cons (by decide)

theorem items_read {vs : List Value} (h : ∀ v ∈ vs, Reads float v)
    (hfuel : (print_items float vs).length ≤ fuel) :
    items fuel (print_items float vs ++ r) = some (vs, r) := by
  induction vs generalizing fuel with
  | nil =>
    obtain ⟨fuel, rfl⟩ := fuel_succ hfuel
    rfl
  | cons v vs ih =>
    obtain ⟨hv, hvs⟩ := List.forall_mem_cons.mp h
    obtain ⟨fuel, rfl⟩ := fuel_succ hfuel
    rw [print_items, List.length_cons, List.length_append] at hfuel
    have hskip : skip (print_items float (v :: vs) ++ r) =
        ',' :: (print float v ++ (print_items float vs ++ r)) := by
      rw [print_items, List.cons_append, skip_cons rfl, List.append_assoc]
    rw [items, hskip]
    show (JsonText.value _ _).bind _ = _
    rw [hv.value (by omega) (ends_items vs r), Option.bind_some, ih hvs (by omega),
      Option.map_some]

theorem read_array {vs : List Value} (h : ∀ v ∈ vs, Reads float v) : Reads float (.array vs) := by
  cases vs with
  | nil =>
    refine ⟨⟨_, _, rfl, rfl, by decide⟩, fun hfuel _ => ?_⟩
    obtain ⟨fuel, rfl⟩ := fuel_succ hfuel
    rfl
  | cons v vs =>
    refine ⟨⟨_, _, rfl, rfl, by decide⟩, fun {fuel r} hfuel _ => ?_⟩
    obtain ⟨hv, hvs⟩ := List.forall_mem_cons.mp h
    obtain ⟨fuel, rfl⟩ := fuel_succ hfuel
    rw [print, List.length_cons, List.length_append] at hfuel
    have hskip : skip (print float (.array (v :: vs)) ++ r) =
        '[' :: (print float v ++ (print_items float vs ++ r)) := by
      rw [print, List.cons_append, skip_cons rfl, List.append_assoc]
    obtain ⟨c, t, hstart, hws, hclose⟩ := hv.starts
    have hhead : ¬ (skip (print float v ++ (print_items float vs ++ r))).head? = some ']' := by
      rw [hstart, List.cons_append, skip_cons hws, List.head?_cons]
      exact fun heq => hclose (Option.some.inj heq)
    rw [JsonText.value, hskip]
    show (if _ then _ else (JsonText.value _ _).bind _) = _
    rw [if_neg hhead, hv.value (by omega) (ends_items vs r), Option.bind_some,
      items_read hvs (by omega), Option.map_some]

/-! ### Objects -/

theorem ends_fields (kvs : List (String × Value)) (r : Text) :
    Ends (print_fields float kvs ++ r) := by
  cases kvs with
  | nil => exact ends_cons (by decide)
  | cons kv kvs => exact ends_cons (by decide)

theorem field_read {key : String} (h : Reads float v)
    (hfuel : (print_string key ++ ':' :: print float v).length ≤ fuel) (hr : Ends r) :
    field fuel (print_string key ++ ':' :: (print float v ++ r)) = some ((key, v), r) := by
  obtain ⟨fuel, rfl⟩ := fuel_succ hfuel
  rw [print_string, List.length_append, List.length_cons, List.length_cons] at hfuel
  have hskip : skip (print_string key ++ ':' :: (print float v ++ r)) =
      '"' :: (key.toList.flatMap escape ++ '"' :: ':' :: (print float v ++ r)) := by
    rw [print_string, List.cons_append, skip_cons rfl, List.append_assoc]
    rfl
  rw [field, hskip]
  show (unquote _).bind _ = _
  rw [unquote_print, Option.bind_some]
  show (JsonText.value _ _).map _ = _
  rw [h.value (by omega) hr, Option.map_some]

theorem fields_read {kvs : List (String × Value)} (h : ∀ kv ∈ kvs, Reads float kv.2)
    (hfuel : (print_fields float kvs).length ≤ fuel) :
    fields fuel (print_fields float kvs ++ r) = some (kvs, r) := by
  induction kvs generalizing fuel with
  | nil =>
    obtain ⟨fuel, rfl⟩ := fuel_succ hfuel
    rfl
  | cons kv kvs ih =>
    obtain ⟨key, v⟩ := kv
    obtain ⟨hv, hkvs⟩ := List.forall_mem_cons.mp h
    have hv : Reads float v := hv
    obtain ⟨fuel, rfl⟩ := fuel_succ hfuel
    rw [print_fields, List.length_cons, List.length_append, List.length_cons,
      List.length_append] at hfuel
    have hskip : skip (print_fields float ((key, v) :: kvs) ++ r) =
        ',' :: (print_string key ++ ':' :: (print float v ++ (print_fields float kvs ++ r))) := by
      rw [print_fields, List.cons_append, skip_cons rfl, List.append_assoc, List.cons_append,
        List.append_assoc]
    rw [fields, hskip]
    show (field _ _).bind _ = _
    rw [field_read hv (by rw [List.length_append, List.length_cons]; omega) (ends_fields kvs r),
      Option.bind_some, ih hkvs (by omega), Option.map_some]

/-- Each key is before those that follow. -/
def Ascending (kvs : List (String × Value)) : Prop := kvs.Pairwise fun a b => a.1 < b.1

instance (kvs : List (String × Value)) : Decidable (Ascending kvs) :=
  inferInstanceAs (Decidable (kvs.Pairwise fun a b => a.1 < b.1))

theorem insert_last {key : String} {kvs : List (String × Value)} (h : ∀ kv ∈ kvs, kv.1 < key) :
    Value.insert key v kvs = kvs ++ [(key, v)] := by
  induction kvs with
  | nil => rfl
  | cons kv kvs ih =>
    obtain ⟨hlt, h⟩ := List.forall_mem_cons.mp h
    rw [Value.insert, if_neg hlt.asymm, if_neg hlt.ne', ih h, List.cons_append]

theorem extend_ascending {kvs more : List (String × Value)} (h : Ascending (kvs ++ more)) :
    Value.extend kvs more = kvs ++ more := by
  induction more generalizing kvs with
  | nil => exact (List.append_nil kvs).symm
  | cons kv more ih =>
    have hlast : ∀ e ∈ kvs, e.1 < kv.1 := fun e he =>
      (List.pairwise_append.mp h).2.2 e he kv List.mem_cons_self
    have hinsert : Value.extend kvs (kv :: more) = Value.extend (kvs ++ [kv]) more := by
      rw [← insert_last (v := kv.2) hlast]
      rfl
    rw [hinsert, ih (by rwa [List.append_assoc]), List.append_assoc, List.singleton_append]

theorem read_object {kvs : List (String × Value)} (hkeys : Ascending kvs)
    (h : ∀ kv ∈ kvs, Reads float kv.2) : Reads float (.object kvs) := by
  cases kvs with
  | nil =>
    refine ⟨⟨_, _, rfl, rfl, by decide⟩, fun hfuel _ => ?_⟩
    obtain ⟨fuel, rfl⟩ := fuel_succ hfuel
    rfl
  | cons kv kvs =>
    obtain ⟨key, v⟩ := kv
    refine ⟨⟨_, _, rfl, rfl, by decide⟩, fun {fuel r} hfuel _ => ?_⟩
    obtain ⟨hv, hkvs⟩ := List.forall_mem_cons.mp h
    have hv : Reads float v := hv
    obtain ⟨fuel, rfl⟩ := fuel_succ hfuel
    rw [print, List.length_cons, List.length_append, List.length_cons, List.length_append] at hfuel
    have hskip : skip (print float (.object ((key, v) :: kvs)) ++ r) =
        '\x7b' :: (print_string key ++
          ':' :: (print float v ++ (print_fields float kvs ++ r))) := by
      rw [print, List.cons_append, skip_cons rfl, List.append_assoc, List.cons_append,
        List.append_assoc]
    have hhead : ¬ (skip (print_string key ++
        ':' :: (print float v ++ (print_fields float kvs ++ r)))).head? = some '\x7d' := by
      rw [print_string, List.cons_append, skip_cons rfl]
      exact fun heq => absurd (Option.some.inj heq) (by decide)
    rw [JsonText.value, hskip]
    show (if _ then _ else (field _ _).bind _) = _
    rw [if_neg hhead,
      field_read hv (by rw [List.length_append, List.length_cons]; omega) (ends_fields kvs r),
      Option.bind_some, fields_read hkvs (by omega), Option.map_some, Value.of_fields,
      extend_ascending hkeys]
    rfl

/-- A value without fractions, as a reader makes it: a signed number is negative, and the keys of
an object ascend. -/
inductive Plain : Value → Prop
  | null : Plain .null
  | bool (b : Bool) : Plain (.bool b)
  | unsigned (n : Nat) : Plain (.number (.unsigned n))
  | signed {n : Int} (h : n < 0) : Plain (.number (.signed n))
  | string (s : String) : Plain (.string s)
  | array {vs : List Value} (h : ∀ v ∈ vs, Plain v) : Plain (.array vs)
  | object {kvs : List (String × Value)} (hkeys : Ascending kvs) (h : ∀ kv ∈ kvs, Plain kv.2) :
    Plain (.object kvs)

attribute [simp] Plain.null Plain.bool Plain.unsigned Plain.string

@[simp] theorem plain_array {vs : List Value} : Plain (.array vs) ↔ ∀ v ∈ vs, Plain v := by
  constructor
  · rintro ⟨⟩
    assumption
  · exact .array

@[simp] theorem plain_object {kvs : List (String × Value)} :
    Plain (.object kvs) ↔ Ascending kvs ∧ ∀ kv ∈ kvs, Plain kv.2 := by
  constructor
  · rintro ⟨⟩
    exact ⟨‹_›, ‹_›⟩
  · rintro ⟨hkeys, h⟩
    exact .object hkeys h

theorem Plain.reads (h : Plain v) : Reads float v := by
  induction h with
  | null => exact Word.read (show Word (print float .null) .null from word_null)
  | bool b =>
    cases b with
    | false => exact Word.read (show Word (print float (.bool false)) (.bool false) from word_false)
    | true => exact Word.read (show Word (print float (.bool true)) (.bool true) from word_true)
  | unsigned n => exact Word.read (show Word (print float _) _ from word_number float n)
  | signed h => exact Word.read (show Word (print float _) _ from word_negative float h)
  | string s => exact read_string s
  | array _ ih => exact read_array ih
  | object hkeys _ ih => exact read_object hkeys ih

/-- **Round trip.** -/
theorem read_print (float : ℚ → Text) (h : Plain v) : read (print float v) = some v := by
  have hreads : Reads float v := h.reads
  have hvalue := hreads.value (r := []) (Nat.le_succ _) (by simp [Ends])
  rw [List.append_nil] at hvalue
  unfold read
  rw [hvalue]
  rfl

end Reads

end Fridica.JsonText
