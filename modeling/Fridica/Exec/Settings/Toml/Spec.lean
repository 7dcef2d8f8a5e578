import Fridica.Exec.Settings.Spec
import Fridica.Lib.Toml.Spec
import Fridica.Lib.Utf8
import Mathlib.Data.List.DropRight

/-!
# Settings as TOML

`toml` of `exec/isolation_settings.py`: a cleaned layer is written as TOML, and refused unless
`tomllib` reads it. A layer of JSON is written by a parameter, `json.dumps`.
-/

namespace Fridica.Exec.Settings

open Fridica.Toml (Text Scalar Date Time Offset Value Table loads)

/-! ## Scalars -/

/-- Digits of a number that are written with zeros before them. -/
def padded : Nat → Nat → Text
  | 0, _ => []
  | w + 1, n => padded w (n / 10) ++ [(n % 10).digitChar]

/-- More digits of an integer are not written, `sys.get_int_max_str_digits()`. -/
def INT_DIGITS : Nat := 4300

/-- `str` of an integer -/
def str (n : Int) : Except Refused Text :=
  let ds := Nat.toDigits 10 n.natAbs
  if INT_DIGITS < ds.length then .error ⟨⟩ else .ok (if n < 0 then '-' :: ds else ds)

/-- The significant digits of a number, and where its point is after their beginning. -/
def significant (units : Nat) : Text × Int :=
  let (c, e) := Binary64.shortest units Binary64.PLACES
  ((Nat.toDigits 10 c).rdropWhile (· = '0'), (Nat.toDigits 10 c).length + e)

/-- An exponent has two digits or more. -/
def exponent_digits (n : Nat) : Text := if n < 10 then padded 2 n else Nat.toDigits 10 n

def places (ds : Text) (point : Int) : Text :=
  if -4 < point ∧ point ≤ 16 then
    if point ≤ 0 then '0' :: '.' :: (List.replicate (-point).toNat '0' ++ ds)
    else if ds.length ≤ point then ds ++ List.replicate (point - ds.length).toNat '0' ++ ['.', '0']
    else ds.take point.toNat ++ '.' :: ds.drop point.toNat
  else
    ds.take 1 ++ (if ds.length = 1 then [] else '.' :: ds.drop 1) ++
      'e' :: (if point - 1 < 0 then '-' else '+') :: exponent_digits (point - 1).natAbs

/-- `repr` of a finite number -/
def repr (negative : Bool) (units : Nat) : Text :=
  (if negative then ['-'] else []) ++
    if units = 0 then ['0', '.', '0'] else places (significant units).1 (significant units).2

def Date.isoformat (d : Date) : Text :=
  padded 4 d.year ++ '-' :: (padded 2 d.month ++ '-' :: padded 2 d.day)

def Time.isoformat (t : Time) : Text :=
  padded 2 t.hour ++ ':' :: (padded 2 t.minute ++ ':' :: padded 2 t.second) ++
    if t.micro = 0 then [] else '.' :: padded 6 t.micro

def Offset.isoformat (o : Offset) : Text :=
  (if o.minutes < 0 then '-' else '+') ::
    (padded 2 (o.minutes.natAbs / 60) ++ ':' :: padded 2 (o.minutes.natAbs % 60))

/-- What a document of either kind holds besides text and truth values: `none` is `null`, which JSON
has alone. -/
abbrev Leaf := Option Scalar

def scalar_text : Leaf → Except Refused Text
  | none => .error ⟨⟩
  | some (.int n) => str n
  | some (.float .nan) => .ok "nan".toList
  | some (.float (.infinity negative)) => .ok (if negative then "-inf".toList else "inf".toList)
  | some (.float (.finite negative units _)) => .ok (repr negative units)
  | some (.date d) => .ok (Date.isoformat d)
  | some (.time t) => .ok (Time.isoformat t)
  | some (.datetime d t offset) =>
    .ok (Date.isoformat d ++ 'T' :: (Time.isoformat t ++ (offset.map Offset.isoformat).getD []))

/-! ## Strings -/

def escape_char (c : Char) : Text :=
  if c = '"' then ['\\', '"']
  else if c = '\\' then ['\\', '\\']
  else if c = '\n' then ['\\', 'n']
  else if c = '\r' then ['\\', 'r']
  else if c = '\t' then ['\\', 't']
  else if c = Char.ofNat 12 then ['\\', 'f']
  else if c = Char.ofNat 8 then ['\\', 'b']
  else if c.toNat < 32 then
    ['\\', 'u', '0', '0', (c.toNat / 16).digitChar, (c.toNat % 16).digitChar]
  else [c]

/-- `json.dumps` of text, with `ensure_ascii=False` -/
def dumps (s : Text) : Text := '"' :: (s.flatMap escape_char ++ ['"'])

/-- `toml` of a key -/
def toml_key (depth : Nat) (k : String) : Except Refused Text :=
  if depth > DEPTH then .error ⟨⟩ else .ok (dumps k.toList)

/-! ## Documents -/

mutual

/-- The document that a parsed value is. -/
def of_value : Value → Document Leaf
  | .string s => .text (String.ofList s)
  | .bool b => .bool b
  | .scalar a => .scalar (some a)
  | .array items => .list (of_items items)
  | .table entries => .dict (of_entries entries)

def of_items : List Value → List (Document Leaf)
  | [] => []
  | v :: items => of_value v :: of_items items

def of_entries : Table → List (String × Document Leaf)
  | [] => []
  | (k, v) :: entries => (String.ofList k, of_value v) :: of_entries entries

end

mutual

def toml (depth : Nat) (value : Document Leaf) : Except Refused Text :=
  if depth > DEPTH then .error ⟨⟩
  else
    match value with
    | .text s => .ok (dumps s.toList)
    | .bool b => .ok (if b then "true".toList else "false".toList)
    | .scalar a => scalar_text a
    | .list items => do
      let parts ← toml_items (depth + 1) items
      return '[' :: ([',', ' '].intercalate parts ++ [']'])
    | .dict entries => do
      let parts ← toml_entries (depth + 1) entries
      return '\x7b' :: ' ' :: ([',', ' '].intercalate parts ++ [' ', '\x7d'])

def toml_items (depth : Nat) : List (Document Leaf) → Except Refused (List Text)
  | [] => .ok []
  | d :: items => do
    let part ← toml depth d
    let parts ← toml_items depth items
    return part :: parts

/-- The pairs of a map, each a key and its value. -/
def toml_entries (depth : Nat) : List (String × Document Leaf) → Except Refused (List Text)
  | [] => .ok []
  | (k, d) :: entries => do
    let key ← toml_key depth k
    let part ← toml depth d
    let parts ← toml_entries depth entries
    return (key ++ ' ' :: '=' :: ' ' :: part) :: parts

end

/-- The text of a layer, which `tomllib` has to read. -/
def toml_text : Document Leaf → Except Refused Text
  | .dict entries => do
    let parts ← toml_entries 0 entries
    let text := ['\n'].intercalate parts ++ ['\n']
    if (loads text).isNone then .error ⟨⟩ else .ok text
  | _ => .error ⟨⟩

/-- Bytes of one layer. -/
def LIMIT : Nat := 1024 * 1024

def is_toml (name : String) : Bool := ".toml".toList.isSuffixOf name.toList

def render (json : Document Leaf → Except Refused Text) (name : String) (d : Document Leaf) :
    Except Refused Text := do
  let text ← if is_toml name then toml_text d else json d
  if 2 * LIMIT < Utf8.len text then .error ⟨⟩ else .ok text

end Fridica.Exec.Settings
