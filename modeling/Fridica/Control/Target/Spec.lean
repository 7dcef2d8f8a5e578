import Mathlib.Data.List.Basic

/-!
# Request targets

`target` of `control/api.rs` splits and decodes the target of a control request. `segment` and
`thread` of `control/cli.rs` admit the identifiers that a client puts into one. A `str` is the
bytes of its UTF-8 form.
-/

namespace Fridica.Control.Target

abbrev Text := List UInt8

def byte (c : Char) : UInt8 := c.toNat.toUInt8

def bytes (s : String) : Text := s.toList.map byte

/-! ## The path -/

/-- `char::to_digit(16)` -/
def to_digit (c : UInt8) : Option Nat :=
  let n := c.toNat
  if 48 ≤ n ∧ n ≤ 57 then some (n - 48)
  else if 97 ≤ n ∧ n ≤ 102 then some (n - 87)
  else if 65 ≤ n ∧ n ≤ 70 then some (n - 55)
  else none

/-- The bytes of one part, with its escapes decoded. -/
def decode : Text → Option Text
  | [] => some []
  | c :: source =>
    if c = byte '%' then
      match source with
      | a :: b :: source => do
        let a ← to_digit a
        let b ← to_digit b
        let bytes ← decode source
        return (a * 16 + b).toUInt8 :: bytes
      | _ => none
    else do
      let bytes ← decode source
      return c :: bytes

def is_ascii_graphic (c : UInt8) : Bool := 33 ≤ c.toNat && c.toNat ≤ 126

def is_ascii_alphanumeric (c : UInt8) : Bool :=
  let n := c.toNat
  (48 ≤ n && n ≤ 57) || (65 ≤ n && n ≤ 90) || (97 ≤ n && n ≤ 122)

def refused (bytes : Text) : Bool :=
  bytes.isEmpty || bytes == [byte '.'] || bytes == [byte '.', byte '.'] || bytes.length > 512 ||
    bytes.any fun c => !is_ascii_graphic c || [byte '/', byte '\\', byte '?', byte '#'].contains c

/-- One segment. What is not refused is ASCII, which `String::from_utf8` always takes. -/
def part_of (part : Text) : Option Text := do
  let bytes ← decode part
  if refused bytes then none else return bytes

/-- `split_once('?')` -/
def split_query (value : Text) : Text × Text :=
  (value.takeWhile (· ≠ byte '?'), (value.dropWhile (· ≠ byte '?')).tail)

def raw_parts (value : Text) : List Text := (split_query value).1.tail.splitOn (byte '/')

def path_parts (value : Text) : Option (List Text) := (raw_parts value).mapM part_of

/-! ## The query -/

/-- `str::parse::<usize>` -/
def parse_usize (v : Text) : Option Nat :=
  let digits := if v.head? = some (byte '+') then v.tail else v
  if digits.isEmpty || digits.any fun c => c.toNat < 48 || 57 < c.toNat then none
  else
    let n := digits.foldl (fun n c => n * 10 + (c.toNat - 48)) 0
    if n < 18446744073709551616 then some n else none

def fields_known : List Text :=
  [bytes "limit", bytes "control", bytes "status", bytes "state", bytes "thread", bytes "after"]

def insert_fields : List (Text × Text) → List (Text × Text) → Option (List (Text × Text))
  | [], fields => some fields
  | (k, v) :: pairs, fields =>
    if !fields_known.contains k || v.length > 200 || (fields.map (·.1)).contains k then none
    else insert_fields pairs ((k, v) :: fields)

def limit_admitted (fields : List (Text × Text)) : Bool :=
  ((fields.lookup (bytes "limit")).all fun v => (parse_usize v).any fun n => 1 ≤ n && n ≤ 1000)

/-- A target, and what it says. The pairs of a query are those of the URL reader, which may refuse
it. -/
def target (query_pairs : Text → Option (List (Text × Text))) (value : Text) :
    Option (List Text × List (Text × Text)) :=
  if value.length > 4096 || value.head? != some (byte '/') ||
      [byte '/', byte '/'].isPrefixOf value || value.contains (byte '#') then none
  else do
    let parts ← path_parts value
    let pairs ← query_pairs (split_query value).2
    let fields ← insert_fields pairs []
    if limit_admitted fields then return (parts, fields) else none

/-! ## The client -/

def segment (value : Text) : Option Text :=
  if value.isEmpty || value == [byte '.'] || value == [byte '.', byte '.'] ||
      !value.all fun c =>
        is_ascii_alphanumeric c || [byte '-', byte '_', byte '.', byte ':'].contains c then none
  else some value

/-- A thread ID or its readable `#channel:TS` form. -/
def thread (value : Text) : Option Text := segment (value.dropWhile (· = byte '#'))

/-! ## What a segment is -/

/-- A part, read from left to right, each escape once. -/
inductive Decodes : Text → Text → Prop
  | nil : Decodes [] []
  | plain {c : UInt8} {source bytes : Text} : c ≠ byte '%' → Decodes source bytes →
      Decodes (c :: source) (c :: bytes)
  | escape {a b : UInt8} {high low : Nat} {source bytes : Text} : to_digit a = some high →
      to_digit b = some low → Decodes source bytes →
      Decodes (byte '%' :: a :: b :: source) ((high * 16 + low).toUInt8 :: bytes)

structure Segment (s : Text) : Prop where
  nonempty : s ≠ []
  short : s.length ≤ 512
  printable : ∀ c ∈ s, is_ascii_graphic c = true
  plain : byte '/' ∉ s ∧ byte '\\' ∉ s ∧ byte '?' ∉ s ∧ byte '#' ∉ s
  no_dot : s ≠ [byte '.']
  no_dots : s ≠ [byte '.', byte '.']

/-- A path of these parts. -/
def render (parts : List Text) : Text := parts.flatMap (byte '/' :: ·)

/-- A part that neither ends a path nor splits. -/
def IsPart (p : Text) : Prop := byte '/' ∉ p ∧ byte '?' ∉ p ∧ byte '#' ∉ p

end Fridica.Control.Target
