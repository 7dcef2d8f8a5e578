import Fridica.Lib.Binary64
import Fridica.Lib.Infix

/-!
# Reading TOML

Documents of TOML 1.0, with the dates, times and numbers of binary64 that they hold, and their
reader: one statement after another, into tables that may be open, closed or frozen.
-/

namespace Fridica.Toml

abbrev Text := List Char

/-! ## Values -/

def leap (year : Nat) : Bool := year % 4 = 0 && (year % 100 ≠ 0 || year % 400 = 0)

def days_in_month (year month : Nat) : Nat :=
  if month = 2 then if leap year then 29 else 28
  else if month = 4 ∨ month = 6 ∨ month = 9 ∨ month = 11 then 30 else 31

/-- A day of the calendar. -/
structure Date where
  year : Nat
  month : Nat
  day : Nat
  valid_year : 1 ≤ year ∧ year < 10000
  valid_month : 1 ≤ month ∧ month ≤ 12
  valid_day : 1 ≤ day ∧ day ≤ days_in_month year month

structure Time where
  hour : Nat
  minute : Nat
  second : Nat
  micro : Nat
  valid : hour < 24 ∧ minute < 60 ∧ second < 60 ∧ micro < 1000000

/-- How far a clock is ahead of UTC. -/
structure Offset where
  minutes : Int
  valid : minutes.natAbs < 1440

inductive Scalar
  | int (n : Int)
  | float (x : Binary64)
  | date (d : Date)
  | time (t : Time)
  | datetime (d : Date) (t : Time) (offset : Option Offset)

inductive Value
  | string (s : Text)
  | bool (b : Bool)
  | scalar (a : Scalar)
  | array (items : List Value)
  | table (entries : List (Text × Value))

abbrev Table := List (Text × Value)

def Value.is_container : Value → Bool
  | .array _ => true
  | .table _ => true
  | _ => false

/-! ## Characters -/

def ws (c : Char) : Bool := c = ' ' || c = '\t'

def ws_or_newline (c : Char) : Bool := ws c || c = '\n'

def control (c : Char) : Bool := c.toNat < 32 || c.toNat = 127

/-- What no string and no comment has on one line. -/
def illegal (c : Char) : Bool := control c && c ≠ '\t'

def bare (c : Char) : Bool := c.isAlphanum || c = '-' || c = '_'

def skip_ws (t : Text) : Text := t.dropWhile ws

/-- A comment ends with its line. -/
def skip_comment : Text → Option Text
  | '#' :: t =>
    if (t.takeWhile (· ≠ '\n')).any illegal then none else some (t.dropWhile (· ≠ '\n'))
  | t => some t

def skip_array_ws : Nat → Text → Option Text
  | 0, _ => none
  | fuel + 1, t =>
    match t.dropWhile ws_or_newline with
    | '#' :: r => (skip_comment ('#' :: r)).bind (skip_array_ws fuel)
    | t => some t

/-! ## Strings -/

def hex_digit (c : Char) : Option Nat :=
  if c.isDigit then some (c.toNat - '0'.toNat)
  else if 'a' ≤ c ∧ c ≤ 'f' then some (c.toNat - 'a'.toNat + 10)
  else if 'A' ≤ c ∧ c ≤ 'F' then some (c.toNat - 'A'.toNat + 10)
  else none

def hex_value (ds : Text) : Option Nat :=
  ds.foldlM (fun n c => (hex_digit c).map (16 * n + ·)) 0

def hex_char (len : Nat) (t : Text) : Option (Char × Text) :=
  if (t.take len).length = len then
    (hex_value (t.take len)).bind fun n =>
      if n.isValidChar then some (Char.ofNat n, t.drop len) else none
  else none

def escape : Text → Option (Char × Text)
  | 'b' :: t => some (Char.ofNat 8, t)
  | 't' :: t => some ('\t', t)
  | 'n' :: t => some ('\n', t)
  | 'f' :: t => some (Char.ofNat 12, t)
  | 'r' :: t => some ('\r', t)
  | '"' :: t => some ('"', t)
  | '\\' :: t => some ('\\', t)
  | 'u' :: t => hex_char 4 t
  | 'U' :: t => hex_char 8 t
  | _ => none

/-- A line that is continued in a string of several lines. -/
def continuation (t : Text) : Option Text :=
  match skip_ws t with
  | '\n' :: r => some (r.dropWhile ws_or_newline)
  | _ => none

/-- A basic string after its opening quotes. -/
def basic (multiline : Bool) : Nat → Text → Option (Text × Text)
  | 0, _ => none
  | _ + 1, [] => none
  | fuel + 1, c :: t =>
    if c = '"' then
      if !multiline then some ([], t)
      else if t.take 2 = ['"', '"'] then some ([], t.drop 2)
      else (basic multiline fuel t).map fun (s, r) => ('"' :: s, r)
    else if c = '\\' then
      if multiline && t.head?.any ws_or_newline then (continuation t).bind (basic multiline fuel)
      else (escape t).bind fun (d, t) => (basic multiline fuel t).map fun (s, r) => (d :: s, r)
    else if illegal c && !(multiline && c = '\n') then none
    else (basic multiline fuel t).map fun (s, r) => (c :: s, r)

/-- A literal string after its opening quotes. -/
def literal (multiline : Bool) (t : Text) : Option (Text × Text) :=
  let quotes := if multiline then ['\'', '\'', '\''] else ['\'']
  (Infix.find quotes t).bind fun (s, r) =>
    if s.any fun c => illegal c && !(multiline && c = '\n') then none
    else some (s, r.drop quotes.length)

/-- A string of several lines, which may end with two quotes of its own. -/
def multiline (quote : Char) (fuel : Nat) (t : Text) : Option (Text × Text) :=
  let t := if t.head? = some '\n' then t.tail else t
  (if quote = '"' then basic true fuel t else literal true t).map fun (s, r) =>
    let extra := (r.take 2).takeWhile (· = quote)
    (s ++ extra, r.drop extra.length)

/-! ## Dates and times -/

def digits (w : Nat) (t : Text) : Option (Nat × Text) :=
  if (t.take w).length = w ∧ (t.take w).all Char.isDigit then
    some (Nat.ofDigitChars 10 (t.take w) 0, t.drop w)
  else none

def char (c : Char) (t : Text) : Option Text := if t.head? = some c then some t.tail else none

/-- The microseconds after a point, of which no more than six digits count. -/
def fraction_of_second (t : Text) : Nat × Text :=
  let ds := if t.head? = some '.' then t.tail.takeWhile Char.isDigit else []
  if ds = [] then (0, t)
  else (Nat.ofDigitChars 10 ((ds ++ List.replicate 6 '0').take 6) 0, t.tail.drop ds.length)

def local_time (t : Text) : Option (Time × Text) := do
  let (hour, t) ← digits 2 t
  let t ← char ':' t
  let (minute, t) ← digits 2 t
  let t ← char ':' t
  let (second, t) ← digits 2 t
  let (micro, t) := fraction_of_second t
  if h : hour < 24 ∧ minute < 60 ∧ second < 60 ∧ micro < 1000000 then
    some (⟨hour, minute, second, micro, h⟩, t)
  else none

/-- Minutes of a day, as a clock shows them. -/
def clock (t : Text) : Option ({n : Nat // n < 1440} × Text) := do
  let (hour, t) ← digits 2 t
  let t ← char ':' t
  let (minute, t) ← digits 2 t
  if h : hour < 24 ∧ minute < 60 then some (⟨60 * hour + minute, by omega⟩, t) else none

def time_offset (t : Text) : Option (Offset × Text) :=
  if t.head? = some '-' then
    (clock t.tail).map fun (n, t) => (⟨-(n.1 : Int), by have := n.2; omega⟩, t)
  else ((char '+' t).bind clock).map fun (n, t) => (⟨n.1, by have := n.2; omega⟩, t)

/-- The offset that may follow a time. -/
def offset (t : Text) : Option Offset × Text :=
  if t.head? = some 'Z' ∨ t.head? = some 'z' then (some ⟨0, by decide⟩, t.tail)
  else match time_offset t with
    | some (o, t) => (some o, t)
    | none => (none, t)

def calendar (t : Text) : Option ((Nat × Nat × Nat) × Text) := do
  let (year, t) ← digits 4 t
  let t ← char '-' t
  let (month, t) ← digits 2 t
  let t ← char '-' t
  let (day, t) ← digits 2 t
  if 1 ≤ month ∧ month ≤ 12 ∧ 1 ≤ day ∧ day ≤ 31 then some ((year, month, day), t) else none

def date_of (year month day : Nat) : Option Date :=
  if hy : 1 ≤ year ∧ year < 10000 then
    if hm : 1 ≤ month ∧ month ≤ 12 then
      if hd : 1 ≤ day ∧ day ≤ days_in_month year month then some ⟨year, month, day, hy, hm, hd⟩
      else none
    else none
  else none

/-- A date, with or without a time, and whether there is such a day. -/
def datetime (t : Text) : Option (Option Scalar × Text) :=
  (calendar t).map fun ((year, month, day), t) =>
    match (if t.head?.any (['T', 't', ' '].contains ·) then local_time t.tail else none) with
    | none => ((date_of year month day).map .date, t)
    | some (time, t) =>
      ((date_of year month day).map fun d => .datetime d time (offset t).1, (offset t).2)

/-! ## Numbers -/

/-- The digits after the first one, which single underscores may separate. -/
def run (p : Char → Bool) : Text → Text × Text
  | [] => ([], [])
  | c :: t =>
    if p c then (c :: (run p t).1, (run p t).2)
    else if c = '_' then
      match t with
      | [] => ([], [c])
      | d :: t => if p d then (d :: (run p t).1, (run p t).2) else ([], c :: d :: t)
    else ([], c :: t)

def digits_of (p : Char → Bool) : Text → Option (Text × Text)
  | [] => none
  | c :: t => if p c then some (c :: (run p t).1, (run p t).2) else none

/-- An integer in a base that its second character names. -/
def radix (name : Char) (base : Nat) (t : Text) : Option (Scalar × Text) :=
  if t.take 2 = ['0', name] then
    (digits_of (fun c => (hex_digit c).any (· < base)) (t.drop 2)).map fun (ds, r) =>
      (.int (ds.foldl (fun n c => base * n + (hex_digit c).getD 0) 0), r)
  else none

/-- `+`, `-` or nothing, and whether it was `-`. -/
def sign (t : Text) : Bool × Text :=
  if t.head? = some '-' then (true, t.tail)
  else if t.head? = some '+' then (false, t.tail) else (false, t)

def integer_part (t : Text) : Option (Text × Text) :=
  if t.head? = some '0' then some (['0'], t.tail) else digits_of Char.isDigit t

def fraction (t : Text) : Option Text × Text :=
  match (char '.' t).bind (digits_of Char.isDigit) with
  | some (ds, r) => (some ds, r)
  | none => (none, t)

def exponent (t : Text) : Option Int × Text :=
  let after := if t.head? = some 'e' ∨ t.head? = some 'E' then some t.tail else none
  match after.bind fun r => (digits_of Char.isDigit (sign r).2).map fun d => ((sign r).1, d) with
  | some (negative, ds, r) =>
    let n := Nat.ofDigitChars 10 ds 0
    (some (if negative then -n else n), r)
  | none => (none, t)

def decimal (t : Text) : Option (Scalar × Text) :=
  (integer_part (sign t).2).map fun (int, r) =>
    let frac := fraction r
    let exp := exponent frac.2
    if frac.1 = none ∧ exp.1 = none then
      let n := Nat.ofDigitChars 10 int 0
      (.int (if (sign t).1 then -n else n), r)
    else
      let ds := frac.1.getD []
      (.float (Binary64.of_decimal (sign t).1 (Nat.ofDigitChars 10 (int ++ ds) 0)
        (exp.1.getD 0 - ds.length)), exp.2)

def special (t : Text) : Option (Scalar × Text) :=
  let word := (sign t).2.take 3
  if word = "inf".toList then some (.float (.infinity (sign t).1), (sign t).2.drop 3)
  else if word = "nan".toList then some (.float .nan, (sign t).2.drop 3)
  else none

/-- What is neither a string, a truth value nor a container. -/
def scalar (t : Text) : Option (Scalar × Text) :=
  match datetime t with
  | some (some a, r) => some (a, r)
  | some (none, _) => none
  | none =>
    match local_time t with
    | some (time, r) => some (.time time, r)
    | none => radix 'x' 16 t <|> radix 'b' 2 t <|> radix 'o' 8 t <|> decimal t <|> special t

/-! ## Keys -/

abbrev Path := List Text

def key_part (fuel : Nat) : Text → Option (Text × Text)
  | [] => none
  | c :: t =>
    if bare c then some ((c :: t).takeWhile bare, (c :: t).dropWhile bare)
    else if c = '\'' then literal false t
    else if c = '"' then basic false fuel t
    else none

def key : Nat → Text → Option (Path × Text)
  | 0, _ => none
  | fuel + 1, t =>
    (key_part fuel t).bind fun (part, t) =>
      match skip_ws t with
      | '.' :: r => (key fuel (skip_ws r)).map fun (parts, r) => (part :: parts, r)
      | t => some ([part], t)

/-! ## Tables -/

def put (k : Text) (v : Value) : Table → Table
  | [] => []
  | e :: t => if e.1 = k then (k, v) :: t else e :: put k v t

/-- A change to the table at a path, where tables that are not there are made. The last table of an
array stands for the array, where arrays may be entered. -/
def at_nest (arrays : Bool) (f : Table → Option Table) : Path → Table → Option Table
  | [], t => f t
  | k :: path, t =>
    match t.lookup k with
    | none => (at_nest arrays f path []).map fun n => t ++ [(k, .table n)]
    | some (.table n) => (at_nest arrays f path n).map fun n => put k (.table n) t
    | some (.array items) =>
      match items.getLast? with
      | some (.table n) =>
        if arrays then
          (at_nest arrays f path n).map fun n => put k (.array (items.dropLast ++ [.table n])) t
        else none
      | _ => none
    | some _ => none

/-- One key more, unless it is there. -/
def add (k : Text) (v : Value) (t : Table) : Option Table :=
  if (t.lookup k).isSome then none else some (t ++ [(k, v)])

/-- An inline table, and the keys below which it does not change any more. -/
structure Inline where
  table : Table
  frozen : List Path

def is_frozen (frozen : List Path) (k : Path) : Bool := k ≠ [] && frozen.any (·.isPrefixOf k)

def Inline.add (st : Inline) (k : Path) (v : Value) : Option Inline :=
  if is_frozen st.frozen k then none
  else (at_nest false (Toml.add (k.getLastD []) v) k.dropLast st.table).map fun table =>
    ⟨table, if v.is_container then k :: st.frozen else st.frozen⟩

/-! ## Containers -/

mutual

def value : Nat → Text → Option (Value × Text)
  | 0, _ => none
  | _ + 1, [] => none
  | fuel + 1, c :: t =>
    if c = '"' ∨ c = '\'' then
      (if t.take 2 = [c, c] then multiline c fuel (t.drop 2)
        else if c = '"' then basic false fuel t else literal false t).map fun (s, r) => (.string s, r)
    else if c = 't' ∧ t.take 3 = "rue".toList then some (.bool true, t.drop 3)
    else if c = 'f' ∧ t.take 4 = "alse".toList then some (.bool false, t.drop 4)
    else if c = '[' then
      (skip_array_ws fuel t).bind fun t =>
        if t.head? = some ']' then some (.array [], t.tail)
        else (items fuel t).map fun (vs, r) => (.array vs, r)
    else if c = '{' then
      if (skip_ws t).head? = some '}' then some (.table [], (skip_ws t).tail)
      else (pairs fuel ⟨[], []⟩ (skip_ws t)).map fun (entries, r) => (.table entries, r)
    else (scalar (c :: t)).map fun (a, r) => (.scalar a, r)

/-- The items of an array up to its end. -/
def items : Nat → Text → Option (List Value × Text)
  | 0, _ => none
  | fuel + 1, t =>
    (value fuel t).bind fun (v, t) =>
      (skip_array_ws fuel t).bind fun t =>
        if t.head? = some ']' then some ([v], t.tail)
        else if t.head? = some ',' then
          (skip_array_ws fuel t.tail).bind fun t =>
            if t.head? = some ']' then some ([v], t.tail)
            else (items fuel t).map fun (vs, r) => (v :: vs, r)
        else none

/-- The pairs of an inline table up to its end. -/
def pairs : Nat → Inline → Text → Option (Table × Text)
  | 0, _, _ => none
  | fuel + 1, st, t =>
    (key fuel t).bind fun (k, t) =>
      (char '=' t).bind fun t =>
        (value fuel (skip_ws t)).bind fun (v, t) =>
          (st.add k v).bind fun st =>
            if (skip_ws t).head? = some '}' then some (st.table, (skip_ws t).tail)
            else if (skip_ws t).head? = some ',' then pairs fuel st (skip_ws (skip_ws t).tail)
            else none

end

/-! ## Statements -/

/-- The tables so far, those that are frozen or may not be opened again, those that become so with
the next header, and the table that is open. -/
structure State where
  data : Table
  frozen : List Path
  explicit : List Path
  pending : List Path
  header : Path

def key_value (fuel : Nat) (st : State) (t : Text) : Option (State × Text) :=
  (key fuel t).bind fun (k, t) =>
    (char '=' t).bind fun t =>
      (value fuel (skip_ws t)).bind fun (v, t) =>
        let parents := (k.dropLast.inits.tail).map (st.header ++ ·)
        if parents.any (st.explicit.contains ·) then none
        else if is_frozen st.frozen (st.header ++ k.dropLast) then none
        else (at_nest true (add (k.getLastD []) v) (st.header ++ k.dropLast) st.data).map fun data =>
          ({ st with
              data
              pending := parents ++ st.pending
              frozen := if v.is_container then (st.header ++ k) :: st.frozen else st.frozen }, t)

def finalize (st : State) : State := { st with explicit := st.pending ++ st.explicit, pending := [] }

/-- `[table]` -/
def open_table (fuel : Nat) (st : State) (t : Text) : Option (State × Text) :=
  (key fuel (skip_ws t)).bind fun (k, t) =>
    if st.explicit.contains k || is_frozen st.frozen k then none
    else (at_nest true some k st.data).bind fun data =>
      (char ']' t).map fun t => ({ st with data, explicit := k :: st.explicit, header := k }, t)

/-- One empty table more in the array under a key. -/
def append_nest (k : Text) (t : Table) : Option Table :=
  match t.lookup k with
  | none => some (t ++ [(k, .array [.table []])])
  | some (.array items) => some (put k (.array (items ++ [.table []])) t)
  | some _ => none

/-- `[[table]]` -/
def open_array (fuel : Nat) (st : State) (t : Text) : Option (State × Text) :=
  (key fuel (skip_ws t)).bind fun (k, t) =>
    if is_frozen st.frozen k then none
    else (at_nest true (append_nest (k.getLastD [])) k.dropLast st.data).bind fun data =>
      ((char ']' t).bind (char ']')).map fun t =>
        -- What was below the key belongs to the table before.
        ({ st with
            data
            frozen := st.frozen.filter fun p => !k.isPrefixOf p
            explicit := k :: st.explicit.filter fun p => !k.isPrefixOf p
            header := k }, t)

def statement (fuel : Nat) (st : State) : Text → Option (State × Text)
  | '[' :: '[' :: t => open_array fuel (finalize st) t
  | '[' :: t => open_table fuel (finalize st) t
  | '#' :: t => some (st, '#' :: t)
  | t => key_value fuel st t

def statements : Nat → State → Text → Option Table
  | 0, _, _ => none
  | fuel + 1, st, t =>
    if skip_ws t = [] then some st.data
    else if (skip_ws t).head? = some '\n' then statements fuel st (skip_ws t).tail
    else
      (statement fuel st (skip_ws t)).bind fun (st, t) =>
        (skip_comment (skip_ws t)).bind fun t =>
          if t = [] then some st.data
          else if t.head? = some '\n' then statements fuel st t.tail
          else none

/-- Lines may end with `\r\n`. -/
def normalize : Text → Text
  | '\r' :: '\n' :: t => '\n' :: normalize t
  | c :: t => c :: normalize t
  | [] => []

def loads (s : Text) : Option Table :=
  statements ((normalize s).length + 1) ⟨[], [], [], [], []⟩ (normalize s)

end Fridica.Toml
