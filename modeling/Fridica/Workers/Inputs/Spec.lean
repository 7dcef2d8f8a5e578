import Fridica.Lib.Fresh
import Fridica.Lib.Path

/-!
# Names for a job's files

`safe_name` and `unique_names` of `workers/inputs.rs`. What is left of a name after `safe_name`
replaced its characters is ASCII, whose length in bytes is its number of characters.
-/

namespace Fridica.Workers.Inputs

open Fridica.Path (Text split)

/-! ## A path and its extension -/

/-- `Path::file_name` -/
def file_name (path : Text) : Option Text :=
  (((split path).filter fun part => part ≠ [] ∧ part ≠ ['.']).getLast?).filter (· ≠ ['.', '.'])

/-- What stands before the last dot, and what after it. A dot that begins a name separates
nothing. -/
def rsplit_file_at_dot (file : Text) : Text × Option Text :=
  let after := file.rtakeWhile (· ≠ '.')
  let before := (file.rdropWhile (· ≠ '.')).dropLast
  if before = [] then (file, none) else (before, some after)

def file_stem (path : Text) : Option Text :=
  (file_name path).map fun file => (rsplit_file_at_dot file).1

def extension (path : Text) : Option Text :=
  (file_name path).bind fun file => (rsplit_file_at_dot file).2

/-! ## One name -/

def safe (c : Char) : Bool := c.isAlphanum || ['.', '_', '-', '+'].contains c

/-- The extension that is kept of a name that is cut. -/
def short_extension (out : Text) : Text :=
  match (extension out).filter (·.length ≤ 16) with
  | some e => '.' :: e
  | none => []

def shorten (out : Text) : Text :=
  if out.length > 100 then out.take (100 - (short_extension out).length) ++ short_extension out
  else out

def safe_name (name fallback : Text) : Text :=
  let out := shorten ((name.map fun c => if safe c then c else '_').dropWhile (· = '.'))
  if out = [] ∨ out.all (· = '_') then fallback else out

/-! ## Distinct names -/

def numbered (base : Text) (n : Nat) : Text :=
  match file_stem base, extension base with
  | some stem, some ext => stem ++ '-' :: (Nat.toDigits 10 n ++ '.' :: ext)
  | _, _ => base ++ '-' :: Nat.toDigits 10 n

/-- The candidate that is tried under a number. -/
def candidate (base : Text) (n : Nat) : Text := if n = 1 then base else numbered base n

/-- The name of one file more, a pair of an ID and a name. -/
def next_name (fuel : Nat) (out : List Text) (file : Text × Text) : Option (List Text) :=
  (Fresh.search (candidate (safe_name file.2 file.1)) out fuel 1).map fun name => out ++ [name]

/-- The loop over the files, each with as many rounds as there is fuel. -/
def unique_names (fuel : Nat) (names : List (Text × Text)) : Option (List Text) :=
  names.foldlM (next_name fuel) []

/-! ## What names are good for -/

/-- An ID as the workspace takes it for a directory. -/
structure FileId (id : Text) : Prop where
  nonempty : id ≠ []
  short : id.length ≤ 64
  alphanumeric : ∀ c ∈ id, c.isAlphanum = true

/-- A single path component that a worker may see. -/
structure Component (t : Text) : Prop where
  nonempty : t ≠ []
  safe : ∀ c ∈ t, safe c = true
  no_dot : t.head? ≠ some '.'
  single : file_name t = some t

/-- The loop ends with these names, whatever fuel it has beyond one round for each file. -/
def Gives (files : List (Text × Text)) (out : List Text) : Prop :=
  ∀ fuel, files.length < fuel → unique_names fuel files = some out

/-! ## Names that meet -/

/-- One of the first `k + 1` forms of a name, itself the first. -/
def is_form (k : Nat) (base name : Text) : Bool :=
  (List.range (k + 1)).any fun i => candidate base (i + 1) = name

/-- A file with the safe name `other` may get a form of `base`: its own name is one, or `base` is a
form of its name, which in turn is a form of a name before it. -/
def meets (k : Nat) (base other : Text) (before : List (Text × Text)) : Bool :=
  is_form k base other ||
    (is_form k other base && before.any fun file => is_form k (safe_name file.2 file.1) other)

def colliding (k : Nat) (base : Text) : List (Text × Text) → Nat
  | [] => 0
  | file :: before =>
    colliding k base before + if meets k base (safe_name file.2 file.1) before then 1 else 0

/-- How many of the files may get a form of a name. -/
def collisions (base : Text) (files : List (Text × Text)) : Nat :=
  colliding files.length base files.reverse

def same (base : Text) (files : List (Text × Text)) : Nat :=
  files.countP fun file => safe_name file.2 file.1 = base

/-- After `k` collisions there is room for the number. -/
def Fits (base : Text) (k : Nat) : Prop :=
  k = 0 ∨ base.length + 1 + (Nat.toDigits 10 (k + 1)).length ≤ 100

/-- There is room for every file, when the collisions with the files before it are counted so. -/
def AllFit (count : Text → List (Text × Text) → Nat) (files : List (Text × Text)) : Prop :=
  ∀ before file after, files = before ++ file :: after →
    Fits (safe_name file.2 file.1) (count (safe_name file.2 file.1) before)

/-- No safe name is a numbered form of another. -/
def Apart (files : List (Text × Text)) : Prop :=
  ∀ file ∈ files, ∀ other ∈ files, ∀ n, 2 ≤ n →
    safe_name other.2 other.1 ≠ numbered (safe_name file.2 file.1) n

end Fridica.Workers.Inputs
