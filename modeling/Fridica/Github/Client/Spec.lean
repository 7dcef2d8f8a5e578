import Fridica.Control.Target.Spec
import Fridica.Github.Checks.Spec
import Fridica.Lib.Infix

/-!
# The reads of the GitHub client

`Request::endpoint` of `github/client.rs`: six fixed operations, with a repository, a number, a page
or a commit ID pasted into a path. A `str` is the bytes of its UTF-8 form.
-/

namespace Fridica.Github.Client

open Fridica.Control.Target (Text byte bytes is_ascii_alphanumeric is_ascii_graphic)

/-! ## The request -/

inductive Operation
  | issue (number : Nat)
  | pull (number : Nat)
  | tree (head : Text)
  | compare (base head : Text)
  | checks (head : Text) (page : Nat)
  | reviews (number page : Nat)
deriving DecidableEq

structure Request where
  repo : Text
  operation : Operation
deriving DecidableEq

def owner_ok (owner : Text) : Bool :=
  owner.length ≤ 39 && owner.head?.any is_ascii_alphanumeric &&
    owner.all fun v => is_ascii_alphanumeric v || v == byte '-'

def repo_ok (repo : Text) : Bool :=
  !repo.isEmpty && repo.length ≤ 100 && !([bytes ".", bytes ".."].contains repo) &&
    repo.all fun v => is_ascii_alphanumeric v || [byte '.', byte '_', byte '-'].contains v

def repository (value : Text) : Bool :=
  match Infix.split_once (byte '/') value with
  | none => false
  | some (owner, repo) => owner_ok owner && repo_ok repo

def is_ascii_hexdigit (c : UInt8) : Bool :=
  let n := c.toNat
  (48 ≤ n && n ≤ 57) || (65 ≤ n && n ≤ 70) || (97 ≤ n && n ≤ 102)

def sha (value : Text) : Bool :=
  (value.length == 40 || value.length == 64) && value.all is_ascii_hexdigit

/-- An upper-case hexadecimal digit. -/
def hex_digit (n : Nat) : UInt8 := (if n < 10 then 48 + n else 55 + n).toUInt8

def kept (b : UInt8) : Bool :=
  is_ascii_alphanumeric b ||
    [byte '-', byte '.', byte '_', byte '~', byte '/'].contains b

def encode_byte (b : UInt8) : Text :=
  if kept b then [b] else [byte '%', hex_digit (b.toNat / 16), hex_digit (b.toNat % 16)]

def encode (value : Text) : Text := value.flatMap encode_byte

/-! ## The endpoint -/

def decimal (n : Nat) : Text := (Nat.toDigits 10 n).map byte

def number (n : Nat) : Except Failure Nat :=
  if 1 ≤ n ∧ n ≤ 999999999 then .ok n else .error .invalid

def head (s : Text) : Except Failure Unit := if sha s then .ok () else .error .invalid

def page (p : Nat) : Except Failure Nat := if 1 ≤ p ∧ p ≤ 3 then .ok p else .error .invalid

/-- A base that is refused. -/
def base_refused (base : Text) : Bool :=
  base.isEmpty || base.length > 255 || decide (bytes ".." <:+: base) ||
    base.any fun c => c == 0 || c == 13 || c == 10

def suffix : Operation → Except Failure Text
  | .issue n => do return bytes "issues/" ++ decimal (← number n)
  | .pull n => do return bytes "pulls/" ++ decimal (← number n)
  | .tree h => do
    head h
    return bytes "git/commits/" ++ h
  | .compare base h => do
    head h
    if base_refused base then .error .invalid
    else return bytes "compare/" ++ encode base ++ bytes "..." ++ h
  | .checks h p => do
    head h
    return bytes "commits/" ++ h ++ bytes "/check-runs?per_page=100&page=" ++ decimal (← page p)
  | .reviews n p => do
    let n ← number n
    let p ← page p
    return bytes "pulls/" ++ decimal n ++ bytes "/reviews?per_page=100&page=" ++ decimal p

def Request.endpoint (r : Request) : Except Failure Text :=
  if repository r.repo then do
    let suffix ← suffix r.operation
    return bytes "/repos/" ++ r.repo ++ [byte '/'] ++ suffix
  else .error .invalid

/-! ## What an endpoint is -/

/-- An owner and a repository that name nothing but themselves in a path. -/
structure Repository (owner repo value : Text) : Prop where
  value : value = owner ++ byte '/' :: repo
  owner_nonempty : owner ≠ []
  owner_admitted : ∀ c ∈ owner, is_ascii_alphanumeric c ∨ c = byte '-'
  repo_nonempty : repo ≠ []
  repo_admitted : ∀ c ∈ repo, is_ascii_alphanumeric c ∨ c = byte '.' ∨ c = byte '_' ∨ c = byte '-'
  no_dot : repo ≠ bytes "."
  no_dots : repo ≠ bytes ".."

structure Commit (h : Text) : Prop where
  length : h.length = 40 ∨ h.length = 64
  digits : ∀ c ∈ h, is_ascii_hexdigit c

/-- The operation's own suffix, around a number, a page or a commit that is as it must be. -/
inductive Fixed : Operation → Text → Prop
  | issue {n : Nat} : 1 ≤ n → n ≤ 999999999 → Fixed (.issue n) (bytes "issues/" ++ decimal n)
  | pull {n : Nat} : 1 ≤ n → n ≤ 999999999 → Fixed (.pull n) (bytes "pulls/" ++ decimal n)
  | tree {h : Text} : Commit h → Fixed (.tree h) (bytes "git/commits/" ++ h)
  | compare {base h : Text} : Commit h → base ≠ [] → ¬ bytes ".." <:+: base →
      Fixed (.compare base h) (bytes "compare/" ++ encode base ++ bytes "..." ++ h)
  | checks {h : Text} {p : Nat} : Commit h → 1 ≤ p → p ≤ 3 →
      Fixed (.checks h p)
        (bytes "commits/" ++ h ++ bytes "/check-runs?per_page=100&page=" ++ decimal p)
  | reviews {n p : Nat} : 1 ≤ n → n ≤ 999999999 → 1 ≤ p → p ≤ 3 →
      Fixed (.reviews n p)
        (bytes "pulls/" ++ decimal n ++ bytes "/reviews?per_page=100&page=" ++ decimal p)

/-- A byte that neither ends the path, nor begins a query or a fragment, nor is a blank or a
control character. -/
def Plain (c : UInt8) : Prop := is_ascii_graphic c = true ∧ c ≠ byte '?' ∧ c ≠ byte '#'

/-- The parts of the path, before the query. -/
def segments (endpoint : Text) : List Text :=
  (endpoint.takeWhile (· ≠ byte '?')).splitOn (byte '/')

end Fridica.Github.Client
