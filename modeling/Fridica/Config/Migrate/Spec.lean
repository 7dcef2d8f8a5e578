import Fridica.Lib.Checked
import Fridica.Lib.Layout

/-!
# Old loop limits

`migrate_text` of `config/mod.rs`: two limits of the old runtime are folded into one setting. Reading
and printing a document is a parameter.
-/

namespace Fridica.Config.Migrate

open Fridica.Checked Fridica.Layout
open Fridica.Lines (Text NEWLINE trim)

variable {σ φ : Type}

/-- `toml_edit` -/
structure Toml (σ φ : Type) where
  parse : Text → Option (Document σ φ)
  print : Document σ φ → Text

def LEGACY : List String := ["max_wait_replies", "max_no_progress"]

def get (name : String) : Item σ φ → Option (Item σ φ)
  | .table entries _ => (find name entries).map (·.2)
  | .value (.inline_table entries _ _) => (find name entries).map fun e => .value e.2
  | _ => none

def explicit (entries : Entries σ φ) : Option (Item σ φ) :=
  (find "attention" entries).bind fun e => get "streak_signal" e.2

/-! ## Lifting the old limits out -/

/-- The comments in the text around something, each run of them on lines of its own. -/
def lift : Option Text → Text
  | some s => if '#' ∈ s then trim s ++ [NEWLINE] else []
  | none => []

def lift_decor (d : Decor) : Text := lift d.before ++ lift d.after

structure Lifted (σ φ : Type) where
  table : Entries σ φ
  legacy : List Int
  comments : Text

def lift_key (st : Lifted σ φ) (key : String) : Except String (Lifted σ φ) :=
  match find key st.table with
  | none => .ok st
  | some (decorated, item) =>
    match item.as_integer.filter (0 < ·) with
    | none => .error "legacy loop limits must be positive integers"
    | some number => .ok {
        table := remove key st.table
        legacy := st.legacy ++ [number]
        -- Removed values may carry user comments.
        comments := st.comments ++ lift_decor decorated.leaf_decor ++ match item with
          | .value v => lift_decor v.decor
          | _ => [] }

def lift_legacy (entries : Entries σ φ) : Except String (Lifted σ φ) :=
  match find "limits" entries with
  | none => .ok ⟨entries, [], []⟩
  | some (_, .table table format) => do
    let st ← LEGACY.foldlM lift_key ⟨table, [], []⟩
    return { st with table := replace_table "limits" st.table format entries }
  | some _ => .error "limits must be a table"

/-! ## Folding them in -/

variable [Inhabited φ]

def new_key (name : String) : Key φ := ⟨name, .empty, default⟩

def insert (name : String) (v : Value σ φ) (table : Entries σ φ) : Entries σ φ :=
  if (find name table).isSome then update name (fun e => (e.1, .value v)) table
  else table ++ [(new_key name, .value v)]

/-- Key decoration holds full-line comments. -/
def add_comments (comments : Text) (key : Key φ) : Key φ :=
  { key with leaf_decor :=
      { key.leaf_decor with before := some (comments ++ key.leaf_decor.before.getD []) } }

def reattach (comments : Text) (table : Entries σ φ) : Except String (Entries σ φ) :=
  if comments = [] then .ok table
  else if (find "streak_signal" table).isNone then .error "missing streak_signal"
  else .ok (update "streak_signal" (fun e => (add_comments comments e.1, e.2)) table)

/-- The smallest limit. If only one was configured, the omitted one still counts as three. -/
def smallest (first : Int) (rest : List Int) : Int :=
  (if rest = [] then [3] else rest).foldl min first

def with_attention (entries : Entries σ φ) : Entries σ φ :=
  if (find "attention" entries).isNone then entries ++ [(new_key "attention", .table [] default)]
  else entries

def fold_in (has_override : Bool) (limit : Int) (comments : Text) (entries : Entries σ φ) :
    Except String (Entries σ φ) :=
  match find "attention" (with_attention entries) with
  | some (_, .table table format) => do
    let table := if has_override then table
      else insert "streak_signal" (.integer limit .empty default) table
    let table ← reattach comments table
    return replace_table "attention" table format (with_attention entries)
  | _ => .error "attention must be a table"

def migrate (doc : Document σ φ) : Except String (Document σ φ) := do
  refuse ((explicit doc.entries).any fun item => !item.as_integer.any (0 < ·))
    "attention.streak_signal must be a positive integer"
  let st ← lift_legacy doc.entries
  match st.legacy with
  | [] => return { doc with entries := st.table }
  | first :: rest =>
    let entries ← fold_in (explicit doc.entries).isSome (smallest first rest) st.comments st.table
    return { doc with entries }

def migrate_text (toml : Toml σ φ) (source : Text) : Except String Text :=
  match toml.parse source with
  | none => .error "invalid TOML configuration"
  | some doc => (migrate doc).map toml.print

/-! ## Documents that are well formed around their keys -/

/-- Every line that is not blank is a comment. -/
def Remarks (s : Text) : Prop := ∀ c ∈ Lines.content s, c.head? = some '#'

/-- Lines before a key, which begins on the last of them. -/
structure Leading (s : Text) : Prop where
  remarks : Remarks s
  ends : ∀ l ∈ (s.splitOn NEWLINE).getLast?, trim l = []

/-- What ends the line of a value. -/
structure Trailing (s : Text) : Prop where
  remarks : Remarks s
  one_line : NEWLINE ∉ s

structure Blank (s : Text) : Prop where
  blank : trim s = []
  one_line : NEWLINE ∉ s

structure LawfulEntry (e : Key φ × Value σ φ) : Prop where
  key_before : ∀ s ∈ e.1.leaf_decor.before, Leading s
  key_after : ∀ s ∈ e.1.leaf_decor.after, Blank s
  value_before : ∀ s ∈ e.2.decor.before, Blank s
  value_after : ∀ s ∈ e.2.decor.after, Trailing s

def Lawful (d : Document σ φ) : Prop :=
  ∀ path name, ∀ e ∈ d.root.value_at path name, LawfulEntry e

/-- A printed document reads as a document with the same values and comments, and with no item that it
did not have, and prints as before. A table that holds nothing may be left out. -/
def Rereads (toml : Toml σ φ) (d : Document σ φ) : Prop :=
  ∃ d', toml.parse (toml.print d) = some d' ∧ toml.print d' = toml.print d ∧
    (∀ path name, d'.root.said path name = d.root.said path name) ∧
    ∀ path i', d'.root.at path = some i' → ∃ i, d.root.at path = some i ∧ i.kind = i'.kind

/-- What the editor of documents is relied on for, with a source and the document that is written for
it. -/
structure Faithful (toml : Toml σ φ) (source : Text) : Prop where
  lossless : ∀ d, toml.parse source = some d → toml.print d = source
  lawful : ∀ d, toml.parse source = some d → Lawful d
  rereads : ∀ d d', toml.parse source = some d → migrate d = .ok d' → Lawful d' → Rereads toml d'

/-! ## What a migration does -/

def LIMITS : List Step := [.key "limits"]

def ATTENTION : List Step := [.key "attention"]

def Moved (path : List Step) (name : String) : Prop :=
  path = LIMITS ∧ name ∈ LEGACY ∨ path = ATTENTION ∧ name = "streak_signal"

def limit (d : Document σ φ) (key : String) : Option Int :=
  ((d.root.at LIMITS).bind (·.entry key)).bind (·.2.as_integer)

def streak_signal (d : Document σ φ) : Option Int := (explicit d.entries).bind (·.as_integer)

def comments_at (d : Document σ φ) (path : List Step) (name : String) : List Text :=
  ((d.root.said path name).map (·.comments)).getD []

/-- The smaller of two limits, of which a missing one is three. -/
def smaller (a b : Option Int) : Option Int :=
  if a.isNone ∧ b.isNone then none else some (min (a.getD 3) (b.getD 3))

structure Migrated (d d' : Document σ φ) : Prop where
  no_legacy : ∀ key ∈ LEGACY, (d'.root.at LIMITS).bind (·.entry key) = none
  streak : streak_signal d' =
    (streak_signal d).or (smaller (limit d "max_wait_replies") (limit d "max_no_progress"))
  others : ∀ path name, ¬ Moved path name → d'.root.said path name = d.root.said path name
  comments : comments_at d' ATTENTION "streak_signal" =
    LEGACY.flatMap (comments_at d LIMITS) ++ comments_at d ATTENTION "streak_signal"

end Fridica.Config.Migrate
