import Fridica.Lib.Lines
import Mathlib.Data.List.Basic

/-!
# Documents that keep their layout

Tables of keys, tables within tables and arrays of tables, as an editor of TOML keeps them: with the
blanks and comments around each key and value. What else belongs to the layout is opaque.
-/

namespace Fridica.Layout

open Lines (Text NEWLINE content trim)

/-- The text around a key or a value. -/
structure Decor where
  before : Option Text
  after : Option Text
deriving DecidableEq

def Decor.empty : Decor := ⟨none, none⟩

variable {σ φ : Type}

structure Key (φ : Type) where
  name : String
  leaf_decor : Decor
  format : φ

/-- A value. Nothing looks into those that are neither integers nor inline tables. -/
inductive Value (σ φ : Type)
  | integer (n : Int) (decor : Decor) (format : φ)
  | inline_table (entries : List (Key φ × Value σ φ)) (decor : Decor) (format : φ)
  | other (value : σ) (decor : Decor) (format : φ)

inductive Item (σ φ : Type)
  | value (v : Value σ φ)
  | table (entries : List (Key φ × Item σ φ)) (format : φ)
  | array_of_tables (tables : List (Item σ φ)) (format : φ)

abbrev Entries (σ φ : Type) := List (Key φ × Item σ φ)

/-- A document is a table, and what follows its last line. -/
structure Document (σ φ : Type) where
  entries : Entries σ φ
  format : φ
  trailing : Text

def Value.decor : Value σ φ → Decor
  | .integer _ decor _ => decor
  | .inline_table _ decor _ => decor
  | .other _ decor _ => decor

def Item.as_integer : Item σ φ → Option Int
  | .value (.integer n _ _) => some n
  | _ => none

/-! ## One table -/

section Table

variable {ε : Type}

def find (name : String) (entries : List (Key φ × ε)) : Option (Key φ × ε) :=
  entries.find? (·.1.name = name)

/-- What is left of a table without a key. -/
def remove (name : String) (entries : List (Key φ × ε)) : List (Key φ × ε) :=
  entries.filter (·.1.name ≠ name)

/-- Changing an entry in its place. -/
def update (name : String) (f : Key φ × ε → Key φ × ε) : List (Key φ × ε) → List (Key φ × ε)
  | [] => []
  | e :: entries => if e.1.name = name then f e :: entries else e :: update name f entries

variable {name other : String} {entries : List (Key φ × ε)} {e : Key φ × ε}

theorem find_cons : find name (e :: entries) = if e.1.name = name then some e else find name entries := by
  unfold find
  rw [List.find?_cons]
  split <;> simp_all

@[simp] theorem find_remove_self : find name (remove name entries) = none := by
  simp [find, remove]

theorem find_remove (h : other ≠ name) : find other (remove name entries) = find other entries := by
  induction entries with
  | nil => rfl
  | cons e entries ih =>
    unfold remove at ih ⊢
    rw [List.filter_cons]
    split
    · rw [find_cons, find_cons, ih]
    next hname =>
      have hne : e.1.name ≠ other := by
        intro heq
        simp_all
      rw [ih, find_cons, if_neg hne]

theorem find_update {f : Key φ × ε → Key φ × ε} (hf : ∀ e, (f e).1.name = e.1.name) :
    find other (update name f entries) =
      if other = name then (find other entries).map f else find other entries := by
  induction entries with
  | nil => simp [find, update]
  | cons e entries ih =>
    unfold update
    rw [find_cons]
    split
    next he =>
      rw [find_cons, hf, he]
      by_cases hname : other = name
      · simp [hname]
      · rw [if_neg (Ne.symm hname), if_neg (Ne.symm hname), if_neg hname]
    next he =>
      rw [find_cons, ih]
      by_cases hother : e.1.name = other
      · have hname : other ≠ name := fun heq => he (hother.trans heq)
        rw [if_pos hother, if_pos hother, if_neg hname]
      · rw [if_neg hother, if_neg hother]

theorem update_self {f : Key φ × ε → Key φ × ε} (h : ∀ e, find name entries = some e → f e = e) :
    update name f entries = entries := by
  induction entries with
  | nil => rfl
  | cons e entries ih =>
    simp only [find_cons] at h
    unfold update
    split at h
    next he => rw [if_pos he, h e rfl]
    next he => rw [if_neg he, ih h]

theorem find_append : find name (entries ++ [e]) =
    (find name entries).or (if e.1.name = name then some e else none) := by
  unfold find
  rw [List.find?_append, List.find?_singleton]
  simp

end Table

/-! ## Places in a document -/

inductive Step
  | key (name : String)
  | index (n : Nat)
deriving DecidableEq

def Item.child : Item σ φ → Step → Option (Item σ φ)
  | .table entries _, .key name => (find name entries).map (·.2)
  | .array_of_tables tables _, .index n => tables[n]?
  | _, _ => none

/-- The item that a path leads to. -/
def Item.at : Item σ φ → List Step → Option (Item σ φ)
  | item, [] => some item
  | item, step :: path => (item.child step).bind (·.at path)

/-- The entry of a table under a name. -/
def Item.entry (name : String) : Item σ φ → Option (Key φ × Item σ φ)
  | .table entries _ => find name entries
  | _ => none

inductive Kind
  | value
  | table
  | array_of_tables
deriving DecidableEq

def Item.kind : Item σ φ → Kind
  | .value _ => .value
  | .table _ _ => .table
  | .array_of_tables _ _ => .array_of_tables

def Document.root (d : Document σ φ) : Item σ φ := .table d.entries d.format

/-! ## Values without their layout -/

inductive Plain (σ : Type)
  | integer (n : Int)
  | inline_table (entries : List (String × Plain σ))
  | other (value : σ)

mutual

def Value.plain : Value σ φ → Plain σ
  | .integer n _ _ => .integer n
  | .inline_table entries _ _ => .inline_table (plain_entries entries)
  | .other value _ _ => .other value

def plain_entries : List (Key φ × Value σ φ) → List (String × Plain σ)
  | [] => []
  | (k, v) :: entries => (k.name, v.plain) :: plain_entries entries

end

/-- The comments in a text around something: its lines that are not blank. -/
def remarks (raw : Option Text) : List Text := content (raw.getD [])

def Decor.remarks (d : Decor) : List Text := Layout.remarks d.before ++ Layout.remarks d.after

/-- What a value under a key says: the value, and the comments of both. -/
structure Said (σ : Type) where
  value : Plain σ
  comments : List Text

def say (entry : Key φ × Value σ φ) : Said σ :=
  ⟨entry.2.plain, entry.1.leaf_decor.remarks ++ entry.2.decor.remarks⟩

def as_value : Key φ × Item σ φ → Option (Key φ × Value σ φ)
  | (k, .value v) => some (k, v)
  | _ => none

/-- The value under a name in the table that a path leads to, with its key. -/
def Item.value_at (item : Item σ φ) (path : List Step) (name : String) : Option (Key φ × Value σ φ) :=
  ((item.at path).bind (·.entry name)).bind as_value

def Item.said (item : Item σ φ) (path : List Step) (name : String) : Option (Said σ) :=
  (item.value_at path name).map say

/-! ## A change in one place -/

@[simp] theorem value_at_value {v : Value σ φ} {path : List Step} {name : String} :
    (Item.value v).value_at path name = none := by
  cases path <;> rfl

section Places

variable {name t : String} {path : List Step} {entries entries' : Entries σ φ} {format format' : φ}

@[simp] theorem value_at_nil :
    (Item.table entries format).value_at [] name = (find name entries).bind as_value := rfl

@[simp] theorem value_at_key : (Item.table entries format).value_at (.key t :: path) name =
    (find t entries).bind fun e => e.2.value_at path name := by
  unfold Item.value_at
  rw [Item.at, Item.child]
  cases find t entries <;> rfl

@[simp] theorem value_at_empty :
    (Item.table ([] : Entries σ φ) format).value_at path name = none := by
  rcases path with _ | ⟨_ | _, path⟩ <;> rfl

/-- Tables that differ at most in the values under some names. -/
structure Beside (names : String → Prop) (entries entries' : Entries σ φ) : Prop where
  same : ∀ name, ¬ names name → find name entries' = find name entries
  flat : ∀ name, names name → ∀ e, find name entries = some e → ∃ v, e.2 = .value v
  flat' : ∀ name, names name → ∀ e, find name entries' = some e → ∃ v, e.2 = .value v

theorem value_at_flat (h : ∀ e, find t entries = some e → ∃ v, e.2 = .value v) :
    ((find t entries).bind fun e => e.2.value_at path name) = none := by
  cases he : find t entries with
  | none => rfl
  | some e =>
    obtain ⟨v, hv⟩ := h e he
    simp [hv]

theorem Beside.value_at {names : String → Prop} (h : Beside names entries entries')
    (hne : path = [] → ¬ names name) : (Item.table entries' format').value_at path name =
      (Item.table entries format).value_at path name := by
  match path with
  | [] => rw [value_at_nil, value_at_nil, h.same name (hne rfl)]
  | .index n :: path => rfl
  | .key t :: path =>
    rw [value_at_key, value_at_key]
    by_cases ht : names t
    · rw [value_at_flat (h.flat t ht), value_at_flat (h.flat' t ht)]
    · rw [h.same t ht]

/-- A table inside a table, changed in its place. -/
def replace_table (t : String) (entries' : Entries σ φ) (format : φ) (entries : Entries σ φ) :
    Entries σ φ :=
  update t (fun e => (e.1, .table entries' format)) entries

theorem find_replace_table : find name (replace_table t entries' format' entries) =
    if name = t then (find name entries).map fun e => (e.1, .table entries' format')
    else find name entries :=
  find_update fun _ => rfl

theorem find_replace_table_self {k : Key φ} {ts ts' : Entries σ φ} {f : φ}
    (ht : find t entries = some (k, .table ts f)) :
    find t (replace_table t ts' f entries) = some (k, .table ts' f) := by
  rw [find_replace_table, if_pos rfl, ht, Option.map_some]

/-- When a table inside a table is changed under some names, the values elsewhere stay. -/
theorem value_at_replace_table {k : Key φ} {ts ts' : Entries σ φ} {f : φ}
    {names : String → Prop} (ht : find t entries = some (k, .table ts f))
    (h : Beside names ts ts') (hne : path = [.key t] → ¬ names name) :
    (Item.table (replace_table t ts' f entries) format).value_at path name =
      (Item.table entries format).value_at path name := by
  match path with
  | [] =>
    rw [value_at_nil, value_at_nil]
    by_cases hname : name = t
    · rw [hname, find_replace_table_self ht, ht]
      rfl
    · rw [find_replace_table, if_neg hname]
  | .index n :: path => rfl
  | .key u :: path =>
    rw [value_at_key, value_at_key]
    by_cases hu : u = t
    · rw [hu, find_replace_table_self ht, ht]
      exact h.value_at fun hpath => hne (by rw [hpath, hu])
    · rw [find_replace_table, if_neg hu]

theorem value_at_append_empty {k : Key φ} (h : find k.name entries = none) :
    (Item.table (entries ++ [(k, .table [] format')]) format).value_at path name =
      (Item.table entries format).value_at path name := by
  match path with
  | [] =>
    rw [value_at_nil, value_at_nil, find_append]
    by_cases hname : k.name = name
    · rw [if_pos hname, ← hname, h]
      rfl
    · rw [if_neg hname, Option.or_none]
  | .index n :: path => rfl
  | .key u :: path =>
    rw [value_at_key, value_at_key, find_append]
    by_cases hu : k.name = u
    · rw [if_pos hu, ← hu, h]
      simp
    · rw [if_neg hu, Option.or_none]

end Places

end Fridica.Layout
