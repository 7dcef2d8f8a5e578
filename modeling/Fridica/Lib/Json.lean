import Mathlib.Data.Rat.Defs
import Mathlib.Data.String.Basic

/-! # JSON values -/

namespace Fridica.Json

inductive Number
  | unsigned (n : Nat)
  | signed (n : Int)
  | float (q : ℚ)
deriving DecidableEq

def Number.value : Number → ℚ
  | .unsigned n => n
  | .signed n => n
  | .float q => q

inductive Value
  | null
  | bool (b : Bool)
  | number (n : Number)
  | string (s : String)
  | array (items : List Value)
  | object (fields : List (String × Value))

namespace Value

/-- The field of an object, and null of anything else. -/
def field (key : String) : Value → Value
  | .object fields => (fields.lookup key).getD .null
  | _ => .null

def is_object : Value → Bool
  | .object _ => true
  | _ => false

def as_array : Value → Option (List Value)
  | .array items => some items
  | _ => none

def as_str : Value → Option String
  | .string s => some s
  | _ => none

def as_u64 : Value → Option Nat
  | .number (.unsigned n) => some n
  | _ => none

/-- The number it is, however it is written. -/
def as_number : Value → Option ℚ
  | .number n => some n.value
  | _ => none

/-- A signed integer of 64 bits. -/
def as_i64 : Value → Option Int64
  | .number (.unsigned n) => if n < 9223372036854775808 then some (Int64.ofInt n) else none
  | .number (.signed n) =>
    if -9223372036854775808 ≤ n ∧ n < 9223372036854775808 then some (Int64.ofInt n) else none
  | _ => none

def is_null : Value → Bool
  | .null => true
  | _ => false

def as_bool : Value → Option Bool
  | .bool b => some b
  | _ => none

/-- The field of an object, if it has one under this key. -/
def get (key : String) : Value → Option Value
  | .object fields => fields.lookup key
  | _ => none

/-- A map keeps its keys in order. -/
def insert (key : String) (value : Value) : List (String × Value) → List (String × Value)
  | [] => [(key, value)]
  | (k, v) :: fields =>
    if key < k then (key, value) :: (k, v) :: fields
    else if key = k then (key, value) :: fields
    else (k, v) :: insert key value fields

/-- `extend` of a map: what is there under a key is replaced. -/
def extend (fields more : List (String × Value)) : List (String × Value) :=
  more.foldl (fun fields kv => insert kv.1 kv.2 fields) fields

def of_fields (fields : List (String × Value)) : Value := .object (extend [] fields)

def int (n : Int) : Value :=
  .number (if 0 ≤ n then .unsigned n.toNat else .signed n)

def optional : Option String → Value
  | some s => .string s
  | none => .null

theorem lookup_insert (key : String) (value : Value) (fields : List (String × Value)) :
    (insert key value fields).lookup key = some value := by
  induction fields with
  | nil => simp [insert]
  | cons field fields ih =>
    obtain ⟨k, v⟩ := field
    unfold insert
    split_ifs with hlt heq
    · simp
    · simp
    · rw [List.lookup_cons, beq_eq_false_iff_ne.mpr heq, ih]

theorem lookup_insert_ne {key k : String} (h : k ≠ key) (value : Value)
    (fields : List (String × Value)) : (insert key value fields).lookup k = fields.lookup k := by
  induction fields with
  | nil => simp [insert, h]
  | cons field fields ih =>
    obtain ⟨k', v'⟩ := field
    unfold insert
    split_ifs with hlt heq
    · rw [List.lookup_cons, beq_eq_false_iff_ne.mpr h]
    · rw [List.lookup_cons, List.lookup_cons, ← heq, beq_eq_false_iff_ne.mpr h]
    · rw [List.lookup_cons, List.lookup_cons, ih]

theorem mem_insert {key : String} {value : Value} {fields : List (String × Value)}
    {kv : String × Value} (h : kv ∈ insert key value fields) : kv = (key, value) ∨ kv ∈ fields := by
  induction fields with
  | nil => exact .inl (List.mem_singleton.mp h)
  | cons field fields ih =>
    obtain ⟨k, v⟩ := field
    unfold insert at h
    split_ifs at h
    · exact List.mem_cons.mp h
    · exact (List.mem_cons.mp h).imp_right (List.mem_cons_of_mem _)
    · rcases List.mem_cons.mp h with rfl | h
      · exact .inr List.mem_cons_self
      · exact (ih h).imp_right (List.mem_cons_of_mem _)

theorem lookup_extend (fields more : List (String × Value)) (key : String) :
    (extend fields more).lookup key = (more.reverse.lookup key).or (fields.lookup key) := by
  unfold extend
  induction more generalizing fields with
  | nil => rfl
  | cons kv more ih =>
    rw [List.foldl_cons, ih, List.reverse_cons, List.lookup_append, Option.or_assoc]
    obtain ⟨k, v⟩ := kv
    congr 1
    by_cases h : key = k
    · rw [h, lookup_insert, List.lookup_cons, beq_self_eq_true]
      rfl
    · rw [lookup_insert_ne h, List.lookup_cons, beq_eq_false_iff_ne.mpr h]
      rfl

section Fields

variable {α β : Type} {key k : String}

theorem lookup_ne {a : α} {fields : List (String × α)} (h : key ≠ k) :
    ((k, a) :: fields).lookup key = fields.lookup key := by
  rw [List.lookup_cons, beq_eq_false_iff_ne.mpr h]

theorem lookup_map (f : α → β) (fields : List (String × α)) :
    (fields.map fun kv => (kv.1, f kv.2)).lookup key = (fields.lookup key).map f := by
  induction fields with
  | nil => rfl
  | cons kv fields ih =>
    obtain ⟨k, a⟩ := kv
    rw [List.map_cons]
    by_cases h : key = k
    · rw [h, List.lookup_cons_self, List.lookup_cons_self, Option.map_some]
    · rw [lookup_ne h, lookup_ne h, ih]

theorem lookup_reverse {fields : List (String × α)} (h : (fields.map (·.1)).Nodup) :
    fields.reverse.lookup key = fields.lookup key := by
  induction fields with
  | nil => rfl
  | cons kv fields ih =>
    obtain ⟨k, a⟩ := kv
    rw [List.map_cons, List.nodup_cons] at h
    rw [List.reverse_cons, List.lookup_append, ih h.2]
    by_cases hk : key = k
    · have hnone : fields.lookup key = none := by
        rw [List.lookup_eq_none_iff]
        intro kv hkv
        refine bne_iff_ne.mpr fun heq => h.1 ?_
        rw [← hk, heq]
        exact List.mem_map.mpr ⟨kv, hkv, rfl⟩
      rw [hnone, hk, List.lookup_cons_self, List.lookup_cons_self, Option.none_or]
    · rw [lookup_ne hk, lookup_ne hk, List.lookup_nil, Option.or_none]

end Fields

theorem field_of_fields (fields : List (String × Value)) (key : String) :
    (of_fields fields).field key = (fields.reverse.lookup key).getD .null := by
  have h := lookup_extend [] fields key
  rw [List.lookup_nil, Option.or_none] at h
  exact congrArg (·.getD null) h

theorem field_of_nodup {fields : List (String × Value)} (h : (fields.map (·.1)).Nodup)
    (key : String) : (of_fields fields).field key = (fields.lookup key).getD .null := by
  rw [field_of_fields, lookup_reverse h]

theorem as_number_of_u64 {v : Value} {n : Nat} (h : v.as_u64 = some n) :
    v.as_number = some (n : ℚ) := by
  unfold as_u64 at h
  split at h
  next m =>
    obtain rfl := Option.some_inj.mp h
    rfl
  next => cases h

theorem as_i64_int (n : Int64) : (int n.toInt).as_i64 = some n := by
  have hlow := n.le_toInt
  have hhigh := n.toInt_lt
  unfold int
  split
  next h =>
    have hnat : n.toInt.toNat < 9223372036854775808 := by omega
    rw [as_i64, if_pos hnat, Int.toNat_of_nonneg h, Int64.ofInt_toInt]
  next => rw [as_i64, if_pos ⟨hlow, hhigh⟩, Int64.ofInt_toInt]

/-! ### Strings in a value -/

/-- A string found in a value, at any depth. -/
inductive Within (s : String) : Value → Prop
  | string : Within s (.string s)
  | item {items : List Value} {v : Value} (hv : v ∈ items) (h : Within s v) : Within s (.array items)
  | field {fields : List (String × Value)} {kv : String × Value} (hkv : kv ∈ fields)
      (h : Within s kv.2) : Within s (.object fields)

section Within

variable {s t : String}

@[simp] theorem not_within_null : ¬ Within s .null := fun h => nomatch h

@[simp] theorem within_string : Within s (.string t) ↔ s = t := by
  constructor
  · rintro ⟨⟩
    rfl
  · rintro rfl
    exact .string

@[simp] theorem within_object {fields : List (String × Value)} :
    Within s (.object fields) ↔ ∃ kv ∈ fields, Within s kv.2 := by
  constructor
  · rintro ⟨⟩
    exact ⟨_, ‹_›, ‹_›⟩
  · rintro ⟨kv, hkv, h⟩
    exact .field hkv h

theorem Within.of_field {key : String} {v : Value} (h : Within s (v.field key)) : Within s v := by
  cases v with
  | object fields =>
    unfold Value.field at h
    cases hlookup : fields.lookup key with
    | none => simp [hlookup] at h
    | some v =>
      simp only [hlookup, Option.getD_some] at h
      obtain ⟨before, after, rfl, -⟩ := List.lookup_eq_some_iff.mp hlookup
      exact @Within.field s _ (key, v) (by simp) h
  | _ => simp [Value.field] at h

theorem Within.of_str {v : Value} (h : v.as_str = some s) : Within s v := by
  cases v with
  | string t =>
    obtain rfl := Option.some.inj h
    exact .string
  | _ => cases h

end Within

end Value

end Fridica.Json
