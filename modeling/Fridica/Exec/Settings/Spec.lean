import Mathlib.Data.String.Basic

/-!
# Settings without servers

`visit` of `exec/isolation_settings.py` walks a settings document and disables the MCP servers in it.
`settings_snapshots` does so with every layer. The layers come to it read and parsed.
-/

namespace Fridica.Exec.Settings

structure Refused : Type
deriving DecidableEq

/-- A parsed document. `σ` holds the scalars that are neither text nor a truth value. -/
inductive Document (σ : Type)
  | text (s : String)
  | bool (b : Bool)
  | scalar (a : σ)
  | list (items : List (Document σ))
  | dict (entries : List (String × Document σ))

variable {σ : Type}

namespace Document

def is_text : Document σ → Bool
  | .text _ => true
  | _ => false

def is_list : Document σ → Bool
  | .list _ => true
  | _ => false

end Document

def DEPTH : Nat := 64

def ALIAS_LENGTH : Nat := 1024

def ALIASES : Nat := 128

def holds_servers (key : String) : Bool := key = "mcp_servers" || key = "mcpServers"

/-- What a server is replaced by. -/
def stub : Document σ := .dict [("command", .text "/bin/false"), ("enabled", .bool false)]

def invalid_alias (name : String) : Bool :=
  name = "" || name.length > ALIAS_LENGTH ||
    name.toList.any fun c => c.toNat < 32 || c.toNat = 127

/-- Every server, whatever it points at: a worker gets no MCP at all. -/
def recognized (server : List (String × Document σ)) : Except Refused Bool :=
  let command := (server.lookup "command").getD (.text "")
  let args := (server.lookup "args").getD (.list [])
  if !command.is_text || !args.is_list then .error ⟨⟩ else .ok true

def add (name : String) (aliases : List String) : List String :=
  if name ∈ aliases then aliases else aliases ++ [name]

/-- The loop over the servers of one map. -/
def visit_servers (clean : Bool) (key : String) :
    List (String × Document σ) → List String →
      Except Refused (List (String × Document σ) × List String)
  | [], aliases => .ok ([], aliases)
  | (name, server) :: rest, aliases =>
    match server with
    | .dict fields =>
      if invalid_alias name then .error ⟨⟩
      else do
        let found ← recognized fields
        let aliases := if found then add name aliases else aliases
        let (rest, aliases) ← visit_servers clean key rest aliases
        let kept :=
          if found && clean then if key = "mcp_servers" then [(name, stub)] else []
          else [(name, .dict fields)]
        return (kept ++ rest, aliases)
    | _ => .error ⟨⟩

mutual

/-- The document after the walk, and the aliases so far. -/
def visit (clean : Bool) (depth : Nat) : Document σ → List String →
    Except Refused (Document σ × List String)
  | .list items, aliases =>
    if depth > DEPTH then .error ⟨⟩
    else do
      let (items, aliases) ← visit_items clean (depth + 1) items aliases
      return (.list items, aliases)
  | .dict entries, aliases =>
    if depth > DEPTH then .error ⟨⟩
    else do
      let (entries, aliases) ← visit_entries clean (depth + 1) entries aliases
      return (.dict entries, aliases)
  | value, aliases => if depth > DEPTH then .error ⟨⟩ else .ok (value, aliases)

def visit_items (clean : Bool) (depth : Nat) : List (Document σ) → List String →
    Except Refused (List (Document σ) × List String)
  | [], aliases => .ok ([], aliases)
  | child :: rest, aliases => do
    let (child, aliases) ← visit clean depth child aliases
    let (rest, aliases) ← visit_items clean depth rest aliases
    return (child :: rest, aliases)

def visit_entries (clean : Bool) (depth : Nat) : List (String × Document σ) → List String →
    Except Refused (List (String × Document σ) × List String)
  | [], aliases => .ok ([], aliases)
  | (key, child) :: rest, aliases =>
    if holds_servers key then
      match child with
      | .dict servers => do
        let (servers, aliases) ← visit_servers clean key servers aliases
        let (rest, aliases) ← visit_entries clean depth rest aliases
        return ((key, .dict servers) :: rest, aliases)
      | _ => .error ⟨⟩
    else do
      let (child, aliases) ← visit clean depth child aliases
      let (rest, aliases) ← visit_entries clean depth rest aliases
      return ((key, child) :: rest, aliases)

end

abbrev Layer (σ : Type) := String × Document σ

/-- Discover identities across every layer before removing their credentials. -/
def discover : List (Layer σ) → List String → Except Refused (List String)
  | [], aliases => .ok aliases
  | (_, document) :: layers, aliases => do
    let (_, aliases) ← visit false 0 document aliases
    discover layers aliases

/-- Clean every layer, and write it by `render`, which refuses what it cannot write. -/
def clean {δ : Type} (render : String → Document σ → Except Refused δ) :
    List (Layer σ) → List String → Except Refused (List (String × δ) × List String)
  | [], aliases => .ok ([], aliases)
  | (name, document) :: layers, aliases => do
    let (document, aliases) ← visit true 0 document aliases
    let data ← render name document
    let (snapshots, aliases) ← clean render layers aliases
    return ((name, data) :: snapshots, aliases)

def settings_snapshots {δ : Type} (codex_only : Bool)
    (render : String → Document σ → Except Refused δ) (layers : List (Layer σ)) :
    Except Refused (List (String × δ) × List String) := do
  let aliases ← discover layers []
  if aliases.length > ALIASES then .error ⟨⟩
  else if codex_only then return ([], aliases.mergeSort)
  else do
    let (snapshots, aliases) ← clean render layers aliases
    return (snapshots, aliases.mergeSort)

end Fridica.Exec.Settings
