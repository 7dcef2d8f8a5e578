import Fridica.Lib.Shell
import Mathlib

/-!
# The scripts for a remote host

Quoting (`exec/shell.rs`), the words of the sandbox (`exec/sandbox.rs`) and the script that is handed
to SSH (`remote_script_with_confinement` of `exec/ssh.rs`).
-/

namespace Fridica.Exec

open Fridica.Shell

/-! ## Quoting -/

def safe (c : Char) : Bool :=
  c.isAlphanum || c ∈ ['_', '@', '%', '+', '=', ':', ',', '.', '/', '-']

def replace (word : Text) : Text :=
  word.flatMap fun c => if c = '\'' then ['\'', '"', '\'', '"', '\''] else [c]

def quote (word : Text) : Text :=
  if word ≠ [] ∧ word.all safe then word else '\'' :: replace word ++ ['\'']

/-- The parts with the separator between them. -/
def separated (separator : Text) (parts : List Text) : Text := List.intercalate separator parts

def join (words : List Text) : Text := separated [' '] (words.map quote)

/-- `strip_prefix` with "~/". -/
def strip_home : Text → Option Text
  | '~' :: '/' :: tail => some tail
  | _ => none

def path (word : Text) : Text :=
  match strip_home word with
  | some tail => "\"$HOME\"/".toList ++ quote tail
  | none => quote word

def env_name (name : Text) : Bool :=
  match name with
  | [] => false
  | c :: cs => (c.isAlpha || c = '_') && cs.all fun c => c.isAlphanum || c = '_'

/-- The terminator that no argument can hold. -/
def nul : Char := Char.ofNat 0

def validate (words : List Text) : Except String Unit :=
  if words = [] ∨ words.head? = some [] ∨ words.any (nul ∈ ·) then
    .error "invalid command arguments"
  else .ok ()

/-! ## The sandbox -/

def STATE : List String := [".codex", ".claude", ".claude.json"]

def SETTINGS : List String :=
  [".codex/config.toml", ".claude/settings.json", ".claude/settings.local.json", ".claude/hooks"]

def DEFAULTS : List (String × String) :=
  [(".claude/settings.json", "\x7b\x7d"), (".claude/settings.local.json", "\x7b\x7d"),
    (".codex/config.toml", "")]

def BWRAP : List String :=
  ["bwrap", "--die-with-parent", "--unshare-user", "--unshare-pid", "--ro-bind", "/", "/",
    "--dev-bind", "/dev", "/dev", "--proc", "/proc", "--tmpfs", "/tmp"]

def under_home (tail : Text) : Text := "$HOME/".toList ++ tail

def root_path (root : Text) : Text :=
  match strip_home root with
  | some tail => under_home tail
  | none => root

/-- A root is absolute or under the home directory. -/
def valid_root (root : Text) : Bool :=
  !(nul ∈ root) && (root.head? = some '/' || (strip_home root).isSome)

/-- `confinement` where the shell knows the home directory. -/
def confinement (roots : List Text) : Except String (List Text) :=
  if roots.all valid_root then
    .ok (BWRAP.map String.toList ++
      roots.flatMap (fun root => ["--bind".toList, root_path root, root_path root]) ++
      STATE.flatMap (fun name =>
        ["--bind-try".toList, under_home name.toList, under_home name.toList]) ++
      SETTINGS.flatMap (fun name =>
        ["--ro-bind-try".toList, under_home name.toList, under_home name.toList]) ++
      ["--".toList])
  else .error "invalid confinement root"

/-- `strip_prefix` with "$HOME/". -/
def strip_variable : Text → Option Text
  | '$' :: 'H' :: 'O' :: 'M' :: 'E' :: '/' :: tail => some tail
  | _ => none

def shell_word (w : Text) : Text :=
  match strip_variable w with
  | some tail => "\"$HOME/\"".toList ++ quote tail
  | none => quote w

def shell_words (words : List Text) : Text := separated [' '] (words.map shell_word)

def prepare_script : Text :=
  separated "; ".toList
    ("mkdir -p \"$HOME/.claude/hooks\" \"$HOME/.codex\"".toList ::
      DEFAULTS.map fun (name, body) =>
        "[ -e \"$HOME/".toList ++ name.toList ++
          "\" ] || (umask 077; set -C; printf %s ".toList ++ quote body.toList ++
          " > \"$HOME/".toList ++ name.toList ++ "\")".toList)

/-! ## The script -/

def watchdog (agent : Text) : List Text :=
  ["umask 077".toList,
    "FRIDICA_DIR=$(mktemp -d \"$\x7bTMPDIR:-/tmp\x7d/fridica.XXXXXXXX\") || exit 97".toList,
    "FRIDICA_IN=\"$FRIDICA_DIR/in\"; FRIDICA_AGENT=; FRIDICA_FEED=".toList,
    "fridica_stop() \x7b if [ -n \"$FRIDICA_AGENT\" ]; then ".toList ++
      "kill -TERM -\"$FRIDICA_AGENT\" 2>/dev/null || ".toList ++
      "kill -TERM \"$FRIDICA_AGENT\" 2>/dev/null || :; sleep 1; ".toList ++
      "kill -KILL -\"$FRIDICA_AGENT\" 2>/dev/null || ".toList ++
      "kill -KILL \"$FRIDICA_AGENT\" 2>/dev/null || :; fi; \x7d".toList,
    "fridica_clean() \x7b if [ -n \"$FRIDICA_FEED\" ]; then ".toList ++
      "kill \"$FRIDICA_FEED\" 2>/dev/null || :; ".toList ++
      "wait \"$FRIDICA_FEED\" 2>/dev/null || :; fi; ".toList ++
      "rm -f \"$FRIDICA_IN\"; rmdir \"$FRIDICA_DIR\"; \x7d".toList,
    "trap 'fridica_clean' EXIT".toList,
    "trap 'fridica_stop; exit 143' TERM INT HUP".toList,
    "mkfifo -m 600 \"$FRIDICA_IN\" || exit 97".toList,
    "if command -v setsid >/dev/null 2>&1; then setsid ".toList ++ agent ++
      " < \"$FRIDICA_IN\" & else ".toList ++ agent ++
      " < \"$FRIDICA_IN\" & fi; FRIDICA_AGENT=$!".toList,
    "exec 3<&0; cat <&3 > \"$FRIDICA_IN\" & FRIDICA_FEED=$!; exec 3<&-".toList,
    "while kill -0 \"$FRIDICA_AGENT\" 2>/dev/null && ".toList ++
      "kill -0 \"$FRIDICA_FEED\" 2>/dev/null; do sleep 1; done".toList,
    "if kill -0 \"$FRIDICA_AGENT\" 2>/dev/null; then fridica_stop; fi".toList,
    "wait \"$FRIDICA_AGENT\"; FRIDICA_STATUS=$?".toList,
    "kill -KILL -\"$FRIDICA_AGENT\" 2>/dev/null || :".toList,
    "exit \"$FRIDICA_STATUS\"".toList]

def deadline (seconds : Nat) (agent : Text) : Text :=
  "if command -v timeout >/dev/null 2>&1; then exec timeout -k 5 ".toList ++
    Nat.toDigits 10 seconds ++ [' '] ++ agent ++ "; else exec ".toList ++ agent ++ "; fi".toList

def SECONDS : Nat := 2 ^ 64

def agent_lines (timeout : Option Nat) (agent : Text) : Except String (List Text) :=
  match timeout with
  | some timeout =>
    if timeout + 5 < SECONDS then .ok [deadline (max (timeout + 5) 1) agent]
    else .error "remote deadline too large"
  | none => .ok (watchdog agent)

def export_line (v : Text × Text) : Text := "export ".toList ++ v.1 ++ ['='] ++ quote v.2

def or_exit : Text := " || exit 98".toList

/-- The line that prepares the sandbox, and the words that run it. -/
def sandbox : Option (List Text) → Except String (List Text × List Text)
  | some roots => (confinement roots).map ([prepare_script], ·)
  | none => .ok ([], [])

def script_lines (command : List Text) (cwd : Text) (env : List (Text × Text))
    (timeout : Option Nat) (create : Bool) (roots : Option (List Text)) :
    Except String (List Text) := do
  validate command
  if nul ∈ cwd ∨ cwd = [] ∨ env.any fun (k, v) => !env_name k || decide (nul ∈ v) then
    .error "invalid remote path or environment"
  else do
    let (prepare, argv) ← sandbox roots
    let front := shell_words argv
    let agent := if front = [] then join command else front ++ [' '] ++ join command
    let lines ← agent_lines timeout agent
    return ["set -u".toList] ++ env.map export_line ++ prepare ++
      (if create then ["mkdir -p -- ".toList ++ path cwd ++ or_exit] else []) ++
      ["cd ".toList ++ path cwd ++ or_exit] ++ lines

def remote_script_with_confinement (command : List Text) (cwd : Text) (env : List (Text × Text))
    (timeout : Option Nat) (create : Bool) (roots : Option (List Text)) : Except String Text :=
  (script_lines command cwd env timeout create roots).map fun lines =>
    "exec sh -c ".toList ++ quote (separated "; ".toList lines)

end Fridica.Exec
