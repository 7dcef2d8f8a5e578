import Fridica.Config.Loader.Spec
import Fridica.Lib.Text
import Fridica.Lib.Utf8

/-!
# Remote workspaces that can be launched

`remote_path` of `config/isolation.rs`, which a launch checks the workspace with. The loader has a
`remote_path` of its own, which writes the path anew.
-/

namespace Fridica.Config.Isolation

open Fridica.Path Fridica.Loader

/-- The path below a home, where the value stands for one. -/
def expanded (value : Text) : Text :=
  if text "~/" <+: value then text "/remote-home/" ++ value.drop 2 else value

def remote_path (value : Text) : Bool :=
  is_absolute (expanded value) &&
  -- Paths are compared by their components.
  components (expanded value) ≠ [] &&
  value.getLast? ≠ some '/' &&
  Utf8.len value ≤ 4096 &&
  !value.any Text.is_control &&
  !(split value).any fun part => part = ['.'] ∨ part = ['.', '.']

/-! ## What fits -/

/-- The parts that are kept of a path. -/
def kept (s : Text) : List Text := (split s).filter fun part => part ≠ [] ∧ part ≠ ['.']

/-- How a path begins: at a root, at a root of two slashes, or at a home. -/
inductive Root
  | one
  | two
  | home
deriving DecidableEq

def root (s : Text) : Root :=
  if text "//" <+: s ∧ ¬ text "///" <+: s then .two else if text "/" <+: s then .one else .home

/-- The bytes of a root besides one slash before each part. -/
def Root.limit : Root → Nat
  | .one => 4096
  | .two => 4095
  | .home => 4097

/-- No control character, and no more parts than a launch takes, with one slash before each. -/
structure Fits (s : Text) : Prop where
  printable : ∀ c ∈ s, Text.is_control c = false
  short : ((kept s).map fun part => Utf8.len part + 1).sum ≤ (root s).limit

end Fridica.Config.Isolation
