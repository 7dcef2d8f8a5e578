import Mathlib.Data.List.Basic

/-!
# How a shell reads its words

Token recognition and quoting of the POSIX shell language: blanks and operators end a word, a quoted
character is of the word. A word is then expanded. The expansions here are those of parameters in
double quotes, and a word with another one in it has no text.
-/

namespace Fridica.Shell

abbrev Text := List Char

inductive Quoting
  | none
  | escaped
  | single
  | double
deriving DecidableEq

/-- A character of a word, with how it is quoted. -/
abbrev Piece := Char × Quoting

inductive Token
  | word (pieces : List Piece)
  | operator (c : Char)
deriving DecidableEq

inductive Mode
  | plain
  | escape
  | single
  | double
  | double_escape
  | comment
deriving DecidableEq

structure Reader where
  mode : Mode
  word : Option (List Piece)
  tokens : List Token

def blank (c : Char) : Bool := c = ' ' || c = '\t'

def operator (c : Char) : Bool :=
  c = ';' || c = '&' || c = '|' || c = '<' || c = '>' || c = '(' || c = ')' || c = '\n'

namespace Reader

def start : Reader := ⟨.plain, none, []⟩

def flush (r : Reader) : Reader :=
  match r.word with
  | some pieces => ⟨r.mode, none, r.tokens ++ [.word pieces]⟩
  | none => r

def open_word (r : Reader) (mode : Mode) : Reader := ⟨mode, some (r.word.getD []), r.tokens⟩

def push (r : Reader) (mode : Mode) (pieces : List Piece) : Reader :=
  ⟨mode, some (r.word.getD [] ++ pieces), r.tokens⟩

def emit (r : Reader) (c : Char) : Reader :=
  ⟨.plain, r.flush.word, r.flush.tokens ++ [.operator c]⟩

def step (r : Reader) (c : Char) : Reader :=
  match r.mode with
  | .plain =>
    if blank c then r.flush
    else if operator c then r.emit c
    else if c = '\'' then r.open_word .single
    else if c = '"' then r.open_word .double
    else if c = '\\' then { r with mode := .escape }
    else if c = '#' && r.word.isNone then { r with mode := .comment }
    else r.push .plain [(c, .none)]
  | .escape => if c = '\n' then { r with mode := .plain } else r.push .plain [(c, .escaped)]
  | .single => if c = '\'' then { r with mode := .plain } else r.push .single [(c, .single)]
  | .double =>
    if c = '"' then { r with mode := .plain }
    else if c = '\\' then { r with mode := .double_escape }
    else r.push .double [(c, .double)]
  | .double_escape =>
    if c = '\n' then { r with mode := .double }
    else if c = '$' ∨ c = '`' ∨ c = '"' ∨ c = '\\' then r.push .double [(c, .escaped)]
    else r.push .double [('\\', .double), (c, .double)]
  | .comment => if c = '\n' then r.emit c else r

def run (r : Reader) (text : Text) : Reader := text.foldl step r

end Reader

def read (text : Text) : List Token := (Reader.start.run text).flush.tokens

def Closed (text : Text) : Prop := (Reader.start.run text).mode = .plain

/-- The mode of the reader, and whether it is in a word. -/
def scan (s : Mode × Bool) (c : Char) : Mode × Bool :=
  match s.1 with
  | .plain =>
    if blank c || operator c then (.plain, false)
    else if c = '\'' then (.single, true)
    else if c = '"' then (.double, true)
    else if c = '\\' then (.escape, s.2)
    else if c = '#' && !s.2 then (.comment, false)
    else (.plain, true)
  | .escape => (.plain, if c = '\n' then s.2 else true)
  | .single => if c = '\'' then (.plain, s.2) else (.single, true)
  | .double =>
    if c = '"' then (.plain, s.2) else if c = '\\' then (.double_escape, s.2) else (.double, true)
  | .double_escape => (.double, if c = '\n' then s.2 else true)
  | .comment => if c = '\n' then (.plain, false) else (.comment, s.2)

theorem scan_step (r : Reader) (c : Char) :
    ((r.step c).mode, (r.step c).word.isSome) = scan (r.mode, r.word.isSome) c := by
  obtain ⟨mode, word, tokens⟩ := r
  cases mode with
  | plain =>
    unfold Reader.step scan Reader.emit Reader.flush
    cases word <;> grind [Reader.open_word, Reader.push]
  | comment =>
    unfold Reader.step scan Reader.emit Reader.flush
    cases word <;> grind
  | escape | single | double | double_escape =>
    unfold Reader.step scan
    grind [Reader.push]

theorem scan_run (r : Reader) (text : Text) :
    ((r.run text).mode, (r.run text).word.isSome) =
      text.foldl scan (r.mode, r.word.isSome) := by
  induction text generalizing r with
  | nil => rfl
  | cons c text ih => exact (ih (r.step c)).trans (by rw [scan_step, List.foldl_cons])

instance (text : Text) : Decidable (Closed text) :=
  decidable_of_iff ((text.foldl scan (.plain, false)).1 = .plain) (by
    have hrun := congrArg Prod.fst (scan_run Reader.start text)
    exact ⟨fun h => hrun.trans h, fun h => hrun.symm.trans h⟩)

/-! ## Expansion -/

/-- An expansion may begin here. -/
def live (p : Piece) : Bool :=
  match p.2 with
  | .none => p.1 ∈ ['$', '`', '~', '*', '?', '[']
  | .double => p.1 ∈ ['$', '`']
  | _ => false

def name_char (c : Char) : Bool := c.isAlphanum || c = '_'

/-- `name` is the part read so far of a parameter's name. -/
def expand (vars : Text → Text) : Option Text → List Piece → Option Text
  | none, [] => some []
  | some name, [] => if name = [] then none else some (vars name)
  | none, p :: rest =>
    if p = ('$', .double) then expand vars (some []) rest
    else if live p then none
    else (expand vars none rest).map (p.1 :: ·)
  | some name, p :: rest =>
    if p.2 = .double ∧ name_char p.1 = true then expand vars (some (name ++ [p.1])) rest
    else if name = [] then none
    else if p = ('$', .double) then (expand vars (some []) rest).map (vars name ++ ·)
    else if live p then none
    else (expand vars none rest).map (vars name ++ p.1 :: ·)

def Token.text (vars : Text → Text) : Token → Option Text
  | .word pieces => expand vars none pieces
  | .operator _ => none

/-- The tokens are these words. -/
def Words (vars : Text → Text) (tokens : List Token) (words : List Text) : Prop :=
  tokens.map (Token.text vars) = words.map some

variable {vars : Text → Text}

@[simp] theorem words_nil : Words vars [] [] := rfl

theorem Words.cons {t : Token} {ts : List Token} {w : Text} {ws : List Text}
    (h : t.text vars = some w) (hs : Words vars ts ws) : Words vars (t :: ts) (w :: ws) := by
  unfold Words at *
  rw [List.map_cons, List.map_cons, h, hs]

theorem Words.append {ts ts' : List Token} {ws ws' : List Text} (h : Words vars ts ws)
    (h' : Words vars ts' ws') : Words vars (ts ++ ts') (ws ++ ws') := by
  unfold Words at *
  rw [List.map_append, List.map_append, h, h']

theorem expand_still {pieces rest : List Piece} (h : ∀ p ∈ pieces, live p = false) :
    expand vars none (pieces ++ rest) = (expand vars none rest).map (pieces.map (·.1) ++ ·) := by
  induction pieces with
  | nil => simp
  | cons p pieces ih =>
    have hp : live p = false := h p (by simp)
    have hd : p ≠ ('$', .double) := by
      rintro rfl
      cases hp
    rw [List.cons_append, expand, if_neg hd, hp, ih fun q hq => h q (by simp [hq])]
    simp [Function.comp_def]

theorem expand_literal {pieces : List Piece} (h : ∀ p ∈ pieces, live p = false) :
    expand vars none pieces = some (pieces.map (·.1)) := by
  have hstill := @expand_still vars pieces [] h
  simpa [expand] using hstill

/-! ## Reading in parts -/

namespace Reader

theorem run_append (r : Reader) (text text' : Text) :
    r.run (text ++ text') = (r.run text).run text' := List.foldl_append

theorem run_cons (r : Reader) (c : Char) (text : Text) :
    r.run (c :: text) = (r.step c).run text := rfl

@[simp] theorem run_nil (r : Reader) : r.run [] = r := rfl

/-- What was read before only stands in front. -/
def before (ts : List Token) (r : Reader) : Reader := { r with tokens := ts ++ r.tokens }

theorem flush_before (ts : List Token) (r : Reader) :
    (r.before ts).flush = r.flush.before ts := by
  obtain ⟨mode, word, tokens⟩ := r
  cases word <;> simp [flush, before]

theorem step_before (ts : List Token) (r : Reader) (c : Char) :
    (r.before ts).step c = (r.step c).before ts := by
  have hemit : (r.before ts).emit c = (r.emit c).before ts := by
    unfold emit
    rw [flush_before]
    simp [before]
  have hflush := flush_before ts r
  obtain ⟨mode, word, tokens⟩ := r
  cases mode with
  | plain =>
    unfold step
    dsimp only [before] at hflush hemit ⊢
    rw [hflush, hemit]
    simp only [push, open_word]
    split_ifs <;> first | rfl | simp_all
  | comment =>
    unfold step
    dsimp only [before] at hemit ⊢
    rw [hemit]
    split_ifs <;> rfl
  | escape | single | double | double_escape =>
    unfold step
    dsimp only [before, push]
    split_ifs <;> rfl

theorem run_before (ts : List Token) (r : Reader) (text : Text) :
    (r.before ts).run text = (r.run text).before ts := by
  induction text generalizing r with
  | nil => rfl
  | cons c text ih => rw [run_cons, run_cons, step_before, ih]

end Reader

theorem Reader.step_separator {r : Reader} {c : Char} (h : r.mode = .plain)
    (hc : blank c = true ∨ operator c = true) : r.step c =
      Reader.start.before (r.flush.tokens ++ if blank c then [] else [.operator c]) := by
  obtain ⟨mode, word, tokens⟩ := r
  obtain rfl : mode = .plain := h
  unfold step emit
  by_cases hb : blank c = true
  · cases word <;> simp [hb, flush, before, start]
  · rw [if_neg hb, if_neg hb, if_pos (hc.resolve_left hb)]
    cases word <;> simp [flush, before, start]

theorem read_append_blank {text rest : Text} {c : Char} (h : Closed text) (hc : blank c = true) :
    read (text ++ c :: rest) = read text ++ read rest := by
  unfold read
  rw [Reader.run_append, Reader.run_cons, Reader.step_separator h (.inl hc), Reader.run_before,
    Reader.flush_before, if_pos hc, List.append_nil]
  rfl

theorem read_append_operator {text rest : Text} {c : Char} (h : Closed text)
    (hc : operator c = true) :
    read (text ++ c :: rest) = read text ++ .operator c :: read rest := by
  have hb : ¬ blank c = true := by
    unfold operator at hc
    unfold blank
    grind
  unfold read
  rw [Reader.run_append, Reader.run_cons, Reader.step_separator h (.inr hc), Reader.run_before,
    Reader.flush_before, if_neg hb]
  simp [Reader.before]

theorem Closed.append {text rest : Text} {c : Char} (h : Closed text)
    (hc : blank c = true ∨ operator c = true) (hr : Closed rest) : Closed (text ++ c :: rest) := by
  unfold Closed
  rw [Reader.run_append, Reader.run_cons, Reader.step_separator h hc, Reader.run_before]
  exact hr

/-! ## The text of a word -/

/-- Wherever it stands outside quotes, the text adds these pieces to the word. -/
def Spells (text : Text) (pieces : List Piece) : Prop :=
  ∀ w ts, (Reader.mk .plain w ts).run text = ⟨.plain, some (w.getD [] ++ pieces), ts⟩

theorem Spells.append {text text' : Text} {pieces pieces' : List Piece} (h : Spells text pieces)
    (h' : Spells text' pieces') : Spells (text ++ text') (pieces ++ pieces') := by
  intro w ts
  rw [Reader.run_append, h, h', Option.getD_some, List.append_assoc]

theorem Spells.read {text : Text} {pieces : List Piece} (h : Spells text pieces) :
    read text = [.word pieces] := by
  unfold Shell.read Reader.start
  rw [h]
  rfl

theorem Spells.words {text word : Text} {pieces : List Piece} (h : Spells text pieces)
    (hword : expand vars none pieces = some word) : Words vars (Shell.read text) [word] := by
  rw [h.read]
  exact Words.cons hword words_nil

theorem Spells.closed {text : Text} {pieces : List Piece} (h : Spells text pieces) :
    Closed text := by
  unfold Closed Reader.start
  rw [h]

/-- The character has no meaning of its own to the shell. -/
def ordinary (c : Char) : Bool :=
  !blank c && !operator c && !(c ∈ ['\'', '"', '\\', '#'])

theorem step_ordinary {c : Char} (h : ordinary c = true) (w : Option (List Piece))
    (ts : List Token) : (Reader.mk .plain w ts).step c =
      ⟨.plain, some (w.getD [] ++ [(c, .none)]), ts⟩ := by
  simp only [ordinary, Bool.and_eq_true, Bool.not_eq_true', decide_eq_false_iff_not,
    List.mem_cons, List.not_mem_nil, or_false, not_or] at h
  obtain ⟨⟨hb, ho⟩, h₁, h₂, h₃, h₄⟩ := h
  unfold Reader.step
  simp [hb, ho, h₁, h₂, h₃, h₄, Reader.push]

theorem run_ordinary {text : Text} (h : ∀ c ∈ text, ordinary c = true) (w : List Piece)
    (ts : List Token) : (Reader.mk .plain (some w) ts).run text =
      ⟨.plain, some (w ++ text.map (·, .none)), ts⟩ := by
  induction text generalizing w with
  | nil => simp
  | cons c text ih =>
    rw [Reader.run_cons, step_ordinary (h c (by simp)), ih fun x hx => h x (by simp [hx])]
    simp

theorem spells_ordinary {text : Text} (hne : text ≠ []) (h : ∀ c ∈ text, ordinary c = true) :
    Spells text (text.map (·, .none)) := by
  intro w ts
  obtain ⟨c, text, rfl⟩ := List.exists_cons_of_ne_nil hne
  rw [Reader.run_cons, step_ordinary (h c (by simp)),
    run_ordinary fun x hx => h x (by simp [hx])]
  simp

theorem run_double {text : Text} (h : '"' ∉ text) (h' : '\\' ∉ text) (w : List Piece)
    (ts : List Token) : (Reader.mk .double (some w) ts).run text =
      ⟨.double, some (w ++ text.map (·, .double)), ts⟩ := by
  induction text generalizing w with
  | nil => simp
  | cons c text ih =>
    obtain ⟨hc, htext⟩ := not_or.mp (List.mem_cons.not.mp h)
    obtain ⟨hc', htext'⟩ := not_or.mp (List.mem_cons.not.mp h')
    rw [Reader.run_cons, Reader.step]
    simp only [Ne.symm hc, Ne.symm hc', if_false, Reader.push]
    rw [ih htext htext']
    simp

theorem step_open_single (w : Option (List Piece)) (ts : List Token) :
    (Reader.mk .plain w ts).step '\'' = ⟨.single, some (w.getD []), ts⟩ := rfl

theorem step_close_single (w : Option (List Piece)) (ts : List Token) :
    (Reader.mk .single w ts).step '\'' = ⟨.plain, w, ts⟩ := rfl

theorem step_open_double (w : Option (List Piece)) (ts : List Token) :
    (Reader.mk .plain w ts).step '"' = ⟨.double, some (w.getD []), ts⟩ := rfl

theorem step_close_double (w : Option (List Piece)) (ts : List Token) :
    (Reader.mk .double w ts).step '"' = ⟨.plain, w, ts⟩ := rfl

theorem spells_double {text : Text} (h : '"' ∉ text) (h' : '\\' ∉ text) :
    Spells ('"' :: text ++ ['"']) (text.map (·, .double)) := by
  intro w ts
  rw [List.cons_append, Reader.run_cons, step_open_double, Reader.run_append, run_double h h',
    Reader.run_cons, step_close_double]
  rfl

end Fridica.Shell
