import Fridica.Exec.Ssh.Spec
import Fridica.Lib.Checked

/-!
# What the remote shell reads

The script reaches the remote shell as the words that were put in: each is read back as it was, after
two levels of quoting.
-/

namespace Fridica.Exec

open Fridica.Shell

variable {vars : Text → Text}

/-! ## One word -/

def pieces (word : Text) : List Piece :=
  if word ≠ [] ∧ word.all safe then word.map (·, .none)
  else word.map fun c => (c, if c = '\'' then .double else .single)

theorem ordinary_of_safe {c : Char} (h : safe c = true) : ordinary c = true := by
  unfold safe at h
  unfold ordinary blank operator
  rw [Bool.or_eq_true] at h
  rcases h with h | h
  · have hne : ∀ d : Char, d.isAlphanum = false → c ≠ d := by
      rintro d hd rfl
      rw [h] at hd
      cases hd
    simp [hne ' ' (by decide), hne '\t' (by decide), hne ';' (by decide), hne '&' (by decide),
      hne '|' (by decide), hne '<' (by decide), hne '>' (by decide), hne '(' (by decide),
      hne ')' (by decide), hne '\n' (by decide), hne '\'' (by decide), hne '"' (by decide),
      hne '\\' (by decide), hne '#' (by decide)]
  · simp only [List.mem_cons, List.not_mem_nil, or_false, decide_eq_true_eq] at h
    rcases h with rfl | rfl | rfl | rfl | rfl | rfl | rfl | rfl | rfl | rfl <;> decide

theorem not_live_of_safe {c : Char} (h : safe c = true) : live (c, .none) = false := by
  unfold live
  simp only [List.mem_cons, List.not_mem_nil, or_false, decide_eq_false_iff_not]
  rintro (rfl | rfl | rfl | rfl | rfl | rfl) <;> simp [safe] at h

theorem pieces_text (word : Text) : (pieces word).map (·.1) = word := by
  unfold pieces
  split <;> simp [Function.comp_def]

theorem pieces_still (word : Text) : ∀ p ∈ pieces word, live p = false := by
  intro p hp
  unfold pieces at hp
  split at hp
  · next hsafe =>
    obtain ⟨c, hc, rfl⟩ := List.mem_map.mp hp
    exact not_live_of_safe (List.all_eq_true.mp hsafe.2 c hc)
  · obtain ⟨c, -, rfl⟩ := List.mem_map.mp hp
    by_cases hquote : c = '\''
    · subst hquote
      rfl
    · simp [live, hquote]

theorem expand_pieces (word : Text) : expand vars none (pieces word) = some word := by
  rw [expand_literal (pieces_still word), pieces_text]

theorem run_replace (word : Text) (w : List Piece) (ts : List Token) :
    (Reader.mk .single (some w) ts).run (replace word) = ⟨.single,
      some (w ++ word.map fun c => (c, if c = '\'' then .double else .single)), ts⟩ := by
  induction word generalizing w with
  | nil => simp [replace]
  | cons c word ih =>
    unfold replace at *
    rw [List.flatMap_cons, Reader.run_append]
    by_cases hc : c = '\''
    · -- The quotation is closed, and opened again after a quote in double quotes.
      subst hc
      have hquote : (Reader.mk .single (some w) ts).run ['\'', '"', '\'', '"', '\''] =
          ⟨.single, some (w ++ [('\'', .double)]), ts⟩ := rfl
      rw [if_pos rfl, hquote, ih]
      simp
    · have hstep : (Reader.mk .single (some w) ts).run [c] =
          ⟨.single, some (w ++ [(c, .single)]), ts⟩ := by
        simp [Reader.run, Reader.step, Reader.push, hc]
      rw [if_neg hc, hstep, ih]
      simp [hc]

theorem spells_quote (word : Text) : Spells (quote word) (pieces word) := by
  unfold quote pieces
  split
  · next hsafe =>
    exact spells_ordinary hsafe.1 fun c hc => ordinary_of_safe (List.all_eq_true.mp hsafe.2 c hc)
  · intro w ts
    rw [List.cons_append, Reader.run_cons, step_open_single, Reader.run_append, run_replace,
      Reader.run_cons, step_close_single]
    rfl

/-! ## The home directory -/

def HOME : Text := "HOME".toList

/-- The path that is meant. -/
def home_path (vars : Text → Text) (word : Text) : Text :=
  match strip_home word with
  | some tail => vars HOME ++ '/' :: tail
  | none => word

/-- The word that is meant in the sandbox. -/
def home_word (vars : Text → Text) (word : Text) : Text :=
  match strip_variable word with
  | some tail => vars HOME ++ '/' :: tail
  | none => word

theorem spells_path (word : Text) : ∃ ps, Spells (path word) ps ∧
    expand vars none ps = some (home_path vars word) := by
  unfold path home_path
  cases strip_home word with
  | none => exact ⟨_, spells_quote word, expand_pieces word⟩
  | some tail =>
    have hhome : Spells "\"$HOME\"".toList ("$HOME".toList.map (·, .double)) :=
      @spells_double "$HOME".toList (by decide) (by decide)
    have hslash : Spells "/".toList ("/".toList.map (·, .none)) :=
      spells_ordinary (by decide) (List.all_eq_true.mp (by decide))
    refine ⟨_, (hhome.append hslash).append (spells_quote tail), ?_⟩
    have hexpand : ∀ rest, expand vars none
        ("$HOME".toList.map (·, .double) ++ "/".toList.map (·, .none) ++ rest) =
          (expand vars none rest).map (vars HOME ++ '/' :: ·) := fun rest => rfl
    rw [hexpand, expand_pieces]
    rfl

theorem spells_shell_word (word : Text) : ∃ ps, Spells (shell_word word) ps ∧
    expand vars none ps = some (home_word vars word) := by
  unfold shell_word home_word
  cases strip_variable word with
  | none => exact ⟨_, spells_quote word, expand_pieces word⟩
  | some tail =>
    have hhome : Spells "\"$HOME/\"".toList ("$HOME/".toList.map (·, .double)) :=
      @spells_double "$HOME/".toList (by decide) (by decide)
    refine ⟨_, hhome.append (spells_quote tail), ?_⟩
    have hexpand : ∀ rest, expand vars none ("$HOME/".toList.map (·, .double) ++ rest) =
        (expand vars none rest).map (vars HOME ++ '/' :: ·) := fun rest => rfl
    rw [hexpand, expand_pieces]
    rfl

/-! ## Words in a row -/

theorem separated_cons (separator part : Text) {parts : List Text} (h : parts ≠ []) :
    separated separator (part :: parts) = part ++ separator ++ separated separator parts := by
  obtain ⟨next, parts, rfl⟩ := List.exists_cons_of_ne_nil h
  simp [separated, List.intercalate]

theorem closed_nil : Closed [] := rfl

theorem read_blanks {parts : List Text} (h : ∀ p ∈ parts, Closed p) :
    read (separated [' '] parts) = parts.flatMap read ∧ Closed (separated [' '] parts) := by
  induction parts with
  | nil => exact ⟨rfl, rfl⟩
  | cons part parts ih =>
    obtain ⟨hread, hclosed⟩ := ih fun p hp => h p (by simp [hp])
    have hpart := h part (by simp)
    by_cases hnil : parts = []
    · subst hnil
      simpa [separated, List.intercalate] using hpart
    · rw [separated_cons _ _ hnil, List.append_assoc, List.singleton_append, List.flatMap_cons,
        read_append_blank hpart rfl, hread]
      exact ⟨rfl, hpart.append (.inl rfl) hclosed⟩

theorem words_flatMap {texts : List Text} {f : Text → Text} {g : Text → Text}
    (h : ∀ t ∈ texts, Words vars (read (f t)) [g t]) :
    Words vars ((texts.map f).flatMap read) (texts.map g) := by
  induction texts with
  | nil => exact words_nil
  | cons t texts ih =>
    rw [List.map_cons, List.flatMap_cons, List.map_cons]
    exact (h t (by simp)).append (ih fun x hx => h x (by simp [hx]))

theorem read_join (words : List Text) :
    Words vars (read (join words)) words ∧ Closed (join words) := by
  unfold join
  obtain ⟨hread, hclosed⟩ := @read_blanks (words.map quote) (by
    intro p hp
    obtain ⟨w, -, rfl⟩ := List.mem_map.mp hp
    exact (spells_quote w).closed)
  refine ⟨?_, hclosed⟩
  rw [hread]
  simpa using @words_flatMap vars words quote id fun w _ =>
    Spells.words (spells_quote w) (expand_pieces w)

theorem read_shell_words (words : List Text) :
    Words vars (read (shell_words words)) (words.map (home_word vars)) ∧
      Closed (shell_words words) := by
  have hspell : ∀ w, ∃ ps, Spells (shell_word w) ps ∧
      expand vars none ps = some (home_word vars w) := spells_shell_word
  unfold shell_words
  obtain ⟨hread, hclosed⟩ := @read_blanks (words.map shell_word) (by
    intro p hp
    obtain ⟨w, -, rfl⟩ := List.mem_map.mp hp
    obtain ⟨ps, hps, -⟩ := hspell w
    exact hps.closed)
  refine ⟨?_, hclosed⟩
  rw [hread]
  refine words_flatMap fun w _ => ?_
  obtain ⟨ps, hps, hexpand⟩ := hspell w
  exact hps.words hexpand

theorem read_lines {lines : List Text} (h : ∀ l ∈ lines, Closed l) :
    read (separated "; ".toList lines) =
      List.intercalate [.operator ';'] (lines.map read) := by
  induction lines with
  | nil => rfl
  | cons line lines ih =>
    by_cases hnil : lines = []
    · subst hnil
      simp [separated, List.intercalate]
    · have hrest : ∀ rest, read (' ' :: rest) = read rest := fun rest =>
        @read_append_blank [] rest ' ' closed_nil rfl
      have hsemi : "; ".toList ++ separated "; ".toList lines =
          ';' :: ' ' :: separated "; ".toList lines := rfl
      rw [separated_cons _ _ hnil, List.append_assoc, hsemi,
        read_append_operator (h line (by simp)) rfl, hrest, ih fun l hl => h l (by simp [hl])]
      obtain ⟨next, lines, rfl⟩ := List.exists_cons_of_ne_nil hnil
      simp [List.intercalate]

/-! ## The lines of the script -/

theorem ordinary_of_name {c : Char} (h : (c.isAlphanum || decide (c = '_')) = true) :
    ordinary c = true := by
  refine ordinary_of_safe ?_
  rw [Bool.or_eq_true] at h
  unfold safe
  rcases h with h | h
  · rw [h]
    rfl
  · rw [of_decide_eq_true h]
    decide

theorem env_name_ordinary {name : Text} (h : env_name name = true) :
    name ≠ [] ∧ ∀ c ∈ name, (c.isAlphanum || decide (c = '_')) = true := by
  cases name with
  | nil => cases h
  | cons c cs =>
    unfold env_name at h
    obtain ⟨hc, hcs⟩ := Bool.and_eq_true_iff.mp h
    refine ⟨by simp, ?_⟩
    intro d hd
    rcases List.mem_cons.mp hd with rfl | hd
    · rw [Bool.or_eq_true] at hc ⊢
      refine hc.imp_left fun hc => ?_
      unfold Char.isAlphanum
      rw [hc]
      rfl
    · exact List.all_eq_true.mp hcs d hd

theorem read_export {v : Text × Text} (h : env_name v.1 = true) :
    Words vars (read (export_line v)) ["export".toList, v.1 ++ '=' :: v.2] ∧
      Closed (export_line v) := by
  obtain ⟨hne, hname⟩ := env_name_ordinary h
  have hword : Spells (v.1 ++ ['='] ++ quote v.2)
      ((v.1 ++ ['=']).map (·, .none) ++ pieces v.2) := by
    refine (spells_ordinary (by simp) fun c hc => ?_).append (spells_quote v.2)
    rcases List.mem_append.mp hc with hc | hc
    · exact ordinary_of_name (hname c hc)
    · rw [List.mem_singleton.mp hc]
      decide
  have hexpand : expand vars none ((v.1 ++ ['=']).map (·, .none) ++ pieces v.2) =
      some (v.1 ++ '=' :: v.2) := by
    rw [expand_literal, List.map_append, pieces_text]
    · simp [Function.comp_def]
    · intro p hp
      rcases List.mem_append.mp hp with hp | hp
      · obtain ⟨c, hc, rfl⟩ := List.mem_map.mp hp
        refine not_live_of_safe ?_
        rcases List.mem_append.mp hc with hc | hc
        · have := hname c hc
          rw [Bool.or_eq_true] at this
          unfold safe
          rcases this with halnum | hunder
          · rw [halnum]
            rfl
          · rw [of_decide_eq_true hunder]
            decide
        · rw [List.mem_singleton.mp hc]
          decide
      · exact pieces_still v.2 p hp
  have hline : export_line v = "export".toList ++ ' ' :: (v.1 ++ ['='] ++ quote v.2) := by
    have hsplit : "export ".toList = "export".toList ++ [' '] := by decide
    unfold export_line
    rw [hsplit]
    simp only [List.append_assoc, List.cons_append, List.nil_append]
  have hexport : Spells "export".toList ("export".toList.map (·, .none)) :=
    spells_ordinary (by decide) (List.all_eq_true.mp (by decide))
  rw [hline, read_append_blank hexport.closed rfl]
  exact ⟨(hexport.words rfl).append (hword.words hexpand),
    hexport.closed.append (.inl rfl) hword.closed⟩

theorem closed_path (word : Text) : Closed (path word) := by
  obtain ⟨ps, hps, -⟩ := @spells_path id word
  exact hps.closed

theorem words_path (word : Text) : Words vars (read (path word)) [home_path vars word] := by
  obtain ⟨ps, hps, hexpand⟩ := @spells_path vars word
  exact hps.words hexpand

def EXIT : Text := "|| exit 98".toList

theorem read_or_exit {front : Text} (h : Closed front) (cwd : Text) :
    read (front ++ ' ' :: (path cwd ++ or_exit)) = read front ++ read (path cwd) ++ read EXIT ∧
      Closed (front ++ ' ' :: (path cwd ++ or_exit)) := by
  have hexit : or_exit = ' ' :: EXIT := by decide
  rw [hexit, read_append_blank h rfl, read_append_blank (closed_path cwd) rfl, List.append_assoc]
  exact ⟨rfl, h.append (.inl rfl) ((closed_path cwd).append (.inl rfl) (by decide))⟩

/-- The agent's words stand in two places, each between a blank and an operator. -/
def RunsTwice (line agent : Text) : Prop :=
  ∃ a b c op, read line = a ++ read agent ++ .operator op :: b ++ read agent ++ .operator op :: c

theorem runs_twice {front middle back agent text : Text} {op : Char} (hop : operator op = true)
    (hread : read text = read agent) (ht : Closed text) (hf : Closed front) (hm : Closed middle)
    (hb : Closed back) :
    RunsTwice (front ++ ' ' :: (text ++ op :: (middle ++ ' ' :: (text ++ op :: back)))) agent ∧
      Closed (front ++ ' ' :: (text ++ op :: (middle ++ ' ' :: (text ++ op :: back)))) := by
  refine ⟨⟨read front, read middle, read back, op, ?_⟩, ?_⟩
  · rw [read_append_blank hf rfl, read_append_operator ht hop, read_append_blank hm rfl,
      read_append_operator ht hop, hread]
    simp only [List.append_assoc, List.cons_append]
  · exact hf.append (.inl rfl) (ht.append (.inr hop)
      (hm.append (.inl rfl) (ht.append (.inr hop) hb)))

theorem closed_digits (n : Nat) : Closed (Nat.toDigits 10 n) := by
  by_cases hnil : Nat.toDigits 10 n = []
  · rw [hnil]
    exact closed_nil
  · refine (spells_ordinary hnil fun c hc => ordinary_of_name ?_).closed
    have hdigit := Nat.isDigit_of_mem_toDigits (by decide) (by decide) hc
    unfold Char.isAlphanum
    rw [hdigit]
    simp

theorem read_deadline (seconds : Nat) {agent : Text} (h : Closed agent) :
    RunsTwice (deadline seconds agent) agent ∧ Closed (deadline seconds agent) := by
  have hline : deadline seconds agent =
      ("if command -v timeout >/dev/null 2>&1; then exec timeout -k 5".toList ++
        ' ' :: Nat.toDigits 10 seconds) ++
          ' ' :: (agent ++ ';' :: (" else exec".toList ++ ' ' :: (agent ++ ';' :: " fi".toList))) := by
    have h₁ : "if command -v timeout >/dev/null 2>&1; then exec timeout -k 5 ".toList =
      "if command -v timeout >/dev/null 2>&1; then exec timeout -k 5".toList ++ [' '] := by decide +kernel
    have h₂ : "; else exec ".toList = ';' :: (" else exec".toList ++ [' ']) := by decide +kernel
    have h₃ : "; fi".toList = ';' :: " fi".toList := by decide +kernel
    unfold deadline
    rw [h₁, h₂, h₃]
    simp only [List.append_assoc, List.cons_append, List.nil_append]
  have hfront : Closed "if command -v timeout >/dev/null 2>&1; then exec timeout -k 5".toList := by
    decide
  rw [hline]
  exact runs_twice rfl rfl h (hfront.append (.inl rfl) (closed_digits seconds)) (by decide +kernel)
    (by decide +kernel)

theorem read_watchdog {agent : Text} (h : Closed agent) :
    (∃ line ∈ watchdog agent, RunsTwice line agent) ∧ ∀ l ∈ watchdog agent, Closed l := by
  have hagent : RunsTwice ("if command -v setsid >/dev/null 2>&1; then setsid ".toList ++ agent ++
      " < \"$FRIDICA_IN\" & else ".toList ++ agent ++
      " < \"$FRIDICA_IN\" & fi; FRIDICA_AGENT=$!".toList) agent ∧
      Closed ("if command -v setsid >/dev/null 2>&1; then setsid ".toList ++ agent ++
      " < \"$FRIDICA_IN\" & else ".toList ++ agent ++
      " < \"$FRIDICA_IN\" & fi; FRIDICA_AGENT=$!".toList) := by
    have hspace : read (agent ++ [' ']) = read agent ∧ Closed (agent ++ [' ']) := by
      rw [read_append_blank h rfl]
      exact ⟨List.append_nil _, h.append (.inl rfl) closed_nil⟩
    have h₁ : "if command -v setsid >/dev/null 2>&1; then setsid ".toList =
      "if command -v setsid >/dev/null 2>&1; then setsid".toList ++ [' '] := by decide +kernel
    have h₂ : " < \"$FRIDICA_IN\" & else ".toList =
      ' ' :: '<' :: (" \"$FRIDICA_IN\" & else".toList ++ [' ']) := by decide +kernel
    have h₃ : " < \"$FRIDICA_IN\" & fi; FRIDICA_AGENT=$!".toList =
      ' ' :: '<' :: " \"$FRIDICA_IN\" & fi; FRIDICA_AGENT=$!".toList := by decide +kernel
    have htwice := @runs_twice "if command -v setsid >/dev/null 2>&1; then setsid".toList
      " \"$FRIDICA_IN\" & else".toList " \"$FRIDICA_IN\" & fi; FRIDICA_AGENT=$!".toList agent
      (agent ++ [' ']) '<' rfl hspace.1 hspace.2 (by decide +kernel) (by decide +kernel)
      (by decide +kernel)
    rw [h₁, h₂, h₃]
    simpa only [List.append_assoc, List.cons_append, List.nil_append] using htwice
  unfold watchdog
  refine ⟨⟨_, by simp only [List.mem_cons, true_or, or_true], hagent.1⟩, ?_⟩
  simp only [List.forall_mem_cons]
  refine ⟨?_, ?_, ?_, ?_, ?_, ?_, ?_, ?_, hagent.2, ?_, ?_, ?_, ?_, ?_, ?_, by simp⟩ <;>
    decide +kernel

theorem closed_prepare : Closed prepare_script := by decide +kernel

/-! ## The script -/

/-- What the remote shell reads of the lines. -/
structure Restores (vars : Text → Text) (command : List Text) (cwd : Text)
    (env : List (Text × Text)) (create : Bool) (argv lines : List Text) : Prop where
  apart : read (separated "; ".toList lines) = List.intercalate [.operator ';'] (lines.map read)
  exported : ∀ v ∈ env, ∃ line ∈ lines,
    Words vars (read line) ["export".toList, v.1 ++ '=' :: v.2]
  made : create = true → ∃ line ∈ lines, ∃ ts, read line = ts ++ read EXIT ∧
    Words vars ts ["mkdir".toList, "-p".toList, "--".toList, home_path vars cwd]
  entered : ∃ line ∈ lines, ∃ ts, read line = ts ++ read EXIT ∧
    Words vars ts ["cd".toList, home_path vars cwd]
  run : ∃ line ∈ lines, ∃ agent, RunsTwice line agent ∧
    Words vars (read agent) (argv.map (home_word vars) ++ command)

theorem read_agent_lines {timeout : Option Nat} {agent : Text} {lines : List Text}
    (h : agent_lines timeout agent = .ok lines) (hclosed : Closed agent) :
    (∃ line ∈ lines, RunsTwice line agent) ∧ ∀ l ∈ lines, Closed l := by
  unfold agent_lines at h
  cases timeout with
  | none =>
    obtain rfl := Except.ok.inj h
    exact read_watchdog hclosed
  | some timeout =>
    dsimp only at h
    split at h
    · obtain rfl := Except.ok.inj h
      obtain ⟨htwice, hline⟩ := read_deadline (max (timeout + 5) 1) hclosed
      exact ⟨⟨_, List.mem_singleton_self _, htwice⟩, by simpa using hline⟩
    · cases h

theorem read_agent (argv command : List Text) :
    let front := shell_words argv
    let agent := if front = [] then join command else front ++ [' '] ++ join command
    Words vars (read agent) (argv.map (home_word vars) ++ command) ∧ Closed agent := by
  intro front agent
  obtain ⟨hwords, hclosed⟩ := @read_join vars command
  obtain ⟨hfront, hfclosed⟩ := @read_shell_words vars argv
  by_cases hnil : front = []
  · have hargv : argv.map (home_word vars) = [] := by
      have hread : Words vars (read front) (argv.map (home_word vars)) := hfront
      rw [hnil] at hread
      have hlen := congrArg List.length hread
      simpa [Shell.read, Reader.start, Reader.flush] using hlen.symm
    have hagent : agent = join command := if_pos hnil
    rw [hagent, hargv]
    exact ⟨hwords, hclosed⟩
  · have hagent : agent = front ++ ' ' :: join command := by
      simp only [agent, if_neg hnil, List.append_assoc, List.singleton_append]
    rw [hagent, read_append_blank hfclosed rfl]
    exact ⟨hfront.append hwords, hfclosed.append (.inl rfl) hclosed⟩

theorem closed_of_sandbox {roots : Option (List Text)} {prepare argv : List Text}
    (h : sandbox roots = .ok (prepare, argv)) : ∀ l ∈ prepare, Closed l := by
  unfold sandbox at h
  cases roots with
  | none =>
    obtain ⟨rfl, rfl⟩ := Prod.mk.inj (Except.ok.inj h)
    simp
  | some roots =>
    cases hc : confinement roots with
    | error e =>
      simp only [hc, Except.map] at h
      cases h
    | ok words =>
      simp only [hc, Except.map] at h
      obtain ⟨rfl, rfl⟩ := Prod.mk.inj (Except.ok.inj h)
      simpa using closed_prepare

theorem script_lines_restores {command : List Text} {cwd : Text} {env : List (Text × Text)}
    {timeout : Option Nat} {create : Bool} {roots : Option (List Text)} {lines : List Text}
    (h : script_lines command cwd env timeout create roots = .ok lines) :
    ∃ prepare argv, sandbox roots = .ok (prepare, argv) ∧
      Restores vars command cwd env create argv lines := by
  unfold script_lines at h
  obtain ⟨-, -, h⟩ := Checked.bind_ok.mp h
  split at h
  · cases h
  next hvalid =>
  obtain ⟨⟨prepare, argv⟩, hsandbox, h⟩ := Checked.bind_ok.mp h
  obtain ⟨last, hlast, h⟩ := Checked.bind_ok.mp h
  have hnames : ∀ v ∈ env, env_name v.1 = true := by
    intro v hv
    simp only [not_or, List.any_eq_true, not_exists, not_and, Bool.or_eq_true,
      Bool.not_eq_true'] at hvalid
    exact Bool.eq_false_iff.not_left.mp (hvalid.2.2 v hv).1
  obtain ⟨hagent, hclosed⟩ := @read_agent vars argv command
  obtain ⟨⟨line, hline, htwice⟩, hlines⟩ := read_agent_lines hlast hclosed
  have hmake : "mkdir -p -- ".toList ++ path cwd ++ or_exit =
      "mkdir -p --".toList ++ ' ' :: (path cwd ++ or_exit) := by
    have hsplit : "mkdir -p -- ".toList = "mkdir -p --".toList ++ [' '] := by decide
    rw [hsplit]
    simp only [List.append_assoc, List.cons_append, List.nil_append]
  have henter : "cd ".toList ++ path cwd ++ or_exit =
      "cd".toList ++ ' ' :: (path cwd ++ or_exit) := by
    have hsplit : "cd ".toList = "cd".toList ++ [' '] := by decide
    rw [hsplit]
    simp only [List.append_assoc, List.cons_append, List.nil_append]
  rw [hmake, henter] at h
  obtain ⟨hmread, hmclosed⟩ := read_or_exit (show Closed "mkdir -p --".toList by decide) cwd
  obtain ⟨heread, heclosed⟩ := read_or_exit (show Closed "cd".toList by decide) cwd
  obtain rfl := Checked.pure_ok.mp h
  refine ⟨prepare, argv, hsandbox, ?_, ?_, ?_, ?_, ?_⟩
  · refine read_lines fun l hl => ?_
    simp only [List.mem_append, List.mem_singleton, List.mem_map] at hl
    rcases hl with ((((rfl | ⟨v, hv, rfl⟩) | hl) | hl) | rfl) | hl
    · decide
    · exact (@read_export vars v (hnames v hv)).2
    · exact closed_of_sandbox hsandbox l hl
    · split at hl
      · rw [List.mem_singleton.mp hl]
        exact hmclosed
      · cases hl
    · exact heclosed
    · exact hlines l hl
  · intro v hv
    refine ⟨export_line v, ?_, (read_export (hnames v hv)).1⟩
    simp only [List.mem_append, List.mem_map]
    exact .inl (.inl (.inl (.inl (.inr ⟨v, hv, rfl⟩))))
  · intro hcreate
    refine ⟨"mkdir -p --".toList ++ ' ' :: (path cwd ++ or_exit), ?_,
      read "mkdir -p --".toList ++ read (path cwd), hmread, ?_⟩
    · rw [if_pos hcreate]
      exact List.mem_append_left _ (List.mem_append_left _
        (List.mem_append_right _ (List.mem_singleton_self _)))
    · exact Words.append (show Words vars (read "mkdir -p --".toList)
        ["mkdir".toList, "-p".toList, "--".toList] from rfl) (words_path cwd)
  · refine ⟨"cd".toList ++ ' ' :: (path cwd ++ or_exit), ?_,
      read "cd".toList ++ read (path cwd), heread, ?_⟩
    · exact List.mem_append_left _ (List.mem_append_right _ (List.mem_singleton_self _))
    · exact Words.append (show Words vars (read "cd".toList) ["cd".toList] from rfl)
        (words_path cwd)
  · exact ⟨line, List.mem_append_right _ hline, _, htwice, hagent⟩

/-- **The remote shell reads what was put in**: the words of a command, a directory, and in a script
its lines, the variables, the directory and the agent's command. -/
theorem remote_script_reads (vars : Text → Text) :
    (∀ words, Words vars (read (join words)) words) ∧
    (∀ word, Words vars (read (path word)) [home_path vars word]) ∧
    ∀ command cwd env timeout create roots script,
      remote_script_with_confinement command cwd env timeout create roots = .ok script →
      ∃ lines prepare argv, script_lines command cwd env timeout create roots = .ok lines ∧
        sandbox roots = .ok (prepare, argv) ∧
        Words vars (read script)
          ["exec".toList, "sh".toList, "-c".toList, separated "; ".toList lines] ∧
        Restores vars command cwd env create argv lines := by
  refine ⟨fun words => (read_join words).1, words_path, ?_⟩
  intro command cwd env timeout create roots script h
  unfold remote_script_with_confinement at h
  cases hlines : script_lines command cwd env timeout create roots with
  | error e =>
    rw [hlines] at h
    cases h
  | ok lines =>
    rw [hlines] at h
    obtain rfl := Except.ok.inj h
    obtain ⟨prepare, argv, hsandbox, hrestores⟩ := @script_lines_restores vars _ _ _ _ _ _ _ hlines
    refine ⟨lines, prepare, argv, rfl, hsandbox, ?_, hrestores⟩
    have hsplit : "exec sh -c ".toList = "exec sh -c".toList ++ [' '] := by decide
    have hword := spells_quote (separated "; ".toList lines)
    dsimp only
    rw [hsplit, List.append_assoc, List.singleton_append,
      read_append_blank (show Closed "exec sh -c".toList by decide) rfl]
    exact Words.append (show Words vars (read "exec sh -c".toList)
      ["exec".toList, "sh".toList, "-c".toList] from rfl)
      (hword.words (expand_pieces _))

theorem remote_script_reads_spaced (vars : Text → Text) : ∃ script lines,
    Words vars (read script)
      ["exec".toList, "sh".toList, "-c".toList, separated "; ".toList lines] ∧
    Restores vars [['a'], []] ['/', 'w'] [(['A'], ['x', ' ', 'y'])] false [] lines := by
  have haccepted : remote_script_with_confinement [['a'], []] ['/', 'w']
      [(['A'], ['x', ' ', 'y'])] none false none = .ok _ := rfl
  obtain ⟨lines, prepare, argv, -, hsandbox, hwords, hrestores⟩ :=
    (remote_script_reads vars).2.2 _ _ _ _ _ _ _ haccepted
  obtain ⟨-, rfl⟩ := Prod.mk.inj (Except.ok.inj hsandbox)
  exact ⟨_, lines, hwords, hrestores⟩

end Fridica.Exec
