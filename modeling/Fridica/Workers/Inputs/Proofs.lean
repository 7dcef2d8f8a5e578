import Fridica.Lib.Infix
import Fridica.Lib.Text
import Fridica.Workers.Inputs.Spec

/-!
# Names for files are distinct

What `safe_name` returns, what a number makes of it, and from both the names of a whole list.
-/

namespace Fridica.Workers.Inputs

open Fridica.Path (Text split split_part)

variable {t base name id : Text}

/-! ## Characters -/

theorem safe_of_alphanum {c : Char} (h : c.isAlphanum = true) : safe c = true := by
  simp [safe, h]

theorem safe_digit {c : Char} {n : Nat} (h : c ∈ Nat.toDigits 10 n) : safe c = true := by
  have hdigit := Nat.isDigit_of_mem_toDigits (by omega) (by omega) h
  exact safe_of_alphanum (by simp [Char.isAlphanum, hdigit])

theorem component_of (hne : t ≠ []) (hsafe : ∀ c ∈ t, safe c = true) (hdot : t.head? ≠ some '.') :
    Component t := by
  have hslash : '/' ∉ t := fun hmem => absurd (hsafe '/' hmem) (by decide)
  have hone : t ≠ ['.'] := by
    rintro rfl
    exact hdot rfl
  have htwo : t ≠ ['.', '.'] := by
    rintro rfl
    exact hdot rfl
  refine ⟨hne, hsafe, hdot, ?_⟩
  unfold file_name
  rw [split_part hslash]
  simp [hne, hone, htwo]

/-! ## The extension -/

theorem before_dot {file : Text} (h : file.rdropWhile (· ≠ '.') ≠ []) :
    file = (file.rdropWhile (· ≠ '.')).dropLast ++ '.' :: file.rtakeWhile (· ≠ '.') := by
  have hlast : (file.rdropWhile (· ≠ '.')).getLast h = '.' := by
    simpa using List.rdropWhile_last_not (· ≠ '.') file h
  have hdots := List.dropLast_concat_getLast h
  rw [hlast] at hdots
  calc file = file.rdropWhile (· ≠ '.') ++ file.rtakeWhile (· ≠ '.') :=
        (List.rdropWhile_append_rtakeWhile ..).symm
    _ = _ := by
      conv_lhs => rw [← hdots]
      rw [List.append_assoc, List.singleton_append]

theorem rsplit_some {file ext : Text} (h : (rsplit_file_at_dot file).2 = some ext) :
    (rsplit_file_at_dot file).1 ≠ [] ∧ file = (rsplit_file_at_dot file).1 ++ '.' :: ext ∧
      '.' ∉ ext := by
  unfold rsplit_file_at_dot at h ⊢
  dsimp only at h ⊢
  split_ifs at h ⊢ with hbefore
  dsimp only at h ⊢
  have hne : file.rdropWhile (· ≠ '.') ≠ [] := by
    intro hnil
    rw [hnil] at hbefore
    exact hbefore rfl
  rw [← Option.some.inj h]
  exact ⟨hbefore, before_dot hne, fun hdot => by simpa using List.mem_rtakeWhile_imp hdot⟩

theorem rsplit_none {file : Text} (h : (rsplit_file_at_dot file).2 = none)
    (hhead : file.head? ≠ some '.') : '.' ∉ file := by
  unfold rsplit_file_at_dot at h
  dsimp only at h
  split_ifs at h with hbefore
  intro hdot
  have hne : file.rdropWhile (· ≠ '.') ≠ [] := by
    intro hnil
    rw [List.rdropWhile_eq_nil_iff] at hnil
    exact absurd rfl (of_decide_eq_true (hnil '.' hdot))
  have hfile := before_dot hne
  rw [hbefore] at hfile
  rw [hfile] at hhead
  exact hhead rfl

theorem extension_of (h : Component t) : extension t = (rsplit_file_at_dot t).2 := by
  unfold extension
  rw [h.single, Option.bind_some]

theorem numbered_parts (h : Component t) :
    ('.' ∉ t ∧ ∀ n, numbered t n = t ++ '-' :: Nat.toDigits 10 n) ∨
    ∃ stem ext, stem ≠ [] ∧ '.' ∉ ext ∧ t = stem ++ '.' :: ext ∧
      ∀ n, numbered t n = stem ++ '-' :: Nat.toDigits 10 n ++ '.' :: ext := by
  have hstem : file_stem t = some (rsplit_file_at_dot t).1 := by
    unfold file_stem
    rw [h.single, Option.map_some]
  unfold numbered
  rw [hstem, extension_of h]
  cases hext : (rsplit_file_at_dot t).2 with
  | none => exact .inl ⟨rsplit_none hext h.no_dot, fun _ => rfl⟩
  | some ext =>
    obtain ⟨hne, heq, hdot⟩ := rsplit_some hext
    exact .inr ⟨_, ext, hne, hdot, heq, fun n => by simp⟩

theorem numbered_shape (h : Component t) :
    ∃ a b, a ≠ [] ∧ t = a ++ b ∧ ∀ n, numbered t n = a ++ '-' :: (Nat.toDigits 10 n ++ b) := by
  rcases numbered_parts h with ⟨-, hnumbered⟩ | ⟨stem, ext, hne, -, heq, hnumbered⟩
  · exact ⟨t, [], h.nonempty, by simp, by simpa using hnumbered⟩
  · exact ⟨stem, '.' :: ext, hne, heq, by simpa using hnumbered⟩

/-! ## Numbers -/

theorem numbered_length (h : Component t) (n : Nat) :
    (numbered t n).length = t.length + 1 + (Nat.toDigits 10 n).length := by
  obtain ⟨a, b, -, rfl, hnumbered⟩ := numbered_shape h
  rw [hnumbered]
  simp
  omega

theorem numbered_component (h : Component t) (n : Nat) : Component (numbered t n) := by
  obtain ⟨a, b, hne, rfl, hnumbered⟩ := numbered_shape h
  obtain ⟨x, a, rfl⟩ := List.exists_cons_of_ne_nil hne
  rw [hnumbered]
  refine component_of (by simp) (fun c hc => ?_) h.no_dot
  simp only [List.mem_append, List.mem_cons] at hc
  rcases hc with hc | rfl | hc | hc
  · exact h.safe c (List.mem_append_left _ (List.mem_cons.mpr hc))
  · rfl
  · exact safe_digit hc
  · exact h.safe c (List.mem_append_right _ hc)

theorem candidate_component (h : Component t) (n : Nat) : Component (candidate t n) := by
  unfold candidate
  split
  · exact h
  · exact numbered_component h n

theorem dash_not_digit (n : Nat) : '-' ∉ Nat.toDigits 10 n := fun h =>
  absurd (Nat.isDigit_of_mem_toDigits (by omega) (by omega) h) (by decide)

theorem numbered_base {b c : Text} (hb : Component b) (hc : Component c) {i j : Nat}
    (h : numbered b i = numbered c j) : b = c := by
  have hend : ∀ {u v : Text}, u ++ '-' :: Nat.toDigits 10 i = v ++ '-' :: Nat.toDigits 10 j →
      u = v := fun heq => (Infix.cut_last (dash_not_digit i) (dash_not_digit j) heq).1
  have hdigits : ∀ n, '.' ∉ '-' :: Nat.toDigits 10 n := by
    intro n hdot
    rcases List.mem_cons.mp hdot with hdash | hdot
    · exact absurd hdash (by decide)
    · exact absurd (Nat.isDigit_of_mem_toDigits (by omega) (by omega) hdot) (by decide)
  rcases numbered_parts hb with ⟨hdot, hn⟩ | ⟨stem, ext, -, hext, rfl, hn⟩ <;>
    rcases numbered_parts hc with ⟨hdot', hn'⟩ | ⟨stem', ext', -, hext', rfl, hn'⟩
  · rw [hn, hn'] at h
    exact hend h
  · rw [hn, hn'] at h
    have hmem : '.' ∈ b ++ '-' :: Nat.toDigits 10 i := by
      rw [h]
      simp
    exact absurd (List.mem_append.mp hmem) (not_or.mpr ⟨hdot, hdigits i⟩)
  · rw [hn, hn'] at h
    have hmem : '.' ∈ c ++ '-' :: Nat.toDigits 10 j := by
      rw [← h]
      simp
    exact absurd (List.mem_append.mp hmem) (not_or.mpr ⟨hdot', hdigits j⟩)
  · rw [hn, hn'] at h
    obtain ⟨hstem, rfl⟩ := Infix.cut_last hext hext' h
    rw [hend hstem]

theorem candidate_injective (h : Component t) (i j : Nat) (heq : candidate t i = candidate t j) :
    i = j := by
  have hlen := numbered_length h
  unfold candidate at heq
  split_ifs at heq with hi hj hj
  · rw [hi, hj]
  · have hsame := congrArg List.length heq
    rw [hlen] at hsame
    omega
  · have hsame := congrArg List.length heq
    rw [hlen] at hsame
    omega
  · obtain ⟨a, b, -, -, hnumbered⟩ := numbered_shape h
    rw [hnumbered, hnumbered] at heq
    have hdigits := (List.cons.inj (List.append_cancel_left heq)).2
    exact Text.toDigits_injective (List.append_cancel_right hdigits)

theorem candidate_mono (h : Component t) {i j : Nat} (hi : 1 ≤ i) (hij : i ≤ j) :
    (candidate t i).length ≤ (candidate t j).length := by
  have hlen := numbered_length h
  unfold candidate
  split_ifs with hi' hj hj
  · exact Nat.le_refl _
  · rw [hlen]
    omega
  · omega
  · rw [hlen, hlen]
    have hpos : 0 < (Nat.toDigits 10 j).length := Nat.length_toDigits_pos
    have hdigits : (Nat.toDigits 10 i).length ≤ (Nat.toDigits 10 j).length := by
      rw [Nat.length_toDigits_le_iff (by omega) hpos]
      exact Nat.lt_of_le_of_lt hij ((Nat.length_toDigits_le_iff (by omega) hpos).mp (Nat.le_refl _))
    omega

/-! ## One safe name -/

theorem short_extension_length (out : Text) : (short_extension out).length ≤ 17 := by
  unfold short_extension
  split
  next e he =>
    have hlen := Option.filter_eq_some_iff.mp he
    simp at hlen
    simp
    omega
  next => simp

theorem short_extension_safe (h : Component t) : ∀ c ∈ short_extension t, safe c = true := by
  unfold short_extension
  split
  next e he =>
    have hext := (Option.filter_eq_some_iff.mp he).1
    rw [extension_of h] at hext
    obtain ⟨-, heq, -⟩ := rsplit_some hext
    intro c hc
    rw [List.mem_cons] at hc
    rcases hc with rfl | hc
    · rfl
    · refine h.safe c ?_
      rw [heq]
      simp [hc]
  next => simp

theorem cut_component (h : Component t) (hlong : t.length > 100) :
    Component (t.take (100 - (short_extension t).length) ++ short_extension t) ∧
      (t.take (100 - (short_extension t).length) ++ short_extension t).length = 100 := by
  have hext := short_extension_length t
  obtain ⟨x, u, rfl⟩ := List.exists_cons_of_ne_nil h.nonempty
  obtain ⟨k, hk⟩ : ∃ k, 100 - (short_extension (x :: u)).length = k + 1 :=
    ⟨99 - (short_extension (x :: u)).length, by omega⟩
  constructor
  · rw [hk, List.take_succ_cons]
    refine component_of (by simp) (fun c hc => ?_) h.no_dot
    rcases List.mem_append.mp hc with hc | hc
    · refine h.safe c ?_
      rcases List.mem_cons.mp hc with rfl | hc
      · exact List.mem_cons_self
      · exact List.mem_cons_of_mem x (List.mem_of_mem_take hc)
    · exact short_extension_safe h c hc
  · rw [List.length_append, List.length_take]
    omega

theorem FileId.component (h : FileId id) : Component id := by
  refine component_of h.nonempty (fun c hc => safe_of_alphanum (h.alphanumeric c hc)) ?_
  intro hdot
  obtain ⟨u, rfl⟩ := List.head?_eq_some_iff.mp hdot
  exact absurd (h.alphanumeric '.' List.mem_cons_self) (by decide)

theorem safe_name_component (h : FileId id) :
    Component (safe_name name id) ∧ (safe_name name id).length ≤ 100 := by
  have hid : Component id ∧ id.length ≤ 100 := ⟨h.component, h.short.trans (by omega)⟩
  unfold safe_name
  dsimp only
  generalize hout : (name.map fun c => if safe c = true then c else '_').dropWhile (· = '.') = out
  have hsafe : ∀ c ∈ out, safe c = true := by
    intro c hc
    rw [← hout] at hc
    obtain ⟨d, -, rfl⟩ := List.mem_map.mp ((List.dropWhile_sublist _).mem hc)
    split
    · assumption
    · rfl
  have hdot : out.head? ≠ some '.' := by
    intro hhead
    have hfirst := List.head?_dropWhile_not (fun c => decide (c = '.'))
      (name.map fun c => if safe c = true then c else '_')
    rw [hout, hhead] at hfirst
    simp at hfirst
  have hshort : shorten out ≠ [] → Component (shorten out) ∧ (shorten out).length ≤ 100 := by
    unfold shorten
    split
    next hlong =>
      intro _
      have hne : out ≠ [] := List.ne_nil_of_length_pos (by omega)
      obtain ⟨hnew, hlen⟩ := cut_component (component_of hne hsafe hdot) hlong
      exact ⟨hnew, Nat.le_of_eq hlen⟩
    next hlen => exact fun hne => ⟨component_of hne hsafe hdot, by omega⟩
  split
  · exact hid
  next hkept => exact hshort fun hnil => hkept (.inl hnil)

/-! ## A list of names -/

variable {files : List (Text × Text)} {out : List Text} {file : Text × Text}

/-- The first form of a name that is not given. -/
structure First (given : List Text) (base : Text) (n : Nat) : Prop where
  pos : 1 ≤ n
  free : candidate base n ∉ given
  taken : ∀ k, 1 ≤ k → k < n → candidate base k ∈ given

theorem Gives.unique {out' : List Text} (h : Gives files out) (h' : Gives files out') :
    out = out' := by
  have hsame := (h _ (Nat.lt_succ_self _)).symm.trans (h' _ (Nat.lt_succ_self _))
  exact Option.some.inj hsame

/-- Files with the names that they get, each the first form that is free. -/
inductive Named : List (Text × Text) → List Text → Prop
  | nil : Named [] []
  | snoc {files : List (Text × Text)} {out : List Text} {file : Text × Text} {n : Nat} :
    Named files out → FileId file.1 → First out (safe_name file.2 file.1) n →
    Named (files ++ [file]) (out ++ [candidate (safe_name file.2 file.1) n])

namespace Named

theorem nodup (h : Named files out) : out.Nodup := by
  induction h with
  | nil => exact List.nodup_nil
  | snoc _ _ hfirst ih =>
    rw [← List.concat_eq_append]
    exact List.Nodup.concat hfirst.free ih

theorem component (h : Named files out) : ∀ name ∈ out, Component name := by
  induction h with
  | nil => exact List.forall_mem_nil _
  | snoc _ hid _ ih =>
    intro name hname
    rcases List.mem_append.mp hname with hname | hname
    · exact ih name hname
    · rw [List.mem_singleton.mp hname]
      exact candidate_component (safe_name_component hid).1 _

theorem split_of_mem (h : Named files out) (hname : name ∈ out) :
    ∃ before file after given n, files = before ++ file :: after ∧ Named before given ∧
      FileId file.1 ∧ First given (safe_name file.2 file.1) n ∧
      name = candidate (safe_name file.2 file.1) n := by
  induction h with
  | nil => cases hname
  | @snoc files out file n hnamed hid hfirst ih =>
    rcases List.mem_append.mp hname with hname | hname
    · obtain ⟨before, f, after, given, m, rfl, hrest⟩ := ih hname
      exact ⟨before, f, after ++ [file], given, m, by simp, hrest⟩
    · exact ⟨files, file, [], out, n, rfl, hnamed, hid, hfirst, List.mem_singleton.mp hname⟩

theorem mem_of_split (h : Named files out) {before after : List (Text × Text)}
    (heq : files = before ++ file :: after) :
    ∃ given n, Named before given ∧ FileId file.1 ∧ First given (safe_name file.2 file.1) n ∧
      candidate (safe_name file.2 file.1) n ∈ out := by
  induction h generalizing after with
  | nil => simp at heq
  | @snoc files out f n hnamed hid hfirst ih =>
    rcases List.eq_nil_or_concat after with rfl | ⟨after, g, rfl⟩
    · obtain ⟨rfl, hsame⟩ := List.append_inj' heq rfl
      rw [← List.singleton_inj.mp hsame]
      exact ⟨out, n, hnamed, hid, hfirst, by simp⟩
    · have hend : files ++ [f] = (before ++ file :: after) ++ [g] := by simpa using heq
      obtain ⟨rfl, -⟩ := List.append_inj' hend rfl
      obtain ⟨given, m, hgiven, hid, hfirst, hmem⟩ := ih rfl
      exact ⟨given, m, hgiven, hid, hfirst, List.mem_append_left _ hmem⟩

end Named

/-! ## How far the numbers go -/

section Numbers

variable {b c : Text} {given : List Text} {k n m i j : Nat}

/-- The first forms of a name. -/
def forms (base : Text) (n : Nat) : List Text := (List.range n).map fun i => candidate base (i + 1)

theorem mem_forms : t ∈ forms b n ↔ ∃ i, 1 ≤ i ∧ i ≤ n ∧ t = candidate b i := by
  unfold forms
  rw [List.mem_map]
  constructor
  · rintro ⟨i, hi, rfl⟩
    have hlt := List.mem_range.mp hi
    exact ⟨i + 1, by omega, by omega, rfl⟩
  · rintro ⟨i, hpos, hle, rfl⟩
    refine ⟨i - 1, List.mem_range.mpr (by omega), ?_⟩
    rw [Nat.sub_add_cancel hpos]

theorem is_form_iff : is_form k b t = true ↔ t ∈ forms b (k + 1) := by
  unfold is_form forms
  rw [List.any_eq_true, List.mem_map]
  exact exists_congr fun i => and_congr_right fun _ => decide_eq_true_iff

theorem forms_nodup (hb : Component b) (n : Nat) : (forms b n).Nodup := by
  refine List.Nodup.map (fun i j hij => ?_) List.nodup_range
  have heq := candidate_injective hb _ _ hij
  omega

theorem First.forms_subset (h : First given b n) : forms b (n - 1) ⊆ given := by
  intro t ht
  obtain ⟨i, hpos, hle, rfl⟩ := mem_forms.mp ht
  exact h.taken i hpos (by omega)

theorem First.le (h : First given b n) (hb : Component b) : n ≤ given.length + 1 := by
  have hlen := (List.subperm_of_subset (forms_nodup hb (n - 1)) h.forms_subset).length_le
  unfold forms at hlen
  rw [List.length_map, List.length_range] at hlen
  omega

/-- Two names have a form in common only where one of them is a form of the other. -/
theorem candidate_meet (hb : Component b) (hc : Component c) (h : candidate b i = candidate c j) :
    b = c ∨ i = 1 ∨ j = 1 := by
  by_cases hi : i = 1
  · exact .inr (.inl hi)
  · by_cases hj : j = 1
    · exact .inr (.inr hj)
    · unfold candidate at h
      rw [if_neg hi, if_neg hj] at h
      exact .inl (numbered_base hb hc h)

theorem Named.length (h : Named files out) : out.length = files.length := by
  induction h with
  | nil => rfl
  | snoc _ _ _ ih => rw [List.length_append, List.length_append, ih, List.length_singleton,
      List.length_singleton]

theorem First.meets (h : First out c n) (hnamed : Named files out) (hb : Component b)
    (hc : Component c) (hk : files.length ≤ k) (hform : candidate c n ∈ forms b (k + 1)) :
    meets k b c files.reverse = true := by
  have hn := h.le hc
  rw [hnamed.length] at hn
  obtain ⟨i, hpos, hle, heq⟩ := mem_forms.mp hform
  have hsame : c ∈ forms b (k + 1) → Inputs.meets k b c files.reverse = true := fun hmem => by
    unfold Inputs.meets
    rw [is_form_iff.mpr hmem, Bool.true_or]
  rcases candidate_meet hc hb heq with rfl | rfl | rfl
  · exact hsame (mem_forms.mpr ⟨1, Nat.le_refl 1, by omega, rfl⟩)
  · exact hsame (mem_forms.mpr ⟨i, hpos, hle, heq⟩)
  · by_cases hone : n = 1
    · rw [hone] at heq
      exact hsame (mem_forms.mpr ⟨1, Nat.le_refl 1, by omega, heq⟩)
    · have hbase : b ∈ forms c (k + 1) := mem_forms.mpr ⟨n, h.pos, by omega, heq.symm⟩
      -- Its own name is taken: a form of the name of a file before it.
      have hpos := h.pos
      have hown : c ∈ out := h.taken 1 (Nat.le_refl 1) (by omega)
      obtain ⟨before, f, after, given, m, rfl, hgiven, hid, hfirst, hform⟩ :=
        hnamed.split_of_mem hown
      have hm := hfirst.le (safe_name_component hid).1
      rw [hgiven.length] at hm
      have hlen : (before ++ f :: after).length = before.length + (after.length + 1) := by simp
      have hthere : is_form k (safe_name f.2 f.1) c = true :=
        is_form_iff.mpr (mem_forms.mpr ⟨m, hfirst.pos, by omega, hform⟩)
      unfold Inputs.meets
      rw [is_form_iff.mpr hbase, Bool.true_and, Bool.or_eq_true]
      exact .inr (List.any_eq_true.mpr ⟨f, by simp, hthere⟩)

theorem countP_mem_concat {l : List Text} (hl : l.Nodup) (out : List Text) (t : Text) :
    l.countP (· ∈ out ++ [t]) ≤ l.countP (· ∈ out) + if t ∈ l then 1 else 0 := by
  induction l with
  | nil => exact Nat.zero_le _
  | cons u l ih =>
    obtain ⟨hu, hl⟩ := List.nodup_cons.mp hl
    have hrest := ih hl
    rw [List.countP_cons, List.countP_cons]
    by_cases hut : u = t
    · subst hut
      rw [if_neg hu] at hrest
      rw [if_pos List.mem_cons_self]
      split_ifs <;> omega
    · have hmem : t ∈ u :: l ↔ t ∈ l := by simp [Ne.symm hut]
      have hin : u ∈ out ++ [t] ↔ u ∈ out := by simp [hut]
      simp only [hmem, hin] at hrest ⊢
      omega

theorem Named.countP_forms (h : Named files out) (hb : Component b) (hk : files.length ≤ k)
    (hn : n ≤ k + 1) : (forms b n).countP (· ∈ out) ≤ colliding k b files.reverse := by
  induction h with
  | nil => simp
  | @snoc files out file m hnamed hid hfirst ih =>
    rw [List.length_append, List.length_singleton] at hk
    have hrest := ih (by omega)
    have hstep := countP_mem_concat (forms_nodup hb n) out (candidate (safe_name file.2 file.1) m)
    rw [List.reverse_concat, colliding]
    split at hstep
    next hform =>
      obtain ⟨i, hpos, hle, heq⟩ := mem_forms.mp hform
      have hform : candidate (safe_name file.2 file.1) m ∈ forms b (k + 1) :=
        mem_forms.mpr ⟨i, hpos, by omega, heq⟩
      rw [if_pos (hfirst.meets hnamed hb (safe_name_component hid).1 (by omega) hform)]
      omega
    next => exact hstep.trans (hrest.trans (Nat.le_add_right _ _))

theorem Named.first_le (h : Named files out) (hb : Component b) (hfirst : First out b n) :
    n ≤ collisions b files + 1 := by
  have hn := hfirst.le hb
  rw [h.length] at hn
  have hcount : (forms b (n - 1)).countP (· ∈ out) = (forms b (n - 1)).length := by
    rw [List.countP_eq_length]
    exact fun t ht => decide_eq_true (hfirst.forms_subset ht)
  have hle := h.countP_forms hb (Nat.le_refl _) (n := n - 1) (by omega)
  rw [hcount, forms, List.length_map, List.length_range] at hle
  unfold collisions
  omega

theorem same_concat (file : Text × Text) (files : List (Text × Text)) :
    same b (files ++ [file]) = same b files + if safe_name file.2 file.1 = b then 1 else 0 := by
  unfold same
  rw [List.countP_append, List.countP_singleton]
  simp only [decide_eq_true_eq]

/-- Files of one safe name take its forms one after another. -/
theorem Named.first_forms (h : Named files out) (hpos : 1 ≤ i) (hi : i ≤ same b files) :
    candidate b i ∈ out := by
  induction h generalizing i with
  | nil => exact absurd (hpos.trans hi) (Nat.not_succ_le_zero 0)
  | @snoc files out file n hnamed hid hfirst ih =>
    rw [same_concat] at hi
    split at hi
    next hb =>
      rw [hb] at hfirst ⊢
      have hn : same b files < n := by
        by_contra hle
        exact hfirst.free (ih hfirst.pos (by omega))
      rcases Nat.lt_trichotomy i n with hlt | rfl | hgt
      · exact List.mem_append_left _ (hfirst.taken i hpos hlt)
      · exact List.mem_append_right _ List.mem_cons_self
      · omega
    next => exact List.mem_append_left _ (ih hpos hi)

theorem Named.same_lt (h : Named files out) (hfirst : First out b n) : same b files < n := by
  by_contra hle
  exact hfirst.free (h.first_forms hfirst.pos (by omega))

theorem fits_iff (hb : Component b) (hlen : b.length ≤ 100) :
    Fits b k ↔ (candidate b (k + 1)).length ≤ 100 := by
  unfold Fits candidate
  by_cases hk : k = 0
  · simp [hk, hlen]
  · rw [if_neg (by omega), numbered_length hb]
    simp [hk]

theorem Apart.colliding {file : Text × Text} (h : Apart files) (hfile : file ∈ files)
    {before : List (Text × Text)} (hsub : ∀ f ∈ before, f ∈ files) (k : Nat) :
    colliding k (safe_name file.2 file.1) before = same (safe_name file.2 file.1) before := by
  have hform : ∀ f ∈ files, ∀ g ∈ files,
      safe_name g.2 g.1 ∈ forms (safe_name f.2 f.1) (k + 1) ↔
        safe_name g.2 g.1 = safe_name f.2 f.1 := by
    intro f hf g hg
    rw [mem_forms]
    constructor
    · rintro ⟨i, hpos, -, heq⟩
      unfold candidate at heq
      split at heq
      · exact heq
      · exact absurd heq (h f hf g hg i (by omega))
    · exact fun heq => ⟨1, Nat.le_refl 1, by omega, heq⟩
  induction before with
  | nil => rfl
  | cons f before ih =>
    obtain ⟨hf, hsub⟩ := List.forall_mem_cons.mp hsub
    have hmeets : meets k (safe_name file.2 file.1) (safe_name f.2 f.1) before = true ↔
        safe_name f.2 f.1 = safe_name file.2 file.1 := by
      unfold meets
      rw [Bool.or_eq_true, Bool.and_eq_true, is_form_iff, is_form_iff, hform file hfile f hf,
        hform f hf file hfile]
      exact ⟨fun heq => heq.elim id fun heq => heq.1.symm, .inl⟩
    unfold same at ih ⊢
    rw [Inputs.colliding, ih hsub, List.countP_cons]
    simp only [hmeets, decide_eq_true_eq]

theorem Apart.collisions {file : Text × Text} {before after : List (Text × Text)}
    (h : Apart (before ++ file :: after)) :
    collisions (safe_name file.2 file.1) before = same (safe_name file.2 file.1) before := by
  have hsub : ∀ f ∈ before.reverse, f ∈ before ++ file :: after := fun f hf =>
    List.mem_append_left _ (List.mem_reverse.mp hf)
  unfold Inputs.collisions
  rw [h.colliding (by simp) hsub]
  exact List.countP_reverse

end Numbers

theorem Named.short (h : Named files out) (hfit : AllFit collisions files) :
    ∀ name ∈ out, name.length ≤ 100 := by
  intro name hname
  obtain ⟨before, file, after, given, n, rfl, hgiven, hid, hfirst, rfl⟩ := h.split_of_mem hname
  obtain ⟨hbase, hlen⟩ := @safe_name_component file.2 _ hid
  have hfit := (fits_iff hbase hlen).mp (hfit before file after rfl)
  exact (candidate_mono hbase hfirst.pos (hgiven.first_le hbase hfirst)).trans hfit

theorem Named.fits (h : Named files out) (hshort : ∀ name ∈ out, name.length ≤ 100) :
    AllFit same files := by
  intro before file after heq
  obtain ⟨given, n, hgiven, hid, hfirst, hmem⟩ := h.mem_of_split heq
  obtain ⟨hbase, hlen⟩ := @safe_name_component file.2 _ hid
  have hmono := candidate_mono hbase (Nat.succ_pos _) (hgiven.same_lt hfirst)
  exact (fits_iff hbase hlen).mpr (hmono.trans (hshort _ hmem))

end Fridica.Workers.Inputs
