import Fridica.Config.Isolation.Spec

/-!
# What loads and what can be launched

The loader writes a path that it reads as the same path. The launch takes it when it fits.
-/

namespace Fridica.Config.Isolation

open Fridica.Checked Fridica.Path Fridica.Loader

variable {s p : Text}

/-! ## The parts of a path -/

/-- A part that says something. -/
structure Word (c : Text) : Prop where
  part : IsPart c
  no_dot : c ≠ ['.']
  no_dots : c ≠ ['.', '.']

theorem mem_of_mem_split {c : Char} {part : Text} (hpart : part ∈ split s) (hc : c ∈ part) :
    c ∈ s := by
  induction s generalizing part with
  | nil => simp_all [split]
  | cons x s ih =>
    rw [split] at hpart
    split at hpart
    · rcases List.mem_cons.mp hpart with rfl | hpart
      · cases hc
      · exact List.mem_cons_of_mem x (ih hpart hc)
    · cases hsplit : split s with
      | nil => exact absurd hsplit (split_ne_nil s)
      | cons first rest =>
        rw [hsplit] at hpart ih
        rcases List.mem_cons.mp hpart with rfl | hpart
        · rcases List.mem_cons.mp hc with rfl | hc
          · exact List.mem_cons_self
          · exact List.mem_cons_of_mem x (ih List.mem_cons_self hc)
        · exact List.mem_cons_of_mem x (ih (List.mem_cons_of_mem _ hpart) hc)

theorem mem_split_of_mem {c : Char} (hc : c ∈ s) (hslash : c ≠ '/') :
    ∃ part ∈ split s, c ∈ part := by
  induction s with
  | nil => cases hc
  | cons x s ih =>
    rw [split]
    split
    next hx =>
      have hmem : c ∈ s := (List.mem_cons.mp hc).resolve_left fun heq => hslash (heq.trans hx)
      obtain ⟨part, hpart, hin⟩ := ih hmem
      exact ⟨part, List.mem_cons_of_mem _ hpart, hin⟩
    next =>
      cases hsplit : split s with
      | nil => exact absurd hsplit (split_ne_nil s)
      | cons first rest =>
        rw [hsplit] at ih
        rcases List.mem_cons.mp hc with rfl | hmem
        · exact ⟨c :: first, List.mem_cons_self, List.mem_cons_self⟩
        · obtain ⟨part, hpart, hin⟩ := ih hmem
          rcases List.mem_cons.mp hpart with rfl | hpart
          · exact ⟨x :: part, List.mem_cons_self, List.mem_cons_of_mem x hin⟩
          · exact ⟨part, List.mem_cons_of_mem _ hpart, hin⟩

theorem kept_words (h : ['.', '.'] ∉ split s) : ∀ c ∈ kept s, Word c := by
  intro c hc
  obtain ⟨hmem, hkept⟩ := List.mem_filter.mp hc
  rw [decide_eq_true_eq] at hkept
  refine ⟨⟨hkept.1, not_mem_split s c hmem⟩, hkept.2, ?_⟩
  rintro rfl
  exact h hmem

theorem kept_printable : (∀ part ∈ kept s, ∀ c ∈ part, Text.is_control c = false) ↔
    ∀ c ∈ s, Text.is_control c = false := by
  constructor
  · intro h c hc
    by_cases hslash : c = '/'
    · rw [hslash]
      rfl
    · obtain ⟨part, hpart, hin⟩ := mem_split_of_mem hc hslash
      by_cases hdot : part = ['.']
      · rw [hdot, List.mem_singleton] at hin
        rw [hin]
        rfl
      · refine h part (List.mem_filter.mpr ⟨hpart, ?_⟩) c hin
        simp [hdot, List.ne_nil_of_mem hin]
  · intro h part hpart c hc
    exact h c (mem_of_mem_split (List.mem_filter.mp hpart).1 hc)

/-! ## What the loader writes -/

/-- The text of a root and parts. -/
def written (r : Root) (cs : List Text) : Text :=
  match r with
  | .one => joined cs
  | .two => '/' :: joined cs
  | .home => (joined cs).tail

/-- The parts are words, below a root or below a home. -/
structure Below (r : Root) (cs : List Text) : Prop where
  words : ∀ c ∈ cs, Word c
  nonempty : cs ≠ []
  home : r = .home → ∃ c ds, cs = ['~'] :: c :: ds

/-- What stands before the first part. -/
def lead : Root → List Text
  | .one => [[]]
  | .two => [[], []]
  | .home => []

section Below

variable {r : Root} {cs : List Text}

theorem Below.parts (h : Below r cs) : ∀ c ∈ cs, IsPart c := fun c hc => (h.words c hc).part

theorem Below.first (h : Below r cs) : ∃ x t, joined cs = '/' :: x :: t ∧ x ≠ '/' := by
  obtain ⟨c, ds, rfl⟩ := List.exists_cons_of_ne_nil h.nonempty
  obtain ⟨hne, hslash⟩ := h.parts c List.mem_cons_self
  obtain ⟨x, c, rfl⟩ := List.exists_cons_of_ne_nil hne
  refine ⟨x, c ++ joined ds, rfl, ?_⟩
  rintro rfl
  exact hslash List.mem_cons_self

theorem Below.written_home (h : Below .home cs) :
    ∃ c ds, cs = ['~'] :: c :: ds ∧ written .home cs = '~' :: joined (c :: ds) := by
  obtain ⟨c, ds, rfl⟩ := h.home rfl
  exact ⟨c, ds, rfl, rfl⟩

theorem Below.split (h : Below r cs) : split (written r cs) = lead r ++ cs := by
  cases r with
  | one => exact split_joined h.parts
  | two =>
    unfold written
    rw [Path.split, if_pos rfl, split_joined h.parts]
    rfl
  | home =>
    obtain ⟨c, ds, rfl, hwritten⟩ := h.written_home
    rw [hwritten]
    exact split_parts (h.parts _ List.mem_cons_self) fun d hd => h.parts d (List.mem_cons_of_mem _ hd)

theorem Below.kept (h : Below r cs) : kept (written r cs) = cs := by
  have hwords : cs.filter (fun part => part ≠ [] ∧ part ≠ ['.']) = cs := by
    rw [List.filter_eq_self]
    intro c hc
    have hword := h.words c hc
    simp [hword.part.1, hword.no_dot]
  unfold Isolation.kept
  rw [h.split, List.filter_append, hwords]
  cases r <;> rfl

theorem Below.root (h : Below r cs) : root (written r cs) = r := by
  obtain ⟨x, t, hjoined, hx⟩ := h.first
  unfold Isolation.root text
  cases r with
  | one => simp [written, hjoined, Ne.symm hx]
  | two => simp [written, hjoined, Ne.symm hx]
  | home =>
    obtain ⟨c, ds, rfl, hwritten⟩ := h.written_home
    simp [hwritten]

theorem loader_ok : Loader.remote_path s = .ok p ↔
    (text "/" <+: s ∨ text "~/" <+: s) ∧ ['.', '.'] ∉ Path.split s ∧
      p = (match Isolation.root s with | .one => text "/" | .two => text "//" | .home => []) ++
        ['/'].intercalate (Isolation.kept s) ∧
      p ∉ [text "/", text "//", text "~"] := by
  have hstart : (if text "//" <+: s ∧ ¬ text "///" <+: s then text "//"
      else if text "/" <+: s then text "/" else []) =
      match Isolation.root s with | .one => text "/" | .two => text "//" | .home => [] := by
    unfold Isolation.root
    split_ifs <;> rfl
  unfold Loader.remote_path
  rw [hstart]
  simp only [bind_ok, refuse_ok, pure_ok, not_not, exists_const]
  refine and_congr_right fun _ => and_congr_right fun _ => ?_
  constructor
  · rintro ⟨hbroad, rfl⟩
    exact ⟨rfl, hbroad⟩
  · rintro ⟨rfl, hbroad⟩
    exact ⟨hbroad, rfl⟩

theorem written_eq (hne : cs ≠ []) : written r cs =
    (match r with | .one => text "/" | .two => text "//" | .home => []) ++
      ['/'].intercalate cs := by
  have hrender : '/' :: ['/'].intercalate cs = render cs := cons_intercalate
  have hjoined := hrender.trans (render_of_ne hne)
  cases r with
  | one => exact hjoined.symm
  | two => exact congrArg ('/' :: ·) hjoined.symm
  | home => exact congrArg List.tail hjoined.symm

theorem split_home {t : Text} : Path.split ('~' :: '/' :: t) = ['~'] :: Path.split t := by
  simp [Path.split]

theorem read_ok (h : Loader.remote_path s = .ok p) :
    p = written (Isolation.root s) (Isolation.kept s) ∧
      Below (Isolation.root s) (Isolation.kept s) := by
  obtain ⟨hstart, hdots, rfl, hbroad⟩ := loader_ok.mp h
  simp only [List.mem_cons, List.not_mem_nil, or_false, not_or] at hbroad
  have hne : Isolation.kept s ≠ [] ∧
      (Isolation.root s = .home → ∃ c ds, Isolation.kept s = ['~'] :: c :: ds) := by
    cases hroot : Isolation.root s with
    | one =>
      rw [hroot] at hbroad
      exact ⟨fun hnil => hbroad.1 (by simp [hnil]), nofun⟩
    | two =>
      rw [hroot] at hbroad
      exact ⟨fun hnil => hbroad.2.1 (by simp [hnil]), nofun⟩
    | home =>
      rw [hroot] at hbroad
      have hslash : ¬ text "/" <+: s := by
        intro hpre
        unfold Isolation.root at hroot
        split_ifs at hroot
      obtain ⟨t, rfl⟩ := hstart.resolve_left hslash
      have hkept : Isolation.kept (text "~/" ++ t) = ['~'] :: Isolation.kept t := by
        unfold Isolation.kept text
        simp [split_home]
      rw [hkept] at hbroad ⊢
      refine ⟨List.cons_ne_nil _ _, fun _ => ?_⟩
      cases htail : Isolation.kept t with
      | nil =>
        rw [htail] at hbroad
        exact absurd (by simp [text]) hbroad.2.2
      | cons c ds => exact ⟨c, ds, rfl⟩
  exact ⟨(written_eq hne.1).symm, kept_words hdots, hne.1, hne.2⟩

/-- What is written is read as itself. -/
theorem Below.again (h : Below r cs) :
    Loader.remote_path (written r cs) = .ok (written r cs) := by
  obtain ⟨x, t, hjoined, hx⟩ := h.first
  rw [loader_ok, h.split, h.root, h.kept]
  refine ⟨?_, ?_, written_eq h.nonempty, ?_⟩
  · cases r with
    | one => exact .inl ⟨x :: t, by simp [written, hjoined, text]⟩
    | two => exact .inl ⟨'/' :: x :: t, by simp [written, hjoined, text]⟩
    | home =>
      obtain ⟨c, ds, rfl, hwritten⟩ := h.written_home
      exact .inr ⟨c ++ joined ds, by simp [hwritten, joined_cons, text]⟩
  · intro hmem
    rcases List.mem_append.mp hmem with hmem | hmem
    · cases r <;> simp [lead] at hmem
    · exact (h.words _ hmem).no_dots rfl
  · unfold text
    cases r with
    | one => simp [written, hjoined, hx]
    | two => simp [written, hjoined]
    | home =>
      obtain ⟨c, ds, rfl, hwritten⟩ := h.written_home
      simp [hwritten, joined_cons]

/-! ## What a launch takes -/

theorem len_slash (t : Text) : Utf8.len ('/' :: t) = Utf8.len t + 1 := by
  have hslash : Utf8.len ['/'] = 1 := rfl
  rw [← List.singleton_append, Utf8.len_append, hslash, Nat.add_comm]

theorem len_joined (cs : List Text) :
    Utf8.len (joined cs) = (cs.map fun part => Utf8.len part + 1).sum := by
  induction cs with
  | nil => rfl
  | cons c cs ih =>
    rw [joined_cons, List.map_cons, List.sum_cons, ← ih, len_slash, Utf8.len_append]
    omega

theorem Below.short (h : Below r cs) : Utf8.len (written r cs) ≤ 4096 ↔
    (cs.map fun part => Utf8.len part + 1).sum ≤ r.limit := by
  rw [← len_joined]
  cases r with
  | one => exact Iff.rfl
  | two =>
    rw [written, len_slash, Root.limit]
    omega
  | home =>
    obtain ⟨x, t, hjoined, -⟩ := h.first
    rw [written, hjoined, List.tail_cons, len_slash, Root.limit]
    omega

theorem Below.mem_written (h : Below r cs) {x : Char} (hx : x ≠ '/') :
    x ∈ written r cs ↔ ∃ c ∈ cs, x ∈ c := by
  have hjoined : x ∈ joined cs ↔ ∃ c ∈ cs, x ∈ c := by
    simp [joined, hx]
  rw [← hjoined]
  cases r with
  | one => exact Iff.rfl
  | two => simp [written, hx]
  | home =>
    obtain ⟨y, t, heq, -⟩ := h.first
    simp [written, heq, hx]

theorem Below.printable (h : Below r cs) : (written r cs).any Text.is_control = false ↔
    ∀ c ∈ cs, ∀ x ∈ c, Text.is_control x = false := by
  rw [List.any_eq_false]
  constructor
  · intro hall c hc x hx
    have hslash : x ≠ '/' := by
      rintro rfl
      exact (h.parts c hc).2 hx
    simpa using hall x ((h.mem_written hslash).mpr ⟨c, hc, hx⟩)
  · intro hall x hx
    by_cases hslash : x = '/'
    · rw [hslash]
      decide
    · obtain ⟨c, hc, hin⟩ := (h.mem_written hslash).mp hx
      simp [hall c hc x hin]

theorem Below.no_slash (h : Below r cs) : (written r cs).getLast? ≠ some '/' := by
  have hsame : (written r cs).getLast? = (joined cs).getLast? := by
    obtain ⟨x, t, hjoined, -⟩ := h.first
    cases r with
    | one => rfl
    | two => rw [written, hjoined, List.getLast?_cons_cons]
    | home => rw [written, hjoined, List.tail_cons, List.getLast?_cons_cons]
  rw [hsame]
  intro hlast
  obtain ⟨t, ht⟩ := List.getLast?_eq_some_iff.mp hlast
  have hstrip := rstrip_joined h.parts
  rw [ht, rstrip, List.rdropWhile_concat_pos _ _ _ (by simp)] at hstrip
  have hlen := congrArg List.length hstrip
  have hle := (List.rdropWhile_prefix (fun c => decide (c = '/')) t).length_le
  simp at hlen
  omega

theorem components_ne_nil {v c : Text} (hmem : c ∈ Path.split v) (hc : Word c) :
    components v ≠ [] := by
  intro hnil
  have hall := List.filterMap_eq_nil_iff.mp hnil c hmem
  simp [hc.part.1, hc.no_dot, hc.no_dots] at hall

theorem Below.launchable (h : Below r cs) :
    is_absolute (expanded (written r cs)) = true ∧ components (expanded (written r cs)) ≠ [] := by
  obtain ⟨c, ds, rfl⟩ := List.exists_cons_of_ne_nil h.nonempty
  have hfirst := h.words c List.mem_cons_self
  obtain ⟨x, t, hjoined, hx⟩ := h.first
  have hroot : r ≠ .home → expanded (written r (c :: ds)) = written r (c :: ds) := by
    intro hne
    unfold expanded text
    cases r with
    | one => simp [written, hjoined]
    | two => simp [written, hjoined]
    | home => exact absurd rfl hne
  have hsplit : c ∈ Path.split (written r (c :: ds)) := by
    rw [h.split]
    simp
  cases r with
  | one =>
    rw [hroot nofun]
    exact ⟨by simp [is_absolute, written, hjoined], components_ne_nil hsplit hfirst⟩
  | two =>
    rw [hroot nofun]
    exact ⟨by simp [is_absolute, written], components_ne_nil hsplit hfirst⟩
  | home =>
    obtain ⟨d, es, -, hwritten⟩ := h.written_home
    have hexpanded : expanded (written .home (c :: ds)) =
        text "/remote-home" ++ '/' :: (d ++ joined es) := by
      rw [hwritten]
      unfold expanded text
      simp [joined_cons]
    rw [hexpanded]
    refine ⟨rfl, components_ne_nil (c := text "remote-home") ?_
      ⟨⟨by decide, by decide⟩, by decide, by decide⟩⟩
    rw [split_slash]
    exact List.mem_append_left _ (by decide)

theorem Below.launches (h : Below r cs) : remote_path (written r cs) = true ↔
    (∀ c ∈ cs, ∀ x ∈ c, Text.is_control x = false) ∧
      (cs.map fun part => Utf8.len part + 1).sum ≤ r.limit := by
  obtain ⟨habsolute, hcomponents⟩ := h.launchable
  have hdots : ((Path.split (written r cs)).any fun part =>
      decide (part = ['.'] ∨ part = ['.', '.'])) = false := by
    rw [h.split, List.any_eq_false]
    intro c hc
    rcases List.mem_append.mp hc with hc | hc
    · cases r <;> simp [lead] at hc <;> simp [hc]
    · simp [(h.words c hc).no_dot, (h.words c hc).no_dots]
  unfold remote_path
  rw [hdots, ← h.printable, ← h.short]
  simp [habsolute, hcomponents, h.no_slash, and_comm]

end Below

/-- **A remote workspace that loads can be launched exactly when it fits.** The loader reads what it
wrote as itself; whether a launch takes it rests on its length and on control characters alone. -/
theorem launches_iff (s p : Text) (h : Loader.remote_path s = .ok p) :
    Loader.remote_path p = .ok p ∧
      ((Loader.remote_path p = .ok p ∧ remote_path p = true) ↔ Fits s) := by
  obtain ⟨rfl, hbelow⟩ := read_ok h
  have hagain := hbelow.again
  refine ⟨hagain, ?_⟩
  rw [hbelow.launches, kept_printable]
  exact ⟨fun ⟨_, hprintable, hshort⟩ => ⟨hprintable, hshort⟩,
    fun hfits => ⟨hagain, hfits.printable, hfits.short⟩⟩

theorem launches_iff_home : remote_path (text "~/work/repo") = true := by
  have hload : Loader.remote_path (text "~/work//./repo/") = .ok (text "~/work/repo") := by rfl
  have hprintable : (text "~/work//./repo/").any Text.is_control = false := by decide
  refine ((launches_iff _ _ hload).2.mpr ⟨?_, ?_⟩).2
  · simpa using hprintable
  · decide

/-- A newline in a path loads, and no launch takes it. -/
theorem newline_not_launched :
    Loader.remote_path (text "/a\nb") = .ok (text "/a\nb") ∧ remote_path (text "/a\nb") = false := by
  exact ⟨rfl, by decide⟩

end Fridica.Config.Isolation
