import Mathlib.Data.List.DropRight
import Mathlib.Data.List.Infix

/-!
# Paths

Paths as text, and as the list of their components. On normal paths the tests of the text are tests
of the components.
-/

namespace Fridica.Path

abbrev Text := List Char

scoped instance : LawfulBEq Text := List.instLawfulBEq

/-! ## Components -/

/-- The parts between the slashes, of which there is at least one. -/
def split : Text → List Text
  | [] => [[]]
  | c :: cs =>
    if c = '/' then [] :: split cs
    else
      match split cs with
      | part :: parts => (c :: part) :: parts
      | [] => [[c]]

/-- The components of an absolute path. -/
def parts (p : Text) : List Text := (split p).tail.filter (· ≠ [])

def IsPart (c : Text) : Prop := c ≠ [] ∧ '/' ∉ c

instance (c : Text) : Decidable (IsPart c) := inferInstanceAs (Decidable (_ ∧ _))

def joined (cs : List Text) : Text := cs.flatMap ('/' :: ·)

def render (cs : List Text) : Text := if cs = [] then ['/'] else joined cs

/-- A path that is written without empty components and without a slash at its end. -/
def Normal (p : Text) : Prop := ∃ cs : List Text, (∀ c ∈ cs, IsPart c) ∧ p = render cs

def rstrip (p : Text) : Text := p.rdropWhile (· = '/')

/-- `os.path.dirname` -/
def dirname (p : Text) : Text :=
  let head := p.rdropWhile (· ≠ '/')
  if head.all (· = '/') then head else rstrip head

theorem split_ne_nil (p : Text) : split p ≠ [] := by
  cases p with
  | nil => exact nofun
  | cons c p =>
    unfold split
    split
    · exact nofun
    · split <;> exact nofun

theorem split_slash (a b : Text) : split (a ++ '/' :: b) = split a ++ split b := by
  induction a with
  | nil => simp [split]
  | cons c a ih =>
    by_cases hc : c = '/'
    · simp [split, hc, ih]
    · rw [List.cons_append, split, if_neg hc, split, if_neg hc, ih]
      cases h : split a with
      | nil => exact absurd h (split_ne_nil a)
      | cons part parts => rfl

theorem split_part {c : Text} (h : '/' ∉ c) : split c = [c] := by
  induction c with
  | nil => rfl
  | cons x c ih =>
    rw [List.mem_cons, not_or] at h
    rw [split, if_neg (Ne.symm h.1), ih h.2]

theorem not_mem_split (p : Text) : ∀ c ∈ split p, '/' ∉ c := by
  induction p with
  | nil => simp [split]
  | cons x p ih =>
    intro c hc
    rw [split] at hc
    split at hc
    · rcases List.mem_cons.mp hc with rfl | hc
      · exact List.not_mem_nil
      · exact ih c hc
    · rename_i hx
      cases hsplit : split p with
      | nil => exact absurd hsplit (split_ne_nil p)
      | cons part parts =>
        rw [hsplit] at hc ih
        rcases List.mem_cons.mp hc with rfl | hc
        · rw [List.mem_cons, not_or]
          exact ⟨Ne.symm hx, ih part List.mem_cons_self⟩
        · exact ih c (List.mem_cons_of_mem part hc)

section Rendered

variable {cs ds : List Text} {c : Text}

@[simp] theorem joined_nil : joined [] = [] := rfl

theorem joined_cons : joined (c :: cs) = '/' :: (c ++ joined cs) := rfl

theorem joined_append : joined (cs ++ ds) = joined cs ++ joined ds := by
  unfold joined
  rw [List.flatMap_append]

theorem joined_concat : joined (cs ++ [c]) = joined cs ++ '/' :: c := by
  rw [joined_append, joined_cons, joined_nil, List.append_nil]

theorem render_of_ne (h : cs ≠ []) : render cs = joined cs := if_neg h

theorem split_parts (hc : IsPart c) (h : ∀ c ∈ cs, IsPart c) :
    split (c ++ joined cs) = c :: cs := by
  induction cs generalizing c with
  | nil => rw [joined_nil, List.append_nil, split_part hc.2]
  | cons d cs ih =>
    rw [joined_cons, split_slash, split_part hc.2,
      ih (h d List.mem_cons_self) fun x hx => h x (List.mem_cons_of_mem d hx)]
    rfl

theorem split_joined (h : ∀ c ∈ cs, IsPart c) : split (joined cs) = [] :: cs := by
  cases cs with
  | nil => rfl
  | cons c cs =>
    rw [joined_cons, split, if_pos rfl,
      split_parts (h c List.mem_cons_self) fun x hx => h x (List.mem_cons_of_mem c hx)]

theorem parts_render (h : ∀ c ∈ cs, IsPart c) : parts (render cs) = cs := by
  unfold parts render
  split
  · rename_i hcs
    rw [hcs]
    rfl
  · rw [split_joined h, List.tail_cons, List.filter_eq_self]
    intro c hc
    simpa using (h c hc).1

theorem cons_intercalate : '/' :: ['/'].intercalate cs = render cs := by
  cases cs with
  | nil => rfl
  | cons c cs =>
    rw [render_of_ne (List.cons_ne_nil c cs), joined_cons]
    congr 1
    induction cs generalizing c with
    | nil => simp [List.intercalate]
    | cons d cs ih =>
      rw [joined_cons, ← ih d]
      simp [List.intercalate]

theorem normal_render (h : ∀ c ∈ cs, IsPart c) : Normal (render cs) := ⟨cs, h, rfl⟩

theorem render_injective (hcs : ∀ c ∈ cs, IsPart c) (hds : ∀ c ∈ ds, IsPart c)
    (h : render cs = render ds) : cs = ds := by
  rw [← parts_render hcs, ← parts_render hds, h]

/-! ## Slashes at the end -/

theorem rstrip_part (h : IsPart c) (p : Text) : rstrip (p ++ c) = p ++ c := by
  rcases List.eq_nil_or_concat c with rfl | ⟨c, x, rfl⟩
  · exact absurd rfl h.1
  · have hx : x ≠ '/' := by
      rintro rfl
      exact h.2 (by simp)
    rw [List.concat_eq_append, ← List.append_assoc]
    exact List.rdropWhile_concat_neg _ _ _ (by simpa using hx)

theorem rstrip_joined (h : ∀ c ∈ cs, IsPart c) : rstrip (joined cs) = joined cs := by
  rcases List.eq_nil_or_concat cs with rfl | ⟨cs, c, rfl⟩
  · rfl
  · rw [List.concat_eq_append] at h ⊢
    rw [joined_concat, List.append_cons]
    exact rstrip_part (h c (by simp)) _

theorem rstrip_render (h : ∀ c ∈ cs, IsPart c) : rstrip (render cs) = joined cs := by
  unfold render
  split
  · rename_i hcs
    rw [hcs]
    rfl
  · exact rstrip_joined h

theorem rstrip_append (hcs : ∀ c ∈ cs, IsPart c) (hne : ds ≠ []) :
    rstrip (render cs) ++ joined ds = render (cs ++ ds) := by
  rw [rstrip_render hcs, render_of_ne (by simp [hne]), joined_append]

theorem rdropWhile_part {p : Text} (h : '/' ∉ c) :
    (p ++ '/' :: c).rdropWhile (· ≠ '/') = p ++ ['/'] := by
  induction c using List.reverseRecOn with
  | nil => exact List.rdropWhile_concat_neg _ _ _ (by simp)
  | append_singleton c x ih =>
    rw [List.mem_append, not_or, List.mem_singleton] at h
    rw [← List.cons_append, ← List.append_assoc,
      List.rdropWhile_concat_pos _ _ _ (by simpa using Ne.symm h.2)]
    exact ih h.1

theorem dirname_render (h : ∀ c ∈ cs, IsPart c) : dirname (render cs) = render cs.dropLast := by
  rcases List.eq_nil_or_concat cs with rfl | ⟨cs, c, rfl⟩
  · rfl
  rw [List.concat_eq_append] at h ⊢
  have hcs : ∀ d ∈ cs, IsPart d := fun d hd => h d (List.mem_append_left _ hd)
  rw [List.dropLast_concat, render_of_ne (by simp), joined_concat]
  unfold dirname
  dsimp only
  rw [rdropWhile_part (h c (by simp)).2]
  cases cs with
  | nil => rfl
  | cons d cs =>
    obtain ⟨x, hx⟩ := List.exists_mem_of_ne_nil d (hcs d List.mem_cons_self).1
    have hslash : x ≠ '/' := by
      rintro rfl
      exact (hcs d List.mem_cons_self).2 hx
    have hmem : x ∈ joined (d :: cs) ++ ['/'] := by
      rw [joined_cons]
      simp [hx]
    have hall : ¬ (joined (d :: cs) ++ ['/']).all (· = '/') = true := by
      intro hall
      exact hslash (of_decide_eq_true (List.all_eq_true.mp hall x hmem))
    rw [if_neg hall, render_of_ne (by simp)]
    unfold rstrip
    rw [List.rdropWhile_concat_pos _ _ _ (by simp)]
    exact rstrip_joined hcs

end Rendered

/-! ## Normal paths -/

section Normal

variable {p q : Text}

theorem Normal.parts (h : Normal p) :
    (∀ c ∈ Path.parts p, IsPart c) ∧ render (Path.parts p) = p := by
  obtain ⟨cs, hcs, rfl⟩ := h
  rw [parts_render hcs]
  exact ⟨hcs, rfl⟩

theorem length_joined (cs : List Text) : cs.length ≤ (joined cs).length := by
  induction cs with
  | nil => exact Nat.le_refl 0
  | cons c cs ih =>
    rw [joined_cons, List.length_cons, List.length_cons, List.length_append]
    omega

theorem Normal.length_parts (h : Normal p) : (Path.parts p).length ≤ p.length := by
  obtain ⟨cs, hcs, rfl⟩ := h
  rw [parts_render hcs]
  unfold render
  split
  · rename_i hnil
    simp [hnil]
  · exact length_joined cs

theorem Normal.dirname (h : Normal p) :
    Normal (dirname p) ∧ Path.parts (Path.dirname p) = (Path.parts p).dropLast := by
  obtain ⟨cs, hcs, rfl⟩ := h
  have hlast : ∀ c ∈ cs.dropLast, IsPart c := fun c hc => hcs c (List.mem_of_mem_dropLast hc)
  rw [dirname_render hcs, parts_render hlast, parts_render hcs]
  exact ⟨normal_render hlast, rfl⟩

theorem Normal.below {ds : List Text} (h : Normal p) (hds : ∀ d ∈ ds, IsPart d) (hne : ds ≠ []) :
    Normal (rstrip p ++ joined ds) ∧
      Path.parts (rstrip p ++ joined ds) = Path.parts p ++ ds := by
  obtain ⟨cs, hcs, rfl⟩ := h
  have hall : ∀ c ∈ cs ++ ds, IsPart c := fun c hc =>
    (List.mem_append.mp hc).elim (hcs c) (hds c)
  rw [rstrip_append hcs hne, parts_render hall, parts_render hcs]
  exact ⟨normal_render hall, rfl⟩

theorem Normal.rstrip (h : Normal p) (hne : p ≠ ['/']) : Path.rstrip p = p := by
  obtain ⟨cs, hcs, rfl⟩ := h
  rw [rstrip_render hcs]
  unfold render at hne ⊢
  split at hne
  · exact absurd rfl hne
  · rw [if_neg ‹_›]

theorem split_rstrip {ds : List Text} (hds : ∀ d ∈ ds, IsPart d) (r : Text) :
    Path.parts (joined ds ++ '/' :: r) = ds ++ (split r).filter (· ≠ []) := by
  unfold Path.parts
  rw [split_slash, split_joined hds, List.cons_append, List.tail_cons, List.filter_append]
  congr 1
  rw [List.filter_eq_self]
  intro d hd
  simpa using (hds d hd).1

theorem Normal.within_iff (hp : Normal p) (hq : Normal q) :
    (p = q ∨ Path.rstrip q ++ ['/'] <+: p) ↔ Path.parts q <+: Path.parts p := by
  obtain ⟨cs, hcs, rfl⟩ := hp
  obtain ⟨ds, hds, rfl⟩ := hq
  rw [rstrip_render hds, parts_render hcs, parts_render hds]
  constructor
  · rintro (h | ⟨r, hr⟩)
    · rw [render_injective hcs hds h]
    · rw [← parts_render hcs, ← hr, List.append_assoc, List.singleton_append, split_rstrip hds]
      exact List.prefix_append _ _
  · rintro ⟨es, rfl⟩
    cases es with
    | nil => exact .inl (by rw [List.append_nil])
    | cons e es =>
      right
      rw [render_of_ne (by simp), joined_append, joined_cons]
      exact ⟨e ++ joined es, by simp⟩

end Normal

end Fridica.Path
