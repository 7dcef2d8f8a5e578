import Mathlib.Data.List.Infix

/-!
# Parts of a list

Finding a list in another one and putting a mark in its place. A mark between two elements that a
list does not have makes no new place for that list.
-/

namespace Fridica.Infix

variable {α : Type} {p q a b t word : List α} {x l r : α}

/-! ## Around an element -/

theorem cut (ha : x ∉ a) (hb : x ∉ b) (h : a ++ x :: p = b ++ x :: q) : a = b ∧ p = q := by
  rcases List.append_eq_append_iff.mp h with ⟨c, rfl, hc⟩ | ⟨c, rfl, hc⟩ <;> cases c <;>
    simp_all

theorem cut_last (hp : x ∉ p) (hq : x ∉ q) (h : a ++ x :: p = b ++ x :: q) : a = b ∧ p = q := by
  have hreverse := congrArg List.reverse h
  simp only [List.reverse_append, List.reverse_cons, List.append_assoc,
    List.singleton_append] at hreverse
  obtain ⟨hpq, hab⟩ := cut (by rwa [List.mem_reverse]) (by rwa [List.mem_reverse]) hreverse
  exact ⟨List.reverse_injective hab, List.reverse_injective hpq⟩

theorem of_separator (hx : x ∉ p) (hp : p <+: t) (heq : q ++ t = a ++ x :: b) :
    p <:+: a ∨ t <:+ b := by
  rcases List.append_eq_append_iff.mp heq with ⟨c, ha, ht⟩ | ⟨c, hq, hb⟩
  · refine .inl ?_
    rw [ha]
    obtain ⟨d, hd⟩ := hp
    rw [← hd] at ht
    rcases List.append_eq_append_iff.mp ht with ⟨e, hc, -⟩ | ⟨e, hpe, hxe⟩
    · rw [hc]
      exact ⟨q, e, by simp⟩
    · cases e with
      | nil => exact ⟨q, [], by simp [hpe]⟩
      | cons y e =>
        obtain ⟨rfl, -⟩ := List.cons.inj hxe
        rw [hpe] at hx
        exact absurd (List.mem_append_right _ List.mem_cons_self) hx
  · cases c with
    | nil =>
      cases p with
      | nil => exact .inl List.nil_infix
      | cons y p =>
        rw [List.nil_append] at hb
        obtain ⟨d, hd⟩ := hp
        rw [← hb] at hd
        obtain ⟨rfl, -⟩ := List.cons.inj hd
        exact absurd List.mem_cons_self hx
    | cons y c => exact .inr ⟨c, (List.cons.inj hb).2.symm⟩

theorem infix_separator (hx : x ∉ p) (h : p <:+: a ++ x :: b) : p <:+: a ∨ p <:+: b := by
  obtain ⟨s, u, hsu⟩ := h
  rw [List.append_assoc] at hsu
  rcases of_separator hx (List.prefix_append p u) hsu with ha | hb
  · exact .inl ha
  · exact .inr ((List.prefix_append p u).isInfix.trans hb.isInfix)

theorem infix_intercalate {ws : List (List α)} (hp : p ≠ []) (hx : x ∉ p)
    (h : p <:+: [x].intercalate ws) : ∃ w ∈ ws, p <:+: w := by
  induction ws with
  | nil => exact absurd (List.infix_nil.mp h) hp
  | cons w ws ih =>
    cases ws with
    | nil =>
      rw [List.intercalate_singleton] at h
      exact ⟨w, List.mem_singleton.mpr rfl, h⟩
    | cons v ws =>
      rw [List.intercalate_cons_cons, List.append_assoc, List.singleton_append] at h
      rcases infix_separator hx h with hw | hrest
      · exact ⟨w, List.mem_cons_self, hw⟩
      · obtain ⟨u, hu, hin⟩ := ih hrest
        exact ⟨u, List.mem_cons_of_mem w hu, hin⟩

/-- The pieces of a list are parts of it, and the first one is its beginning. -/
theorem splitOnP_parts (f : α → Bool) (t : List α) :
    (∀ w ∈ (t.splitOnP f).head?, w <+: t) ∧ ∀ w ∈ t.splitOnP f, w <:+: t := by
  induction t with
  | nil => simp [List.splitOnP_nil]
  | cons c t ih =>
    obtain ⟨w, ws, hw⟩ := List.exists_cons_of_ne_nil (List.splitOnP_ne_nil f t)
    rw [hw] at ih
    rw [List.splitOnP_cons_eq_if_modifyHead, hw]
    have hrest : ∀ v ∈ w :: ws, v <:+: c :: t := fun v hv =>
      (ih.2 v hv).trans (List.suffix_cons c t).isInfix
    split
    · refine ⟨fun v hv => ?_, List.forall_mem_cons.mpr ⟨List.nil_infix, hrest⟩⟩
      rw [← Option.some.inj hv]
      exact List.nil_prefix
    · have hhead : c :: w <+: c :: t := List.prefix_cons_inj c |>.mpr (ih.1 w rfl)
      refine ⟨fun v hv => ?_, List.forall_mem_cons.mpr ⟨hhead.isInfix, fun v hv => ?_⟩⟩
      · rw [← Option.some.inj hv]
        exact hhead
      · exact hrest v (List.mem_cons_of_mem w hv)

/-- `split_once`: around the first place of an element. -/
def split_once [DecidableEq α] (x : α) (t : List α) : Option (List α × List α) :=
  if x ∈ t then some (t.takeWhile (· ≠ x), (t.dropWhile (· ≠ x)).tail) else none

theorem split_once_eq_some [DecidableEq α] :
    split_once x t = some (a, b) ↔ t = a ++ x :: b ∧ x ∉ a := by
  have hcut : ∀ a b, x ∉ a → split_once x (a ++ x :: b) = some (a, b) := by
    intro a b ha
    have hall : ∀ c ∈ a, decide (c ≠ x) = true := by
      intro c hc
      simp only [decide_eq_true_eq]
      rintro rfl
      exact ha hc
    unfold split_once
    rw [if_pos (by simp), List.takeWhile_append_of_pos hall, List.dropWhile_append_of_pos hall]
    simp
  constructor
  · intro h
    by_cases hx : x ∈ t
    · obtain ⟨l, r, rfl, hl⟩ := List.eq_append_cons_of_mem hx
      rw [hcut l r hl] at h
      obtain ⟨rfl, rfl⟩ := Prod.mk.inj (Option.some.inj h)
      exact ⟨rfl, hl⟩
    · rw [split_once, if_neg hx] at h
      cases h
  · rintro ⟨rfl, ha⟩
    exact hcut a b ha

/-! ## Marks -/

/-- A list that no mark between `l` and `r` around a word has anything of. -/
structure Unmarked (l r : α) (word p : List α) : Prop where
  left : l ∉ p
  right : r ∉ p
  word : ¬ p <:+: word

def mark (l r : α) (word : List α) : List α := l :: (word ++ [r])

theorem mark_append (a b : List α) : a ++ mark l r word ++ b = (a ++ l :: word) ++ r :: b := by
  simp [mark]

theorem Unmarked.ne_nil (h : Unmarked l r word p) : p ≠ [] := by
  rintro rfl
  exact h.word List.nil_infix

theorem Unmarked.infix_marked (h : Unmarked l r word p) (hp : p <:+: a ++ mark l r word ++ b) :
    p <:+: a ∨ p <:+: b := by
  rw [mark_append] at hp
  rcases infix_separator h.right hp with hleft | hb
  · rcases infix_separator h.left hleft with ha | hword
    · exact .inl ha
    · exact absurd hword h.word
  · exact .inr hb

theorem Unmarked.after_mark (h : Unmarked l r word p) (ha : ¬ p <:+: a) (hp : p <+: t)
    (heq : q ++ t = a ++ mark l r word ++ b) : t <:+ b := by
  rw [mark_append] at heq
  refine (of_separator h.right hp heq).resolve_left fun hleft => ?_
  rcases infix_separator h.left hleft with ha' | hword
  · exact ha ha'
  · exact h.word hword

/-! ## Finding and replacing -/

section Find

variable [DecidableEq α]

/-- The first place of a list: what is before it, and what begins with it. -/
def find (p : List α) : List α → Option (List α × List α)
  | [] => if p = [] then some ([], []) else none
  | c :: t =>
    if p.isPrefixOf (c :: t) then some ([], c :: t)
    else (find p t).map fun f => (c :: f.1, f.2)

theorem find_none (h : find p t = none) : ¬ p <:+: t := by
  induction t with
  | nil =>
    rw [List.infix_nil]
    intro hp
    rw [find, if_pos hp] at h
    cases h
  | cons c t ih =>
    rw [find] at h
    split at h
    next => cases h
    next hpre =>
      rw [List.infix_cons_iff, not_or]
      exact ⟨fun hp => hpre (List.isPrefixOf_iff_prefix.mpr hp), ih (Option.map_eq_none_iff.mp h)⟩

theorem find_some (hp : p ≠ []) (h : find p t = some (a, b)) :
    t = a ++ b ∧ p <+: b ∧ ¬ p <:+: a := by
  induction t generalizing a with
  | nil =>
    rw [find, if_neg hp] at h
    cases h
  | cons c t ih =>
    rw [find] at h
    split at h
    next hpre =>
      obtain ⟨rfl, rfl⟩ := Prod.mk.inj (Option.some.inj h)
      exact ⟨rfl, List.isPrefixOf_iff_prefix.mp hpre, fun hin => hp (List.infix_nil.mp hin)⟩
    next hpre =>
      obtain ⟨⟨a', b'⟩, hfind, heq⟩ := Option.map_eq_some_iff.mp h
      obtain ⟨rfl, rfl⟩ := Prod.mk.inj heq
      obtain ⟨rfl, hb, ha⟩ := ih hfind
      refine ⟨rfl, hb, ?_⟩
      rw [List.infix_cons_iff, not_or]
      refine ⟨fun hin => hpre (List.isPrefixOf_iff_prefix.mpr ?_), ha⟩
      exact hin.trans (List.prefix_append (c :: a') b')

/-- Every place of a list, from the left and without overlaps, after `skip` elements more of the
last one. -/
def replace (p new : List α) (skip : Nat) : List α → List α
  | [] => []
  | c :: t =>
    match skip with
    | skip + 1 => replace p new skip t
    | 0 =>
      if p.isPrefixOf (c :: t) then new ++ replace p new (p.length - 1) t
      else c :: replace p new 0 t

theorem replace_skip (p new : List α) (skip : Nat) (t : List α) :
    replace p new skip t = replace p new 0 (t.drop skip) := by
  induction t generalizing skip with
  | nil => simp [replace]
  | cons c t ih =>
    cases skip with
    | zero => rfl
    | succ skip => rw [replace, List.drop_succ_cons, ih]

theorem replace_find (hp : p ≠ []) (new t : List α) :
    replace p new 0 t =
      match find p t with
      | none => t
      | some (a, b) => a ++ new ++ replace p new 0 (b.drop p.length) := by
  induction t with
  | nil => rw [find, if_neg hp, replace]
  | cons c t ih =>
    rw [find, replace]
    split
    next =>
      rw [replace_skip]
      obtain ⟨n, hn⟩ : ∃ n, p.length = n + 1 :=
        Nat.exists_eq_succ_of_ne_zero fun h => hp (List.length_eq_zero_iff.mp h)
      rw [hn, Nat.add_sub_cancel]
      rfl
    next =>
      rw [ih]
      cases find p t <;> rfl

theorem replace_none (hp : p ≠ []) (new : List α) (h : find p t = none) : replace p new 0 t = t := by
  rw [replace_find hp, h]

theorem replace_some (hp : p ≠ []) (new : List α) (h : find p t = some (a, b)) :
    replace p new 0 t = a ++ new ++ replace p new 0 (b.drop p.length) := by
  rw [replace_find hp, h]

theorem replace_within (hp : p ≠ []) (hq : Unmarked l r word q)
    (h : q <:+: replace p (mark l r word) 0 t) : q <:+: t := by
  induction hn : t.length using Nat.strong_induction_on generalizing t with
  | _ n ih =>
    cases hfind : find p t with
    | none => rwa [replace_none hp _ hfind] at h
    | some f =>
      obtain ⟨a, b⟩ := f
      obtain ⟨rfl, hb, -⟩ := find_some hp hfind
      rw [replace_some hp _ hfind] at h
      rcases hq.infix_marked h with ha | hrest
      · exact ha.trans (List.prefix_append a b).isInfix
      · have hpos := List.length_pos_of_ne_nil hp
        have hlen := hb.length_le
        refine (ih (b.drop p.length).length ?_ hrest rfl).trans
          ((List.drop_suffix _ b).isInfix.trans (List.suffix_append a b).isInfix)
        rw [List.length_drop, ← hn, List.length_append]
        omega

/-- What is replaced by a mark is not there afterwards. -/
theorem replace_self (hp : Unmarked l r word p) : ¬ p <:+: replace p (mark l r word) 0 t := by
  induction hn : t.length using Nat.strong_induction_on generalizing t with
  | _ n ih =>
    cases hfind : find p t with
    | none =>
      rw [replace_none hp.ne_nil _ hfind]
      exact find_none hfind
    | some f =>
      obtain ⟨a, b⟩ := f
      obtain ⟨rfl, hb, ha⟩ := find_some hp.ne_nil hfind
      rw [replace_some hp.ne_nil _ hfind]
      intro hin
      rcases hp.infix_marked hin with hleft | hrest
      · exact ha hleft
      · have hpos := List.length_pos_of_ne_nil hp.ne_nil
        have hlen := hb.length_le
        refine ih (b.drop p.length).length ?_ rfl hrest
        rw [List.length_drop, ← hn, List.length_append]
        omega

end Find

end Fridica.Infix
