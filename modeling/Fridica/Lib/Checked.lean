import Mathlib.Data.List.Forall2

/-!
# Checked computations

Code that refuses its input with an error: one check, a chain of checks, and a
loop of them over a list with an accumulator.
-/

namespace Fridica.Checked

variable {ε α β σ : Type}

/-- `if c {bail!(e)}` -/
def refuse (c : Prop) [Decidable c] (e : ε) : Except ε Unit :=
  if c then .error e else .ok ()

@[simp] theorem refuse_ok {c : Prop} [Decidable c] {e : ε} {u : Unit} :
    refuse c e = .ok u ↔ ¬ c := by
  unfold refuse
  split <;> simp_all

@[simp] theorem bind_ok {x : Except ε α} {f : α → Except ε β} {b : β} :
    x >>= f = .ok b ↔ ∃ a, x = .ok a ∧ f a = .ok b := by
  cases x with
  | error e => simp [bind, Except.bind]
  | ok a => simp [bind, Except.bind]

@[simp] theorem pure_ok {a b : α} : (pure a : Except ε α) = .ok b ↔ a = b := by
  simp [pure, Except.pure]

theorem foldlM_ok {f : σ → α → Except ε σ} {l : List α} {s t : σ}
    (h : l.foldlM f s = .ok t) : ∀ x ∈ l, ∃ a b, f a x = .ok b := by
  induction l generalizing s with
  | nil => simp
  | cons y l ih =>
    rw [List.foldlM_cons, bind_ok] at h
    obtain ⟨a, hy, hrest⟩ := h
    rintro x (_ | ⟨_, hx⟩)
    · exact ⟨s, a, hy⟩
    · exact ih hrest x hx

theorem foldlM_keeps {f : σ → α → Except ε σ} (I : σ → Prop)
    (hf : ∀ a x b, I a → f a x = .ok b → I b) {l : List α} {s t : σ} (hs : I s)
    (h : l.foldlM f s = .ok t) : I t := by
  induction l generalizing s with
  | nil =>
    rw [List.foldlM_nil, pure_ok] at h
    exact h ▸ hs
  | cons y l ih =>
    rw [List.foldlM_cons, bind_ok] at h
    obtain ⟨a, hy, hrest⟩ := h
    exact ih (hf s y a hs hy) hrest

theorem foldlM_collects {ι : Type} {R : σ → List ι → σ → Prop} (ids : α → List ι)
    (hnil : ∀ s, R s [] s) (happend : ∀ s t u k m, R s k t → R t m u → R s (k ++ m) u)
    {f : σ → α → Except ε σ} (hf : ∀ a x b, f a x = .ok b → R a (ids x) b) {l : List α} {s t : σ}
    (h : l.foldlM f s = .ok t) : R s (l.flatMap ids) t := by
  induction l generalizing s with
  | nil =>
    rw [List.foldlM_nil, pure_ok] at h
    exact h ▸ hnil s
  | cons y l ih =>
    rw [List.foldlM_cons, bind_ok] at h
    obtain ⟨a, hy, hrest⟩ := h
    exact happend s a t _ _ (hf s y a hy) (ih hrest)

theorem mapM_ok {f : α → Except ε β} {l : List α} {r : List β} (h : l.mapM f = .ok r) :
    ∀ y ∈ r, ∃ x ∈ l, f x = .ok y := by
  induction l generalizing r with
  | nil =>
    rw [List.mapM_nil, pure_ok] at h
    simp [← h]
  | cons x l ih =>
    simp only [List.mapM_cons, bind_ok, pure_ok] at h
    obtain ⟨z, hz, zs, hzs, rfl⟩ := h
    rintro y (_ | ⟨_, hy⟩)
    · exact ⟨x, List.mem_cons_self, hz⟩
    · obtain ⟨w, hw, hwy⟩ := ih hzs y hy
      exact ⟨w, List.mem_cons_of_mem x hw, hwy⟩

theorem mapM_all {f : α → Except ε β} {l : List α} {r : List β} (h : l.mapM f = .ok r) :
    ∀ x ∈ l, ∃ y ∈ r, f x = .ok y := by
  induction l generalizing r with
  | nil => exact nofun
  | cons x l ih =>
    simp only [List.mapM_cons, bind_ok, pure_ok] at h
    obtain ⟨z, hz, zs, hzs, rfl⟩ := h
    rintro y (_ | ⟨_, hy⟩)
    · exact ⟨z, List.mem_cons_self, hz⟩
    · obtain ⟨w, hw, hyw⟩ := ih hzs y hy
      exact ⟨w, List.mem_cons_of_mem z hw, hyw⟩

/-! ## Item by item -/

theorem exists_of_mem_right {R : α → β → Prop} {l : List α} {l' : List β}
    (h : List.Forall₂ R l l') {y : β} (hy : y ∈ l') : ∃ x ∈ l, R x y := by
  induction h with
  | nil => cases hy
  | cons hxy _ ih =>
    rcases List.mem_cons.mp hy with rfl | hy
    · exact ⟨_, List.mem_cons_self .., hxy⟩
    · obtain ⟨x, hx, hr⟩ := ih hy
      exact ⟨x, List.mem_cons_of_mem _ hx, hr⟩

theorem mapM_forall₂ {f : α → Option β} {l : List α} {l' : List β}
    (h : l.mapM f = some l') : List.Forall₂ (fun a b => f a = some b) l l' := by
  induction l generalizing l' with
  | nil =>
    rw [List.mapM_nil] at h
    rw [← Option.some.inj h]
    exact .nil
  | cons a l ih =>
    rw [List.mapM_cons] at h
    obtain ⟨b, hb, h⟩ := Option.bind_eq_some_iff.mp h
    obtain ⟨bs, hbs, h⟩ := Option.bind_eq_some_iff.mp h
    rw [← Option.some.inj h]
    exact .cons hb (ih hbs)

theorem mapM_append {f : α → Option β} {l₁ l₂ : List α} {r₁ r₂ : List β}
    (h₁ : l₁.mapM f = some r₁) (h₂ : l₂.mapM f = some r₂) :
    (l₁ ++ l₂).mapM f = some (r₁ ++ r₂) := by
  rw [List.mapM_append, h₁, h₂]
  rfl

end Fridica.Checked
