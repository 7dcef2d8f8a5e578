import Mathlib.Logic.Basic

/-!
# Stateful computations that can fail

A computation changes a state and gives a value or an error. What it changed before an error stays
changed. `wp m Q E s` says how `m` ends when it starts in `s`: with a value and a state in `Q`, or
with an error and a state in `E`.
-/

namespace Fridica.Effect

abbrev Act (σ ε α : Type) := ExceptT ε (StateM σ) α

variable {σ ε α β : Type}

def outcome (m : Act σ ε α) (s : σ) : Except ε α × σ := m.run.run s

/-- The state that a computation leaves, whether it succeeds or fails. -/
def after (m : Act σ ε α) (s : σ) : σ := (outcome m s).2

/-- The value or the error as a value. -/
def attempt (m : Act σ ε α) : Act σ ε (Except ε α) :=
  ExceptT.mk (do return .ok (← m.run))

def wp (m : Act σ ε α) (Q : α → σ → Prop) (E : ε → σ → Prop) (s : σ) : Prop :=
  match outcome m s with
  | (.ok a, t) => Q a t
  | (.error e, t) => E e t

variable {Q Q' : α → σ → Prop} {E E' : ε → σ → Prop} {s : σ}

@[simp] theorem wp_pure {a : α} : wp (pure a) Q E s ↔ Q a s := Iff.rfl

@[simp] theorem wp_throw {e : ε} : wp (throw e : Act σ ε α) Q E s ↔ E e s := Iff.rfl

@[simp] theorem wp_get {Q : σ → σ → Prop} : wp (get : Act σ ε σ) Q E s ↔ Q s s := Iff.rfl

@[simp] theorem wp_set {t : σ} {Q : PUnit → σ → Prop} :
    wp (set t : Act σ ε PUnit) Q E s ↔ Q ⟨⟩ t := Iff.rfl

@[simp] theorem wp_modify {f : σ → σ} {Q : PUnit → σ → Prop} :
    wp (modify f : Act σ ε PUnit) Q E s ↔ Q ⟨⟩ (f s) := Iff.rfl

theorem outcome_bind {m : Act σ ε α} {f : α → Act σ ε β} : outcome (m >>= f) s =
    match outcome m s with
    | (.ok a, t) => outcome (f a) t
    | (.error e, t) => (.error e, t) := by
  unfold outcome
  rw [ExceptT.run_bind, StateT.run_bind]
  rcases h : StateT.run m.run s with ⟨_ | _, t⟩ <;> simp <;> rfl

@[simp] theorem wp_bind {m : Act σ ε α} {f : α → Act σ ε β} {Q : β → σ → Prop} :
    wp (m >>= f) Q E s ↔ wp m (fun a => wp (f a) Q E) E s := by
  unfold wp
  rw [outcome_bind]
  rcases outcome m s with ⟨_ | _, t⟩ <;> rfl

@[simp] theorem wp_map {m : Act σ ε α} {f : α → β} {Q : β → σ → Prop} :
    wp (f <$> m) Q E s ↔ wp m (fun a => Q (f a)) E s := by
  rw [map_eq_pure_bind, wp_bind]
  rfl

@[simp] theorem wp_attempt {m : Act σ ε α} {Q : Except ε α → σ → Prop} :
    wp (attempt m) Q E s ↔ wp m (fun a => Q (.ok a)) (fun e => Q (.error e)) s := by
  unfold wp
  have h : outcome (attempt m) s = (.ok (outcome m s).1, (outcome m s).2) := rfl
  rw [h]
  rcases outcome m s with ⟨_ | _, t⟩ <;> rfl

theorem wp_ite {c : Prop} [Decidable c] {m m' : Act σ ε α} :
    wp (if c then m else m') Q E s ↔ (c → wp m Q E s) ∧ (¬ c → wp m' Q E s) := by
  by_cases hc : c
  · simp [hc]
  · simp [hc]

theorem wp_mono {m : Act σ ε α} (h : wp m Q E s) (hQ : ∀ a t, Q a t → Q' a t)
    (hE : ∀ e t, E e t → E' e t) : wp m Q' E' s := by
  unfold wp at h ⊢
  split at h
  · exact hQ _ _ h
  · exact hE _ _ h

/-- An action has one exit or the other. -/
theorem wp_cases {m : Act σ ε α} (h : wp m Q E s) :
    (∃ a t, outcome m s = (.ok a, t) ∧ Q a t) ∨ ∃ e t, outcome m s = (.error e, t) ∧ E e t := by
  unfold wp at h
  split at h
  next a t heq => exact .inl ⟨a, t, heq, h⟩
  next e t heq => exact .inr ⟨e, t, heq, h⟩

theorem wp_ok {m : Act σ ε α} {a : α} {t : σ} (h : wp m Q E s)
    (hm : outcome m s = (.ok a, t)) : Q a t := by
  unfold wp at h
  rwa [hm] at h

theorem wp_error {m : Act σ ε α} {e : ε} {t : σ} (h : wp m Q E s)
    (hm : outcome m s = (.error e, t)) : E e t := by
  unfold wp at h
  rwa [hm] at h

theorem wp_self {m : Act σ ε α} (h : wp m Q E s) :
    wp m (fun a t => Q a t ∧ outcome m s = (.ok a, t)) E s := by
  rcases wp_cases h with ⟨a, t, hm, ha⟩ | ⟨e, t, hm, he⟩
  · simp only [wp, hm]
    exact ⟨ha, trivial⟩
  · simp only [wp, hm]
    exact he

theorem wp_after {m : Act σ ε α} {P : σ → Prop} (h : wp m (fun _ => P) (fun _ => P) s) :
    P (after m s) := by
  unfold after
  rcases wp_cases h with ⟨a, t, hm, ht⟩ | ⟨e, t, hm, ht⟩
  · rwa [hm]
  · rwa [hm]

/-- A loop over a list keeps an invariant that speaks of the entries still to come. -/
theorem wp_foldlM {f : β → α → Act σ ε β} {I : List α → β → σ → Prop}
    (hf : ∀ x xs b t, I (x :: xs) b t → wp (f b x) (I xs) E t) (l : List α) {b : β}
    (h : I l b s) : wp (l.foldlM f b) (I []) E s := by
  induction l generalizing b s with
  | nil => simpa using h
  | cons x xs ih =>
    rw [List.foldlM_cons, wp_bind]
    exact wp_mono (hf x xs b s h) (fun a t ht => ih ht) (fun _ _ => id)

/-! ## What a computation keeps -/

/-- `P` survives the computation on both exits. -/
def Keeps (P : σ → Prop) (m : Act σ ε α) : Prop :=
  ∀ s, P s → wp m (fun _ => P) (fun _ => P) s

variable {P : σ → Prop}

theorem keeps_pure (a : α) : Keeps P (pure a : Act σ ε α) := fun _ h => h

theorem keeps_throw (e : ε) : Keeps P (throw e : Act σ ε α) := fun _ h => h

theorem keeps_bind {m : Act σ ε α} {f : α → Act σ ε β} (hm : Keeps P m)
    (hf : ∀ a, Keeps P (f a)) : Keeps P (m >>= f) := by
  intro s hs
  rw [wp_bind]
  exact wp_mono (hm s hs) (fun a t ht => hf a t ht) (fun _ _ => id)

theorem keeps_foldlM {f : β → α → Act σ ε β} (hf : ∀ b x, Keeps P (f b x)) (l : List α) (b : β) :
    Keeps P (l.foldlM f b) := by
  intro s hs
  exact wp_foldlM (I := fun _ _ => P) (fun x _ b t ht => hf b x t ht) l hs

end Fridica.Effect
