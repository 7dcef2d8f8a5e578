import Mathlib.Logic.Basic

/-!
# Programs that ask their surroundings

A program asks one question after another and ends with a value. Whatever answers (a store, another
process, a person) may answer anything at any time, so what happens between two questions shows in
the answers only. `wp P m Q s` says of a program that starts in state `s` of a protocol `P`: every
question it asks is in order, whatever the answers, and `Q` holds of how it ends.
-/

namespace Fridica.Ask

inductive Dialogue (Q : Type) (A : Q → Type) (α : Type)
  | done (a : α)
  | ask (q : Q) (next : A q → Dialogue Q A α)

variable {Q : Type} {A : Q → Type} {S ε α β : Type}

def Dialogue.bind : Dialogue Q A α → (α → Dialogue Q A β) → Dialogue Q A β
  | .done a, f => f a
  | .ask q next, f => .ask q fun r => (next r).bind f

instance : Monad (Dialogue Q A) where
  pure := .done
  bind := Dialogue.bind

/-- A question with its answer. -/
structure Event (Q : Type) (A : Q → Type) where
  question : Q
  answer : A question

/-- What a program asks and is answered, and how it ends. -/
inductive Run : Dialogue Q A α → List (Event Q A) → α → Prop
  | done (a : α) : Run (.done a) [] a
  | ask {q : Q} {next : A q → Dialogue Q A α} {l : List (Event Q A)} {a : α} (r : A q) :
    Run (next r) l a → Run (.ask q next) (⟨q, r⟩ :: l) a

/-- The run in which the answers follow from all that was asked before. -/
def play (answer : List (Event Q A) → (q : Q) → A q) (past : List (Event Q A)) :
    Dialogue Q A α → List (Event Q A) × α
  | .done a => ([], a)
  | .ask q next =>
    let e : Event Q A := ⟨q, answer past q⟩
    let rest := play answer (past ++ [e]) (next e.answer)
    (e :: rest.1, rest.2)

theorem play_run (answer : List (Event Q A) → (q : Q) → A q) (past : List (Event Q A))
    (m : Dialogue Q A α) : Run m (play answer past m).1 (play answer past m).2 := by
  induction m generalizing past with
  | done a => exact .done a
  | ask q next ih => exact .ask _ (ih _ _)

/-! ## Protocols -/

structure Protocol (Q : Type) (A : Q → Type) (S : Type) where
  allows : S → Q → Prop
  next : S → (q : Q) → A q → S

namespace Protocol

/-- The state after some questions and answers. -/
def after (P : Protocol Q A S) (s : S) (l : List (Event Q A)) : S :=
  l.foldl (fun s e => P.next s e.question e.answer) s

/-- Every question is in order where it is asked. -/
def Legal (P : Protocol Q A S) : S → List (Event Q A) → Prop
  | _, [] => True
  | s, e :: l => P.allows s e.question ∧ P.Legal (P.next s e.question e.answer) l

variable {P : Protocol Q A S} {s : S} {l l' : List (Event Q A)}

@[simp] theorem after_nil : P.after s [] = s := rfl

@[simp] theorem after_cons {e : Event Q A} :
    P.after s (e :: l) = P.after (P.next s e.question e.answer) l := rfl

theorem after_append : P.after s (l ++ l') = P.after (P.after s l) l' := List.foldl_append

theorem legal_append : P.Legal s (l ++ l') ↔ P.Legal s l ∧ P.Legal (P.after s l) l' := by
  induction l generalizing s with
  | nil => simp [Legal]
  | cons e l ih => simp [Legal, ih, and_assoc]

theorem Legal.of_append {e : Event Q A} (h : P.Legal s (l ++ e :: l')) :
    P.allows (P.after s l) e.question :=
  (legal_append.mp h).2.1

/-- The rules of a program as what it may ask after what it asked and was answered. -/
def history (allows : List (Event Q A) → Q → Prop) : Protocol Q A (List (Event Q A)) where
  allows := allows
  next l q r := l ++ [⟨q, r⟩]

variable {allows : List (Event Q A) → Q → Prop}

theorem history_after : (history allows).after l l' = l ++ l' := by
  induction l' generalizing l with
  | nil => simp
  | cons e l' ih => exact ih.trans (by simp [history])

theorem legal_concat {e : Event Q A} (h : (history allows).Legal [] (l ++ [e])) :
    (history allows).Legal [] l ∧ allows l e.question := by
  obtain ⟨hlegal, he, -⟩ := legal_append.mp h
  rw [history_after, List.nil_append] at he
  exact ⟨hlegal, he⟩

end Protocol

/-! ## Programs that can fail -/

abbrev Fallible (Q : Type) (A : Q → Type) (ε α : Type) := ExceptT ε (Dialogue Q A) α

def ask (q : Q) : Fallible Q A ε (A q) := ExceptT.mk (.ask q fun r => .done (.ok r))

/-- A question that may be answered with an error, which ends the program. -/
def unit (m : Fallible Q A ε (Except ε α)) : Fallible Q A ε α := m >>= fun
  | .ok a => pure a
  | .error e => throw e

/-- The value or the error as a value. -/
def attempt (m : Fallible Q A ε α) : Fallible Q A ε (Except ε α) :=
  ExceptT.mk (m.run >>= fun r => .done (.ok r))

/-- Ends the program where it is denied. -/
def deny (denied : Bool) (e : ε) : Fallible Q A ε Unit := if denied then throw e else pure ()

/-- The first turns of a loop. -/
def turns (f : α → Fallible Q A ε α) : Nat → α → Fallible Q A ε α
  | 0, a => pure a
  | n + 1, a => do turns f n (← f a)

/-- What a program that ended must leave. -/
def Ends (post : α → S → Prop) (err : ε → S → Prop) : Except ε α → S → Prop
  | .ok a => post a
  | .error e => err e

def wp (P : Protocol Q A S) (m : Fallible Q A ε α) (post : α → S → Prop) (err : ε → S → Prop) :
    S → Prop :=
  go m
where
  go : Dialogue Q A (Except ε α) → S → Prop
    | .done r, s => Ends post err r s
    | .ask q next, s => P.allows s q ∧ ∀ r, go (next r) (P.next s q r)

section Rules

variable {P : Protocol Q A S} {m : Fallible Q A ε α} {post post' : α → S → Prop}
  {err err' : ε → S → Prop} {s : S}

@[simp] theorem wp_pure {a : α} : wp P (pure a : Fallible Q A ε α) post err s ↔ post a s := Iff.rfl

@[simp] theorem wp_throw {e : ε} : wp P (throw e : Fallible Q A ε α) post err s ↔ err e s :=
  Iff.rfl

@[simp] theorem wp_ask {q : Q} {post : A q → S → Prop} :
    wp P (ask q : Fallible Q A ε (A q)) post err s ↔
      P.allows s q ∧ ∀ r, post r (P.next s q r) := Iff.rfl

@[simp] theorem wp_bind {f : α → Fallible Q A ε β} {post : β → S → Prop} :
    wp P (m >>= f) post err s ↔ wp P m (fun a => wp P (f a) post err) err s := by
  change wp.go P post err (m.run.bind _) s ↔ wp.go P _ err m.run s
  generalize m.run = d
  induction d generalizing s with
  | done r => cases r <;> rfl
  | ask q next ih => exact and_congr_right fun _ => forall_congr' fun r => ih r

@[simp] theorem wp_attempt {post : Except ε α → S → Prop} :
    wp P (attempt m) post err s ↔
      wp P m (fun a => post (.ok a)) (fun e => post (.error e)) s := by
  change wp.go P post err (m.run.bind _) s ↔ wp.go P _ _ m.run s
  generalize m.run = d
  induction d generalizing s with
  | done r => cases r <;> rfl
  | ask q next ih => exact and_congr_right fun _ => forall_congr' fun r => ih r

theorem wp_mono (h : wp P m post err s) (hpost : ∀ a t, post a t → post' a t)
    (herr : ∀ e t, err e t → err' e t) : wp P m post' err' s := by
  change wp.go P post' err' m.run s
  change wp.go P post err m.run s at h
  generalize m.run = d at h
  induction d generalizing s with
  | done r =>
    cases r with
    | ok a => exact hpost a s h
    | error e => exact herr e s h
  | ask q next ih => exact ⟨h.1, fun r => ih r (h.2 r)⟩

theorem wp_unit {m : Fallible Q A ε (Except ε α)} : wp P (unit m) post err s ↔
    wp P m (Ends post err) err s := by
  unfold unit
  rw [wp_bind]
  constructor <;> refine fun h => wp_mono h (fun r t ht => ?_) fun _ _ => id
  all_goals
    cases r with
    | ok a => exact ht
    | error e => exact ht

theorem wp_ite {c : Prop} [Decidable c] {m' : Fallible Q A ε α} :
    wp P (if c then m else m') post err s ↔
      (c → wp P m post err s) ∧ (¬ c → wp P m' post err s) := by
  by_cases hc : c
  · simp [hc]
  · simp [hc]

theorem wp_deny {denied : Bool} {e : ε} {post : Unit → S → Prop} :
    wp P (deny denied e) post err s ↔ (denied = true → err e s) ∧ (denied = false → post () s) := by
  cases denied <;> simp [deny]

/-- A run of a program asks only what is in order, and ends as `wp` says. -/
theorem wp_run {l : List (Event Q A)} {r : Except ε α} (h : wp P m post err s)
    (hrun : Run m.run l r) : P.Legal s l ∧ Ends post err r (P.after s l) := by
  change wp.go P post err m.run s at h
  generalize m.run = d at h hrun
  induction hrun generalizing s with
  | done r => exact ⟨trivial, h⟩
  | ask r _ ih =>
    obtain ⟨hlegal, hend⟩ := ih (h.2 r)
    exact ⟨⟨h.1, hlegal⟩, hend⟩

/-- What a program asks by its rules, and how it ends. -/
theorem wp_history {allows : List (Event Q A) → Q → Prop} {post : α → List (Event Q A) → Prop}
    {err : ε → List (Event Q A) → Prop} {l : List (Event Q A)} {r : Except ε α}
    (h : wp (Protocol.history allows) m post err []) (hrun : Run m.run l r) :
    (∀ past e rest, l = past ++ e :: rest → allows past e.question) ∧ Ends post err r l := by
  obtain ⟨hlegal, hend⟩ := wp_run h hrun
  rw [Protocol.history_after, List.nil_append] at hend
  refine ⟨?_, hend⟩
  rintro past e rest rfl
  have hallows := hlegal.of_append
  rwa [Protocol.history_after, List.nil_append] at hallows

/-- What one turn keeps, every number of turns keeps. -/
theorem wp_turns {f : α → Fallible Q A ε α} {I : α → S → Prop}
    (hf : ∀ a t, I a t → wp P (f a) I err t) (n : Nat) {a : α} (h : I a s) :
    wp P (turns f n a) I err s := by
  induction n generalizing a s with
  | zero => exact h
  | succ n ih =>
    rw [turns, wp_bind]
    exact wp_mono (hf a s h) (fun b t hb => ih hb) fun _ _ => id

end Rules

end Fridica.Ask
