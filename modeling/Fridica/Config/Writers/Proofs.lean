import Fridica.Config.Writers.Spec
import Fridica.Lib.Run
import Mathlib.Data.List.Nodup

/-!
# No edit is lost

The file is replaced only by a writer that was prepared from what is there. Of two writers prepared
from the same content one fails, unless the content was restored in between.
-/

namespace Fridica.Config

variable {F : Type} {fingerprint : String → F}

/-! ## The changes in a row -/

/-- The content after the changes. -/
def content (file : Option String) (changes : List (Change F)) : Option String :=
  match changes.getLast? with
  | some c => some c.source
  | none => file

/-- Every change finds what the one before it left. -/
def Linked (file : Option String) (changes : List (Change F)) : Prop :=
  ∀ pre c post, changes = pre ++ c :: post → c.old = content file pre

theorem Linked.append {file : Option String} {changes : List (Change F)} {c : Change F}
    (h : Linked file changes) (hc : c.old = content file changes) :
    Linked file (changes ++ [c]) := by
  intro pre d post heq
  rcases List.eq_nil_or_concat post with rfl | ⟨post, e, rfl⟩
  · obtain ⟨rfl, hd⟩ := List.append_inj' heq rfl
    rw [← List.singleton_inj.mp hd]
    exact hc
  · rw [List.concat_eq_append, ← List.cons_append, ← List.append_assoc] at heq
    exact h pre d post (List.append_inj' heq rfl).1

theorem content_append (file : Option String) (changes : List (Change F)) (c : Change F) :
    content file (changes ++ [c]) = some c.source := by
  unfold content
  rw [List.getLast?_concat]

/-! ## The invariant -/

def Phase.succeeds : Phase → Bool
  | .renamed | .leaving (.ok _) | .done (.ok _) => true
  | _ => false

variable (fingerprint)

/-- The writer found there what it was prepared for. -/
structure Change.Fits (w : World F) (c : Change F) : Prop where
  found : ∃ s, c.old = some s ∧ fingerprint s = c.before
  writer : ∃ writer, w.writers c.writer = some writer ∧ writer.before = c.before ∧
    writer.source = c.source ∧ writer.phase.over = true

structure Inv (file : Option String) (w : World F) : Prop where
  lock : ∀ id writer, w.writers id = some writer → writer.phase.holds = true → w.lock = some id
  checked : ∀ id writer, w.writers id = some writer → writer.phase = .checked →
    ∃ s, w.file = some s ∧ fingerprint s = writer.before
  seen : ∀ id writer, w.writers id = some writer → fingerprint writer.seen = writer.before
  fits : ∀ c ∈ w.changes, c.Fits fingerprint w
  once : (w.changes.map (·.writer)).Nodup
  done : ∀ id writer, w.writers id = some writer → writer.phase.succeeds = true →
    ∃ c ∈ w.changes, c.writer = id
  linked : Linked file w.changes
  current : w.file = content file w.changes

variable {fingerprint}

theorem inv_initial (file : Option String) : Inv fingerprint file (initial file) where
  lock := by simp [initial]
  checked := by simp [initial]
  seen := by simp [initial]
  fits := by simp [initial]
  once := by simp [initial]
  done := by simp [initial]
  linked := by
    intro pre c post h
    simp [initial] at h
  current := rfl

/-! ## What keeps it -/

theorem writers_set (w : World F) (id : Nat) (writer : Writer F) (phase : Phase) (i : Nat) :
    (w.set id writer phase).writers i =
      if i = id then some { writer with phase := phase } else w.writers i := by
  unfold World.set
  simp [Function.update_apply]

theorem Change.Fits.set {w : World F} {c : Change F} {id : Nat} {writer : Writer F} {phase : Phase}
    (h : c.Fits fingerprint w) (hw : w.writers id = some writer)
    (hover : writer.phase.over = true → phase.over = true) :
    c.Fits fingerprint (w.set id writer phase) := by
  obtain ⟨hfound, other, hother, hbefore, hsource, hphase⟩ := h
  refine ⟨hfound, ?_⟩
  rw [writers_set]
  by_cases hid : c.writer = id
  · obtain rfl : writer = other := Option.some_inj.mp ((hid ▸ hw.symm).trans hother)
    rw [if_pos hid]
    exact ⟨_, rfl, hbefore, hsource, hover hphase⟩
  · rw [if_neg hid]
    exact ⟨other, hother, hbefore, hsource, hphase⟩

theorem Inv.set {file : Option String} {w : World F} {id : Nat} {writer : Writer F} {phase : Phase}
    {lock : Option Nat} (h : Inv fingerprint file w) (hw : w.writers id = some writer)
    (hhere : phase.holds = true → lock = some id)
    (hthere : ∀ i, i ≠ id → w.lock = some i → lock = some i)
    (hchecked : phase = .checked → ∃ s, w.file = some s ∧ fingerprint s = writer.before)
    (hover : writer.phase.over = true → phase.over = true)
    (hdone : phase.succeeds = true → writer.phase.succeeds = true) :
    Inv fingerprint file { w.set id writer phase with lock := lock } where
  lock i other hother hholds := by
    rw [show World.writers _ i = _ from writers_set w id writer phase i] at hother
    split at hother
    next hid =>
      obtain rfl := Option.some_inj.mp hother
      exact hid ▸ hhere hholds
    next hid => exact hthere i hid (h.lock i other hother hholds)
  checked i other hother hphase := by
    rw [show World.writers _ i = _ from writers_set w id writer phase i] at hother
    split at hother
    · obtain rfl := Option.some_inj.mp hother
      exact hchecked hphase
    · exact h.checked i other hother hphase
  seen i other hother := by
    rw [show World.writers _ i = _ from writers_set w id writer phase i] at hother
    split at hother
    · obtain rfl := Option.some_inj.mp hother
      exact h.seen id writer hw
    · exact h.seen i other hother
  fits c hc := by
    obtain ⟨hfound, hwriter⟩ := (h.fits c hc).set hw hover
    exact ⟨hfound, hwriter⟩
  once := h.once
  done i other hother hsucceeds := by
    rw [show World.writers _ i = _ from writers_set w id writer phase i] at hother
    split at hother
    next hid =>
      obtain rfl := Option.some_inj.mp hother
      exact hid ▸ h.done id writer hw (hdone hsucceeds)
    next => exact h.done i other hother hsucceeds
  linked := h.linked
  current := h.current

theorem Inv.rename {file : Option String} {w : World F} {id : Nat} {writer : Writer F}
    (h : Inv fingerprint file w) (hw : w.writers id = some writer)
    (hphase : writer.phase = .checked) :
    Inv fingerprint file { w.set id writer .renamed with
      file := some writer.source
      changes := w.changes ++ [⟨id, w.file, writer.before, writer.source⟩] } where
  lock i other hother hholds := by
    rw [show World.writers _ i = _ from writers_set w id writer .renamed i] at hother
    split at hother
    next hid => exact hid ▸ h.lock id writer hw (by rw [hphase]; rfl)
    next => exact h.lock i other hother hholds
  checked i other hother hc := by
    rw [show World.writers _ i = _ from writers_set w id writer .renamed i] at hother
    split at hother
    · obtain rfl := Option.some_inj.mp hother
      cases hc
    next hid =>
      -- The lock is this writer's.
      have hmine := h.lock id writer hw (by rw [hphase]; rfl)
      have hother' := h.lock i other hother (by rw [hc]; rfl)
      exact absurd (Option.some_inj.mp (hother'.symm.trans hmine)) hid
  seen i other hother := by
    rw [show World.writers _ i = _ from writers_set w id writer .renamed i] at hother
    split at hother
    · obtain rfl := Option.some_inj.mp hother
      exact h.seen id writer hw
    · exact h.seen i other hother
  fits c hc := by
    rcases List.mem_append.mp hc with hc | hc
    · obtain ⟨hfound, hwriter⟩ :=
        (h.fits c hc).set hw (fun _ => rfl : _ → Phase.over .renamed = true)
      exact ⟨hfound, hwriter⟩
    · rw [List.mem_singleton.mp hc]
      refine ⟨h.checked id writer hw hphase, ?_⟩
      rw [show World.writers _ id = _ from writers_set w id writer .renamed id, if_pos rfl]
      exact ⟨_, rfl, rfl, rfl, rfl⟩
  once := by
    rw [List.map_append, List.nodup_append]
    refine ⟨h.once, List.nodup_singleton _, ?_⟩
    rintro i hi j hj rfl
    obtain ⟨c, hc, hci⟩ := List.mem_map.mp hi
    obtain ⟨other, hother, -, -, hover⟩ := (h.fits c hc).writer
    have hid : i = id := List.mem_singleton.mp hj
    rw [hci, hid] at hother
    obtain rfl := Option.some_inj.mp (hother.symm.trans hw)
    rw [hphase] at hover
    cases hover
  done i other hother hsucceeds := by
    rw [show World.writers _ i = _ from writers_set w id writer .renamed i] at hother
    split at hother
    next hid => exact ⟨_, List.mem_append_right _ (List.mem_singleton_self _), hid.symm⟩
    next =>
      obtain ⟨c, hc, hci⟩ := h.done i other hother hsucceeds
      exact ⟨c, List.mem_append_left _ hc, hci⟩
  linked := h.linked.append h.current
  current := (content_append file w.changes ⟨id, w.file, writer.before, writer.source⟩).symm

theorem Inv.prepare {file : Option String} {w : World F} {id : Nat} {writer : Writer F}
    (h : Inv fingerprint file w) (hw : w.writers id = none)
    (hseen : fingerprint writer.seen = writer.before) (hphase : writer.phase = .prepared) :
    Inv fingerprint file { w with writers := Function.update w.writers id (some writer) } where
  lock i other hother hholds := by
    dsimp only at hother
    rw [Function.update_apply] at hother
    split at hother
    · obtain rfl := Option.some_inj.mp hother
      rw [hphase] at hholds
      cases hholds
    · exact h.lock i other hother hholds
  checked i other hother hc := by
    dsimp only at hother
    rw [Function.update_apply] at hother
    split at hother
    · obtain rfl := Option.some_inj.mp hother
      rw [hphase] at hc
      cases hc
    · exact h.checked i other hother hc
  seen i other hother := by
    dsimp only at hother
    rw [Function.update_apply] at hother
    split at hother
    · obtain rfl := Option.some_inj.mp hother
      exact hseen
    · exact h.seen i other hother
  fits c hc := by
    obtain ⟨hfound, other, hother, hrest⟩ := h.fits c hc
    refine ⟨hfound, other, ?_, hrest⟩
    dsimp only
    rw [Function.update_apply, if_neg, hother]
    intro hid
    rw [hid, hw] at hother
    cases hother
  once := h.once
  done i other hother hsucceeds := by
    dsimp only at hother
    rw [Function.update_apply] at hother
    split at hother
    · obtain rfl := Option.some_inj.mp hother
      rw [hphase] at hsucceeds
      cases hsucceeds
    · exact h.done i other hother hsucceeds
  linked := h.linked
  current := h.current

/-- What a step does to the file. -/
def Replaces (fingerprint : String → F) (w w' : World F) : Prop :=
  ∃ id writer s, w.writers id = some writer ∧ w.file = some s ∧ fingerprint s = writer.before ∧
    fingerprint writer.seen = fingerprint s ∧ writer.phase = .checked ∧
    w'.file = some writer.source ∧
    w'.writers id = some { writer with phase := .renamed } ∧
    w'.changes = w.changes ++ [⟨id, some s, writer.before, writer.source⟩]

def Untouched (w w' : World F) : Prop := w'.file = w.file ∧ w'.changes = w.changes

/-! ## Two changes -/

/-- Between two changes from one content there is one that restores it. -/
theorem Inv.restored {file : Option String} {w : World F} (h : Inv fingerprint file w)
    {pre middle post : List (Change F)} {c d : Change F}
    (heq : w.changes = pre ++ c :: middle ++ d :: post) (hbefore : c.before = d.before)
    (hchange : fingerprint c.source ≠ c.before) :
    ∃ k ∈ middle, fingerprint k.source = c.before ∧ k.writer ≠ c.writer ∧
      k.writer ≠ d.writer := by
  obtain ⟨s, hold, hs⟩ := (h.fits d (by rw [heq]; simp)).found
  have hfound : d.old = content file (pre ++ c :: middle) := h.linked _ d post heq
  rcases List.eq_nil_or_concat middle with rfl | ⟨front, k, rfl⟩
  · rw [content_append, hold] at hfound
    obtain rfl := Option.some_inj.mp hfound
    exact absurd (hs.trans hbefore.symm) hchange
  · rw [List.concat_eq_append, ← List.cons_append, ← List.append_assoc, content_append,
      hold] at hfound
    obtain rfl := Option.some_inj.mp hfound
    have hmem : k ∈ front.concat k := by simp
    have honce := h.once
    rw [heq, List.map_append, List.map_append, List.map_cons, List.map_cons] at honce
    refine ⟨k, hmem, hs.trans hbefore.symm, ?_, ?_⟩
    · obtain ⟨-, hinner, -⟩ := List.nodup_append.mp (List.nodup_append.mp honce).1
      exact fun hkc => (List.nodup_cons.mp hinner).1 (hkc ▸ List.mem_map_of_mem hmem)
    · obtain ⟨-, -, hapart⟩ := List.nodup_append.mp honce
      refine hapart k.writer ?_ d.writer (List.mem_cons_self ..)
      exact List.mem_append_right _ (List.mem_cons_of_mem _ (List.mem_map_of_mem hmem))

theorem exists_between {l : List (Change F)} {c d : Change F} (hc : c ∈ l) (hd : d ∈ l)
    (hne : c.writer ≠ d.writer) : ∃ pre middle post,
      l = pre ++ c :: middle ++ d :: post ∨ l = pre ++ d :: middle ++ c :: post := by
  obtain ⟨pre, post, rfl⟩ := List.append_of_mem hc
  rcases List.mem_append.mp hd with hd | hd
  · obtain ⟨pre, middle, rfl⟩ := List.append_of_mem hd
    exact ⟨pre, middle, post, .inr rfl⟩
  · rcases List.mem_cons.mp hd with rfl | hd
    · exact absurd rfl hne
    · obtain ⟨middle, post, rfl⟩ := List.append_of_mem hd
      exact ⟨pre, middle, post, .inl (by simp)⟩

/-! ## Steps -/

variable [DecidableEq F]

theorem check_ok {before : F} {file : Option String} (h : check fingerprint before file = .ok ()) :
    ∃ s, file = some s ∧ fingerprint s = before := by
  unfold check read at h
  cases file with
  | none => cases h
  | some s =>
    dsimp only at h
    split at h
    · cases h
    next source hread =>
      split at h
      · cases h
      next hsame =>
        split at hread
        · cases hread
        · obtain rfl := Except.ok.inj hread
          exact ⟨s, rfl, not_not.mp hsame⟩

theorem prepare_ok {origin : Origin F} {edit : String → Except String String}
    {file : Option String} {writer : Writer F}
    (h : prepare fingerprint origin edit file = .ok writer) :
    fingerprint writer.seen = writer.before ∧ writer.phase = .prepared := by
  unfold prepare at h
  cases hread : read file with
  | error e =>
    rw [hread] at h
    cases h
  | ok seen =>
    rw [hread] at h
    dsimp only [bind, Except.bind] at h
    cases origin with
    | live current =>
      dsimp only at h
      split at h
      · cases h
      next hsame =>
        cases hedit : edit seen with
        | error e =>
          rw [hedit] at h
          cases h
        | ok source =>
          rw [hedit] at h
          dsimp only at h
          split at h
          · cases h
          · obtain rfl := Except.ok.inj h
            exact ⟨not_not.mp hsame, rfl⟩
    | draft =>
      dsimp only at h
      cases hedit : edit seen with
      | error e =>
        rw [hedit] at h
        cases h
      | ok source =>
        rw [hedit] at h
        obtain rfl := Except.ok.inj h
        exact ⟨rfl, rfl⟩

theorem advance_inv {file : Option String} {w w' : World F} {id : Nat} {writer : Writer F}
    {failure : Option String} (h : Inv fingerprint file w) (hw : w.writers id = some writer)
    (hstep : advance fingerprint w id writer failure = some w') :
    Inv fingerprint file w' ∧ (Untouched w w' ∨ Replaces fingerprint w w') := by
  have hmine : writer.phase.holds = true → w.lock = some id := h.lock id writer hw
  have hset : ∀ {phase : Phase}, some (w.set id writer phase) = some w' →
      (phase.holds = true → writer.phase.holds = true) →
      (phase = .checked → ∃ s, w.file = some s ∧ fingerprint s = writer.before) →
      (writer.phase.over = true → phase.over = true) →
      (phase.succeeds = true → writer.phase.succeeds = true) →
      Inv fingerprint file w' ∧ (Untouched w w' ∨ Replaces fingerprint w w') := by
    intro phase heq hholds hchecked hover hdone
    obtain rfl := Option.some_inj.mp heq
    exact ⟨h.set hw (fun hp => hmine (hholds hp)) (fun _ _ hl => hl) hchecked hover hdone,
      .inl ⟨rfl, rfl⟩⟩
  unfold advance at hstep
  cases hphase : writer.phase with
  | prepared =>
    simp only [hphase] at hstep
    split at hstep
    · exact hset hstep nofun nofun (fun _ => rfl) nofun
    · split at hstep
      · exact hset hstep nofun nofun (fun _ => rfl) nofun
      · exact hset hstep nofun nofun (by simp [hphase, Phase.over]) nofun
  | waiting attempts =>
    simp only [hphase] at hstep
    split at hstep
    next hfree =>
      obtain rfl := Option.some_inj.mp hstep
      refine ⟨h.set hw (fun _ => rfl) ?_ nofun (by simp [hphase, Phase.over]) nofun,
        .inl ⟨rfl, rfl⟩⟩
      intro i _ hl
      rw [hfree.2] at hl
      cases hl
    · split at hstep
      · exact hset hstep nofun nofun (by simp [hphase, Phase.over]) nofun
      · exact hset hstep nofun nofun (fun _ => rfl) nofun
  | locked =>
    simp only [hphase] at hstep
    split at hstep
    · exact hset hstep (by simp [hphase, Phase.holds]) nofun (fun _ => rfl) nofun
    · exact hset hstep (by simp [hphase, Phase.holds]) nofun (by simp [hphase, Phase.over]) nofun
  | written =>
    simp only [hphase] at hstep
    split at hstep
    · exact hset hstep (by simp [hphase, Phase.holds]) nofun (fun _ => rfl) nofun
    · split at hstep
      · exact hset hstep (by simp [hphase, Phase.holds]) nofun (fun _ => rfl) nofun
      next hcheck =>
        exact hset hstep (by simp [hphase, Phase.holds]) (fun _ => check_ok hcheck)
          (by simp [hphase, Phase.over]) nofun
  | checked =>
    simp only [hphase] at hstep
    split at hstep
    · exact hset hstep (by simp [hphase, Phase.holds]) nofun (fun _ => rfl) nofun
    · obtain rfl := Option.some_inj.mp hstep
      obtain ⟨s, hs, hbefore⟩ := h.checked id writer hw hphase
      refine ⟨h.rename hw hphase, .inr ⟨id, writer, s, hw, hs, hbefore, ?_, hphase, rfl, ?_, ?_⟩⟩
      · rw [h.seen id writer hw, hbefore]
      · exact (writers_set w id writer .renamed id).trans (if_pos rfl)
      · rw [hs]
  | renamed =>
    simp only [hphase] at hstep
    split at hstep
    · exact hset hstep (by simp [hphase, Phase.holds]) nofun (fun _ => rfl) nofun
    · exact hset hstep (by simp [hphase, Phase.holds]) nofun (fun _ => rfl)
        (by simp [hphase, Phase.succeeds])
  | leaving result =>
    simp only [hphase] at hstep
    obtain rfl := Option.some_inj.mp hstep
    have hlock := hmine (by rw [hphase]; rfl)
    refine ⟨h.set hw nofun ?_ nofun (fun _ => rfl) ?_, .inl ⟨rfl, rfl⟩⟩
    · intro i hi hl
      exact absurd (Option.some_inj.mp (hl.symm.trans hlock)) hi
    · cases result <;> simp [hphase, Phase.succeeds]
  | done result => simp only [hphase, reduceCtorEq] at hstep
  | crashed => simp only [hphase, reduceCtorEq] at hstep

theorem step_inv {file : Option String} {w w' : World F} {a : Action F}
    (h : Inv fingerprint file w) (hstep : step fingerprint w a = some w') :
    Inv fingerprint file w' ∧ (Untouched w w' ∨ Replaces fingerprint w w') := by
  cases a with
  | advance id failure =>
    unfold step at hstep
    cases hw : w.writers id with
    | none => simp only [hw, reduceCtorEq] at hstep
    | some writer =>
      simp only [hw] at hstep
      exact advance_inv h hw hstep
  | crash id =>
    unfold step at hstep
    cases hw : w.writers id with
    | none => simp only [hw, reduceCtorEq] at hstep
    | some writer =>
      simp only [hw] at hstep
      obtain rfl := Option.some_inj.mp hstep
      refine ⟨h.set hw nofun ?_ nofun (fun _ => rfl) nofun, .inl ⟨rfl, rfl⟩⟩
      intro i hi hl
      rw [hl, if_neg fun heq => hi (Option.some_inj.mp heq)]
  | prepare id origin edit =>
    unfold step at hstep
    cases hw : w.writers id with
    | some writer => simp only [hw, reduceCtorEq] at hstep
    | none =>
      simp only [hw] at hstep
      split at hstep
      next writer hprepare =>
        obtain rfl := Option.some_inj.mp hstep
        obtain ⟨hseen, hphase⟩ := prepare_ok hprepare
        exact ⟨h.prepare hw hseen hphase, .inl ⟨rfl, rfl⟩⟩
      next =>
        obtain rfl := Option.some_inj.mp hstep
        exact ⟨h, .inl ⟨rfl, rfl⟩⟩

/-! ## Runs -/

theorem run_inv {file : Option String} {actions : List (Action F)} {w w' : World F}
    (h : Inv fingerprint file w) (hrun : run fingerprint w actions = some w') :
    Inv fingerprint file w' :=
  Run.keeps_of_actions (fun _ => rfl) (fun _ _ _ => rfl)
    (fun _ _ _ hw hstep => (step_inv hw hstep).1) h hrun

def Succeeded (w : World F) (id : Nat) (writer : Writer F) : Prop :=
  w.writers id = some writer ∧ writer.phase = .done (.ok ())

/-- **No change is overwritten by a writer that had not read it.** A step leaves the file alone or
replaces exactly the content that its writer was prepared from. Two writers prepared from one
content that both change it both succeed only if a third one restored the content between them. -/
theorem writers_safe (fingerprint : String → F) (file : Option String) (actions : List (Action F))
    (w : World F) (h : run fingerprint (initial file) actions = some w) :
    (∀ a w', step fingerprint w a = some w' → Untouched w w' ∨ Replaces fingerprint w w') ∧
    ∀ i j a b, i ≠ j → Succeeded w i a → Succeeded w j b → a.before = b.before →
      fingerprint a.source ≠ a.before → fingerprint b.source ≠ b.before →
      ∃ pre c middle d post, w.changes = pre ++ c :: middle ++ d :: post ∧
        (c.writer = i ∧ d.writer = j ∨ c.writer = j ∧ d.writer = i) ∧
        ∃ k ∈ middle, fingerprint k.source = a.before ∧ k.writer ≠ i ∧ k.writer ≠ j := by
  have hinv := run_inv (inv_initial file) h
  refine ⟨fun a w' hstep => (step_inv hinv hstep).2, ?_⟩
  rintro i j a b hij ⟨ha, hadone⟩ ⟨hb, hbdone⟩ hbefore hachange hbchange
  obtain ⟨c, hc, rfl⟩ := hinv.done i a ha (by rw [hadone]; rfl)
  obtain ⟨d, hd, rfl⟩ := hinv.done j b hb (by rw [hbdone]; rfl)
  have hfits : ∀ {c : Change F} {writer : Writer F}, c ∈ w.changes →
      w.writers c.writer = some writer → c.before = writer.before ∧ c.source = writer.source := by
    intro c writer hc hw
    obtain ⟨other, hother, hbefore, hsource, -⟩ := (hinv.fits c hc).writer
    obtain rfl := Option.some_inj.mp (hother.symm.trans hw)
    exact ⟨hbefore.symm, hsource.symm⟩
  obtain ⟨hcb, hcs⟩ := hfits hc ha
  obtain ⟨hdb, hds⟩ := hfits hd hb
  obtain ⟨pre, middle, post, heq | heq⟩ := exists_between hc hd hij
  · obtain ⟨k, hk, hks, hkc, hkd⟩ := hinv.restored heq (by rw [hcb, hdb, hbefore])
      (by rw [hcs, hcb]; exact hachange)
    exact ⟨pre, c, middle, d, post, heq, .inl ⟨rfl, rfl⟩, k, hk, hks.trans hcb, hkc, hkd⟩
  · obtain ⟨k, hk, hks, hkd, hkc⟩ := hinv.restored heq (by rw [hcb, hdb, hbefore])
      (by rw [hds, hdb]; exact hbchange)
    exact ⟨pre, d, middle, c, post, heq, .inr ⟨rfl, rfl⟩, k, hk,
      hks.trans (by rw [hdb, hbefore]), hkc, hkd⟩

/-- Two drafts of "a", of which the second is refused. -/
def twoDrafts : List (Action String) :=
  [.prepare 0 .draft fun _ => .ok "b", .prepare 1 .draft fun _ => .ok "c"] ++
    List.replicate 7 (.advance 0 none) ++ List.replicate 5 (.advance 1 none)

theorem writers_safe_twoDrafts : ∃ w, run id (initial (some "a")) twoDrafts = some w ∧
    w.file = some "b" ∧
    ∀ a w', step id w a = some w' → Untouched w w' ∨ Replaces id w w' :=
  ⟨_, rfl, rfl, (writers_safe id (some "a") twoDrafts _ rfl).1⟩

end Fridica.Config
