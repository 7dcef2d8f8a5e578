import Fridica.Lib.Checked
import Fridica.Threads.Configuration.Spec
import Mathlib.Logic.Function.Basic

/-!
# What becomes of an edit

A completed intent is told from the file on disk, and the configuration in force is then that file.
An edit whose file was replaced is never abandoned.
-/

namespace Fridica.Threads.Configuration

open Fridica.Effect

variable {F : Type} {out : Outside F}

/-! ## What a computation does -/

def World.at_tick (w : World F) (n : Nat) : World F := { w with ticks := n }

variable (out) in
def World.disk (w : World F) (path : String) : Option F := (w.files path).map out.fingerprint

variable (out) in
/-- The world once the intent is completed. -/
def World.complete (w : World F) (intent : Intent F) (applied : Bool) (in_force : Config F) :
    World F :=
  { w with
    pending := none
    completions := w.completions ++ [⟨intent, applied, w.disk out intent.path, in_force⟩] }

variable (out) in
/-- Some call does not go through. -/
def Fails : Prop := ∃ n, out.answer n ≠ .proceed

section Calls

variable {α : Type} {w : World F} {E : Stop → World F → Prop}

theorem wp_call {Q : Unit → World F → Prop} (hQ : ∀ n, Q () (w.at_tick n))
    (hE : ∀ e n, Fails out → E e (w.at_tick n)) : wp (call out) Q E w := by
  unfold call
  simp only [wp_bind, wp_get, wp_set]
  cases hanswer : out.answer w.ticks with
  | proceed => exact hQ _
  | fail error => exact hE _ _ ⟨w.ticks, by simp [hanswer]⟩
  | crash => exact hE _ _ ⟨w.ticks, by simp [hanswer]⟩

theorem wp_liftExcept {x : Except String α} {Q : α → World F → Prop}
    (hQ : ∀ a, x = .ok a → Q a w) (hE : ∀ e, (∀ a, x ≠ .ok a) → E e w) :
    wp (liftExcept x : Host F α) Q E w := by
  cases x with
  | ok a => exact hQ a rfl
  | error e => exact hE _ nofun

theorem wp_disk_fingerprint {path : String} {Q : F → World F → Prop}
    (hQ : ∀ n s, Fridica.Config.read (w.files path) = .ok s → Q (out.fingerprint s) (w.at_tick n))
    (hE : ∀ e n, (Fails out ∨ ∀ s, Fridica.Config.read (w.files path) ≠ .ok s) →
      E e (w.at_tick n)) : wp (disk_fingerprint out path) Q E w := by
  unfold disk_fingerprint
  rw [wp_bind]
  refine wp_call (fun n => ?_) fun e n hf => hE e n (.inl hf)
  simp only [wp_bind, wp_get]
  exact wp_liftExcept (fun s hs => hQ n s hs) fun e hs => hE e n (.inr hs)

theorem wp_load {path : String} {Q : Config F → World F → Prop}
    (hQ : ∀ n s, w.files path = some s → Q ⟨path, out.fingerprint s⟩ (w.at_tick n))
    (hE : ∀ e n, (Fails out ∨ w.files path = none) → E e (w.at_tick n)) :
    wp (load out path) Q E w := by
  unfold load
  rw [wp_bind]
  refine wp_call (fun n => ?_) fun e n hf => hE e n (.inl hf)
  simp only [wp_bind, wp_get]
  cases hs : (w.at_tick n).files path with
  | none => exact hE _ _ (.inr hs)
  | some s => exact hQ n s hs

theorem wp_pending {Q : Option (Nat × Intent F) → World F → Prop}
    (hQ : ∀ n, Q w.pending (w.at_tick n)) (hE : ∀ e n, Fails out → E e (w.at_tick n)) :
    wp (pending_configuration_edit out) Q E w := by
  unfold pending_configuration_edit
  rw [wp_bind]
  exact wp_call (fun n => hQ n) hE

theorem wp_memory {m : Memory F} (hm : w.daemon = some m) {Q : Memory F → World F → Prop}
    (hQ : Q m w) : wp memory Q E w := by
  unfold memory
  simp only [wp_bind, wp_get, hm]
  exact hQ

theorem wp_complete {seq : Nat} {intent : Intent F} {applied : Bool} {in_force : Config F}
    (hp : w.pending = some (seq, intent)) {Q : Unit → World F → Prop}
    (hQ : ∀ n, Q () ((w.at_tick n).complete out intent applied in_force))
    (hE : ∀ e n, Fails out → E e (w.at_tick n)) :
    wp (complete_configuration_edit out applied in_force) Q E w := by
  unfold complete_configuration_edit
  rw [wp_bind]
  refine wp_call (fun n => ?_) hE
  rw [wp_modify]
  have hp' : (w.at_tick n).pending = some (seq, intent) := hp
  rw [hp']
  exact hQ n

variable [DecidableEq F]

/-- The file is the loaded configuration, and one of the two of the intent. -/
def Agrees (out : Outside F) (w : World F) (intent : Intent F) (config : Config F)
    (applied : Bool) : Prop :=
  intent.path = config.path ∧
    (∃ s, Fridica.Config.read (w.files config.path) = .ok s ∧
      out.fingerprint s = config.fingerprint) ∧
    (applied = true ∧ config.fingerprint = intent.after ∨
      applied = false ∧ config.fingerprint = intent.before)

theorem wp_verify {intent : Intent F} {config : Config F} {Q : Bool → World F → Prop}
    (hQ : ∀ n applied, Agrees out w intent config applied → Q applied (w.at_tick n))
    (hE : ∀ e n, (Fails out ∨ ∀ applied, ¬ Agrees out w intent config applied) →
      E e (w.at_tick n)) : wp (verify out intent config) Q E w := by
  unfold verify
  split
  next hpath => exact hE _ w.ticks (.inr fun _ h => hpath h.1)
  next hpath =>
  rw [not_not] at hpath
  rw [wp_bind]
  refine wp_disk_fingerprint (fun n s hs => ?_) ?_
  · split
    next hsame =>
      refine hE _ n (.inr ?_)
      rintro _ ⟨-, ⟨s', hs', hsame'⟩, -⟩
      obtain rfl := Except.ok.inj (hs.symm.trans hs')
      exact hsame hsame'
    next hsame =>
    rw [not_not] at hsame
    split
    next hafter => exact hQ n true ⟨hpath, ⟨s, hs, hsame⟩, .inl ⟨rfl, hafter⟩⟩
    next hafter =>
    split
    next hbefore => exact hQ n false ⟨hpath, ⟨s, hs, hsame⟩, .inr ⟨rfl, hbefore⟩⟩
    next hbefore =>
      refine hE _ n (.inr ?_)
      rintro _ ⟨-, -, ⟨-, h⟩ | ⟨-, h⟩⟩
      · exact hafter h
      · exact hbefore h
  · rintro e n (hf | hread)
    · exact hE e n (.inl hf)
    · refine hE e n (.inr ?_)
      rintro _ ⟨-, ⟨s, hs, -⟩, -⟩
      exact hread s hs

end Calls

/-! ## What holds between the procedures -/

/-- A completion tells what is on disk and in force. -/
structure Completion.Honest (c : Completion F) : Prop where
  applied : c.applied = true ↔ c.disk = some c.intent.after
  abandoned : c.applied = false ↔ c.disk = some c.intent.before
  in_force : c.disk = some c.in_force.fingerprint
  path : c.in_force.path = c.intent.path

variable (out)

/-- The configuration in memory is on disk, or an edit of it is pending that is not taken in yet. -/
structure Placed (w : World F) (m : Memory F) : Prop where
  supervisor : m.supervisor = m.config
  here : (∀ seq intent, w.pending = some (seq, intent) → intent.path ≠ m.config.path) →
    w.disk out m.config.path = some m.config.fingerprint
  edited : ∀ seq intent, w.pending = some (seq, intent) → intent.path = m.config.path →
    m.config.fingerprint = intent.before ∨
      m.config.fingerprint = intent.after ∧ w.disk out intent.path = some intent.after

/-- The file is one of the two that a pending intent names. -/
def Told (w : World F) : Prop :=
  ∀ seq intent, w.pending = some (seq, intent) → intent.before ≠ intent.after ∧
    ∃ s, Fridica.Config.read (w.files intent.path) = .ok s ∧
      (out.fingerprint s = intent.before ∨ out.fingerprint s = intent.after)

structure Inv (w : World F) : Prop where
  honest : ∀ c ∈ w.completions, c.Honest
  told : Told out w
  placed : ∀ m, w.daemon = some m → Placed out w m

/-- The journal and the files are as they were. -/
structure Kept (w t : World F) : Prop where
  files : t.files = w.files
  pending : t.pending = w.pending
  completions : t.completions = w.completions

/-- The intent is completed, as the file has it. -/
structure Settled (intent : Intent F) (w t : World F) : Prop where
  files : t.files = w.files
  pending : t.pending = none
  completed : ∃ c, t.completions = w.completions ++ [c] ∧ c.Honest ∧ c.intent = intent ∧
    c.disk = w.disk out intent.path

variable {out}

theorem files_of_read {file : Option String} {s : String}
    (h : Fridica.Config.read file = .ok s) : file = some s := by
  unfold Fridica.Config.read at h
  cases file with
  | none => cases h
  | some source =>
    dsimp only at h
    split at h
    · cases h
    · rw [Except.ok.inj h]

theorem disk_of_read {w : World F} {path s : String}
    (h : Fridica.Config.read (w.files path) = .ok s) :
    w.disk out path = some (out.fingerprint s) := by
  unfold World.disk
  rw [files_of_read h]
  rfl

theorem honest_of {intent : Intent F} {applied : Bool} {disk : F} {in_force : Config F}
    (hne : intent.before ≠ intent.after) (hforce : in_force.fingerprint = disk)
    (hpath : in_force.path = intent.path)
    (h : applied = true ∧ disk = intent.after ∨ applied = false ∧ disk = intent.before) :
    Completion.Honest ⟨intent, applied, some disk, in_force⟩ := by
  refine ⟨?_, ?_, by rw [hforce], hpath⟩
  · rcases h with ⟨rfl, rfl⟩ | ⟨rfl, rfl⟩ <;> simp [hne]
  · rcases h with ⟨rfl, rfl⟩ | ⟨rfl, rfl⟩ <;> simp [Ne.symm hne]

/-! ## The procedures -/

section Procedures

variable [DecidableEq F] {w : World F} {m : Memory F} {seq : Nat} {intent : Intent F}

theorem wp_adopt (hm : w.daemon = some m) (hplaced : Placed out w m)
    (hp : w.pending = some (seq, intent)) (hpath : intent.path = m.config.path) {s : String}
    (hs : Fridica.Config.read (w.files intent.path) = .ok s)
    (hafter : out.fingerprint s = intent.after) :
    wp (adopt out intent m.config)
      (fun _ t => ∃ n m', t = { w.at_tick n with daemon := some m' } ∧ Placed out t m' ∧
        m'.config.fingerprint = intent.after ∧ m'.config.path = intent.path)
      (fun _ t => ∃ n, t = w.at_tick n ∧ Fails out) w := by
  have hfile := files_of_read hs
  unfold adopt
  split
  next hsame =>
    exact ⟨w.ticks, m, by rw [← hm]; rfl, hplaced, hsame, hpath.symm⟩
  rw [wp_bind]
  refine wp_call (fun n => ?_) fun e n hf => ⟨n, rfl, hf⟩
  rw [wp_bind]
  refine wp_load (fun n s' hs' => ?_) ?_
  · obtain rfl : s = s' := by
      have hs'' : w.files m.config.path = some s' := hs'
      rw [← hpath, hfile] at hs''
      exact Option.some_inj.mp hs''
    rw [wp_bind]
    refine wp_verify (fun n applied hagrees => ?_) ?_
    · rw [wp_bind]
      refine wp_call (fun n => ?_) fun e n hf => ⟨n, rfl, hf⟩
      rw [wp_bind]
      refine wp_call (fun n => ?_) fun e n hf => ⟨n, rfl, hf⟩
      refine ⟨n, ⟨⟨m.config.path, out.fingerprint s⟩, ⟨m.config.path, out.fingerprint s⟩⟩, rfl,
        ⟨rfl, ?_, ?_⟩, hafter, hpath.symm⟩
      · intro hother
        exact absurd hpath (hother seq intent hp)
      · intro seq' intent' hp' _
        obtain ⟨-, rfl⟩ := Prod.mk.inj (Option.some_inj.mp (hp.symm.trans hp'))
        refine .inr ⟨hafter, ?_⟩
        rw [← hafter]
        exact disk_of_read hs
    · rintro e n (hf | hnone)
      · exact ⟨n, rfl, hf⟩
      · refine absurd ⟨hpath, ⟨s, ?_, rfl⟩, .inl ⟨rfl, hafter⟩⟩ (hnone true)
        rw [← hpath]
        exact hs
  · rintro e n (hf | hnone)
    · exact ⟨n, rfl, hf⟩
    · have hnone' : w.files m.config.path = none := hnone
      rw [← hpath, hfile] at hnone'
      cases hnone'

omit [DecidableEq F] in
theorem settled_complete {t : World F} {applied : Bool} {in_force : Config F}
    (hfiles : t.files = w.files) (hcompletions : t.completions = w.completions)
    (hne : intent.before ≠ intent.after) (hpath : in_force.path = intent.path)
    (hdisk : w.disk out intent.path = some in_force.fingerprint)
    (h : applied = true ∧ in_force.fingerprint = intent.after ∨
      applied = false ∧ in_force.fingerprint = intent.before) :
    Settled out intent w (t.complete out intent applied in_force) := by
  have hsame : t.disk out intent.path = w.disk out intent.path := by
    unfold World.disk
    rw [hfiles]
  refine ⟨hfiles, rfl, ⟨intent, applied, t.disk out intent.path, in_force⟩, ?_, ?_, rfl, hsame⟩
  · exact congrArg (· ++ _) hcompletions
  · rw [hsame, hdisk]
    exact honest_of hne rfl hpath h

omit [DecidableEq F] in
theorem placed_complete {applied : Bool} (hsup : m.supervisor = m.config)
    (hpath : m.config.path = intent.path)
    (hdisk : w.disk out intent.path = some m.config.fingerprint) :
    Placed out (w.complete out intent applied m.config) m := by
  refine ⟨hsup, fun _ => ?_, nofun⟩
  rw [hpath]
  exact hdisk

theorem wp_reconcile (hm : w.daemon = some m) (hplaced : Placed out w m)
    (hp : w.pending = some (seq, intent)) (htold : Told out w) :
    wp (reconcile out intent)
      (fun _ t => Settled out intent w t ∧ ∃ m', t.daemon = some m' ∧ Placed out t m')
      (fun _ t => Kept w t ∧ (∃ m', t.daemon = some m' ∧ Placed out t m') ∧
        (Fails out ∨ intent.path ≠ m.config.path)) w := by
  obtain ⟨hne, source, hread, hsource⟩ := htold seq intent hp
  have hkept : ∀ n, (Fails out ∨ intent.path ≠ m.config.path) → Kept w (w.at_tick n) ∧
      (∃ m', (w.at_tick n).daemon = some m' ∧ Placed out (w.at_tick n) m') ∧
        (Fails out ∨ intent.path ≠ m.config.path) := fun n hf =>
    ⟨⟨rfl, rfl, rfl⟩, ⟨m, hm, hplaced.supervisor, hplaced.here, hplaced.edited⟩, hf⟩
  unfold reconcile
  rw [wp_bind]
  refine wp_memory hm ?_
  rw [wp_bind]
  refine wp_disk_fingerprint (fun n s hs => ?_) ?_
  swap
  · rintro _ n (hf | hnone)
    · exact hkept n (.inl hf)
    · exact hkept n (.inr fun hpath => hnone source (hpath ▸ hread))
  split
  next hpath => exact hkept n (.inr hpath)
  next hpath =>
  rw [not_not] at hpath
  obtain rfl : source = s := by
    rw [← hpath] at hs
    exact Except.ok.inj (hread.symm.trans hs)
  have hdisk : w.disk out intent.path = some (out.fingerprint source) := disk_of_read hread
  split
  next hbefore =>
    obtain ⟨hfound, hforce⟩ := hbefore
    have hdisk' : w.disk out intent.path = some m.config.fingerprint := by
      rw [hdisk, hfound, hforce]
    have hp' : (w.at_tick n).pending = some (seq, intent) := hp
    refine wp_complete hp' (fun n => ⟨?_, m, hm, ?_⟩) fun _ n hf => hkept n (.inl hf)
    · exact settled_complete rfl rfl hne hpath.symm hdisk' (.inr ⟨rfl, hforce⟩)
    · exact placed_complete hplaced.supervisor hpath.symm hdisk'
  next hbefore =>
  split
  next hafter =>
    -- The file is as it was, and so is the memory.
    have hfound := hsource.resolve_right hafter
    refine absurd ⟨hfound, (hplaced.edited seq intent hp hpath).resolve_right ?_⟩ hbefore
    rintro ⟨-, hdisk'⟩
    exact hafter (Option.some_inj.mp (hdisk.symm.trans hdisk'))
  next hafter =>
  rw [not_not] at hafter
  have hplaced' : Placed out (w.at_tick n) m :=
    ⟨hplaced.supervisor, hplaced.here, hplaced.edited⟩
  rw [wp_bind]
  refine wp_mono (wp_adopt (w := w.at_tick n) hm hplaced' hp hpath hread hafter) ?_ ?_
  · rintro - t ⟨n, m', rfl, hp', hforce, hpath'⟩
    have hkept' : ∀ n, Fails out → Kept w { w.at_tick n with daemon := some m' } ∧
        (∃ m'', some m' = some m'' ∧ Placed out { w.at_tick n with daemon := some m' } m'') ∧
          (Fails out ∨ intent.path ≠ m.config.path) := fun n hf =>
      ⟨⟨rfl, rfl, rfl⟩, ⟨m', rfl, hp'.supervisor, hp'.here, hp'.edited⟩, .inl hf⟩
    have hdisk' : w.disk out intent.path = some m'.config.fingerprint := by
      rw [hdisk, hafter, hforce]
    have hp'' : ∀ n, World.pending { w.at_tick n with daemon := some m' } = some (seq, intent) :=
      fun _ => hp
    rw [wp_bind]
    unfold sync_directory
    refine wp_call (fun n => ?_) fun _ n hf => hkept' n hf
    rw [wp_bind]
    refine wp_memory (m := m') rfl ?_
    refine wp_complete (hp'' n) (fun n => ⟨?_, m', rfl, ?_⟩) fun _ n hf => hkept' n hf
    · exact settled_complete rfl rfl hne hpath' hdisk' (.inl ⟨rfl, hforce⟩)
    · exact placed_complete hp'.supervisor hpath' hdisk'
  · rintro - t ⟨n, rfl, hf⟩
    exact hkept n (.inl hf)

omit [DecidableEq F] in
theorem Inv.at_tick (h : Inv out w) (n : Nat) : Inv out (w.at_tick n) :=
  ⟨h.honest, h.told, fun m hm =>
    ⟨(h.placed m hm).supervisor, (h.placed m hm).here, (h.placed m hm).edited⟩⟩

omit [DecidableEq F] in
theorem Settled.inv {t : World F} (ht : Settled out intent w t) (h : Inv out w)
    (hplaced : ∀ m, t.daemon = some m → Placed out t m) : Inv out t := by
  obtain ⟨c, hc, hhonest, -, -⟩ := ht.completed
  refine ⟨fun x hx => ?_, fun _ _ hp => ?_, hplaced⟩
  · rw [hc] at hx
    rcases List.mem_append.mp hx with hx | hx
    · exact h.honest x hx
    · rwa [List.mem_singleton.mp hx]
  · rw [ht.pending] at hp
    cases hp

omit [DecidableEq F] in
theorem Kept.inv {t : World F} (ht : Kept w t) (h : Inv out w)
    (hplaced : ∀ m, t.daemon = some m → Placed out t m) : Inv out t := by
  refine ⟨fun c hc => h.honest c (ht.completions ▸ hc), fun seq intent hp => ?_, hplaced⟩
  rw [ht.pending] at hp
  rw [ht.files]
  exact h.told seq intent hp

variable (out) in
/-- An edit whose file was replaced stays pending, or is completed as applied. -/
structure Proceeds (w t : World F) : Prop where
  grows : ∃ rest, t.completions = w.completions ++ rest
  edit : ∀ seq intent, w.pending = some (seq, intent) →
    w.disk out intent.path = some intent.after →
    t.files = w.files ∧ t.pending = w.pending ∧ t.completions = w.completions ∨
      ∃ c rest, t.completions = w.completions ++ c :: rest ∧ c.intent = intent ∧
        c.applied = true

omit [DecidableEq F] in
theorem Kept.proceeds {t : World F} (h : Kept w t) : Proceeds out w t :=
  ⟨⟨[], by rw [h.completions, List.append_nil]⟩,
    fun _ _ _ _ => .inl ⟨h.files, h.pending, h.completions⟩⟩

omit [DecidableEq F] in
theorem Settled.proceeds {t : World F} (h : Settled out intent w t)
    (hp : w.pending = some (seq, intent)) : Proceeds out w t := by
  obtain ⟨c, hc, hhonest, hintent, hdisk⟩ := h.completed
  refine ⟨⟨[c], hc⟩, fun seq' intent' hp' hafter => .inr ⟨c, [], hc, ?_⟩⟩
  obtain ⟨-, rfl⟩ := Prod.mk.inj (Option.some_inj.mp (hp.symm.trans hp'))
  refine ⟨hintent, hhonest.applied.mpr ?_⟩
  rw [hdisk, hafter, hintent]

omit [DecidableEq F] in
theorem Proceeds.trans {t u : World F} (h : Proceeds out w t) (hnone : t.pending = none)
    (hgrows : ∃ rest, u.completions = t.completions ++ rest) : Proceeds out w u := by
  obtain ⟨rest', hu⟩ := hgrows
  obtain ⟨rest, ht⟩ := h.grows
  refine ⟨⟨rest ++ rest', by rw [hu, ht, List.append_assoc]⟩, fun seq intent hp hafter => ?_⟩
  rcases h.edit seq intent hp hafter with ⟨-, hpending, -⟩ | ⟨c, rest, hc, hintent⟩
  · rw [hnone, hp] at hpending
    cases hpending
  · exact .inr ⟨c, rest ++ rest', by rw [hu, hc]; simp, hintent⟩

variable (out) in
/-- The daemon runs, and all is as it should be. -/
structure Runs (w : World F) : Prop where
  inv : Inv out w
  daemon : ∃ m, w.daemon = some m

theorem wp_reconcile_configuration (h : Runs out w) :
    wp (reconcile_configuration out)
      (fun _ t => Runs out t ∧ Proceeds out w t ∧ t.pending = none)
      (fun _ t => Runs out t ∧ Proceeds out w t ∧ (Fails out ∨ ∃ seq intent m,
        w.pending = some (seq, intent) ∧ w.daemon = some m ∧ intent.path ≠ m.config.path)) w := by
  obtain ⟨m, hm⟩ := h.daemon
  have hplaced := h.inv.placed m hm
  unfold reconcile_configuration
  rw [wp_bind]
  refine wp_pending (fun n => ?_) fun _ n hf =>
    ⟨⟨h.inv.at_tick n, h.daemon⟩, Kept.proceeds ⟨rfl, rfl, rfl⟩, .inl hf⟩
  cases hp : w.pending with
  | none => exact ⟨⟨h.inv.at_tick n, h.daemon⟩, Kept.proceeds ⟨rfl, rfl, rfl⟩, hp⟩
  | some edit =>
    obtain ⟨seq, intent⟩ := edit
    refine wp_mono (wp_reconcile (w := w.at_tick n) hm ((h.inv.at_tick n).placed m hm) hp
      h.inv.told) ?_ ?_
    · rintro - t ⟨hsettled, m', hm', hplaced'⟩
      have hsettled' : Settled out intent w t :=
        ⟨hsettled.files, hsettled.pending, hsettled.completed⟩
      refine ⟨⟨hsettled'.inv h.inv fun x hx => ?_, m', hm'⟩, hsettled'.proceeds hp,
        hsettled.pending⟩
      obtain rfl := Option.some_inj.mp (hm'.symm.trans hx)
      exact hplaced'
    · rintro - t ⟨hkept, ⟨m', hm', hplaced'⟩, hf⟩
      have hkept' : Kept w t := ⟨hkept.files, hkept.pending, hkept.completions⟩
      refine ⟨⟨hkept'.inv h.inv fun x hx => ?_, m', hm'⟩, hkept'.proceeds,
        hf.imp_right fun hpath => ⟨seq, intent, m, rfl, hm, hpath⟩⟩
      obtain rfl := Option.some_inj.mp (hm'.symm.trans hx)
      exact hplaced'

theorem prepare_live {current : F} {edit : String → Except String String} {file : Option String}
    {writer : Fridica.Config.Writer F}
    (h : Fridica.Config.prepare out.fingerprint (.live current) edit file = .ok writer) :
    writer.before = current ∧
      ∃ s, Fridica.Config.read file = .ok s ∧ out.fingerprint s = current := by
  unfold Fridica.Config.prepare at h
  obtain ⟨seen, hseen, h⟩ := Checked.bind_ok.mp h
  dsimp only at h
  split at h
  · cases h
  next hsame =>
  obtain ⟨source, -, h⟩ := Checked.bind_ok.mp h
  split at h
  · cases h
  · obtain rfl := Checked.pure_ok.mp h
    exact ⟨rfl, seen, hseen, not_not.mp hsame⟩

theorem wp_commit {path : String} {writer : Fridica.Config.Writer F} :
    wp (commit out path writer)
      (fun _ t => ∃ n, writer.source.utf8ByteSize ≤ Fridica.Config.SIZE ∧
        t = { w.at_tick n with files := Function.update w.files path (some writer.source) })
      (fun _ t => ∃ n, t = w.at_tick n ∨ writer.source.utf8ByteSize ≤ Fridica.Config.SIZE ∧
        t = { w.at_tick n with files := Function.update w.files path (some writer.source) })
      w := by
  unfold commit
  split
  · exact ⟨w.ticks, .inl rfl⟩
  next hsize =>
  rw [wp_bind]
  refine wp_call (fun n => ?_) fun _ n _ => ⟨n, .inl rfl⟩
  rw [wp_bind]
  refine wp_call (fun n => ?_) fun _ n _ => ⟨n, .inl rfl⟩
  simp only [wp_bind, wp_get]
  refine wp_liftExcept (fun _ _ => ?_) fun _ _ => ⟨n, .inl rfl⟩
  rw [wp_bind]
  refine wp_call (fun n => ?_) fun _ n _ => ⟨n, .inl rfl⟩
  rw [wp_bind, wp_modify]
  unfold sync_directory
  exact wp_call (fun n => ⟨n, not_lt.mp hsize, rfl⟩) fun _ n _ => ⟨n, .inr ⟨not_lt.mp hsize, rfl⟩⟩

omit [DecidableEq F] in
/-- While an edit of the file is pending, the file may be either of the two. -/
theorem runs_pending {t : World F} {s : String} (h : Runs out w) (hm : w.daemon = some m)
    (hp : t.pending = some (seq, intent)) (hpath : intent.path = m.config.path)
    (hbefore : m.config.fingerprint = intent.before) (hne : intent.before ≠ intent.after)
    (hdaemon : t.daemon = w.daemon) (hcompletions : t.completions = w.completions)
    (hs : Fridica.Config.read (t.files intent.path) = .ok s)
    (hfp : out.fingerprint s = intent.before ∨ out.fingerprint s = intent.after) :
    Runs out t := by
  refine ⟨⟨fun c hc => h.inv.honest c (hcompletions ▸ hc), fun seq' intent' hp' => ?_,
    fun x hx => ?_⟩, m, hdaemon.trans hm⟩
  · obtain ⟨-, rfl⟩ := Prod.mk.inj (Option.some_inj.mp (hp.symm.trans hp'))
    exact ⟨hne, s, hs, hfp⟩
  · rw [hdaemon, hm] at hx
    obtain rfl := Option.some_inj.mp hx
    refine ⟨(h.inv.placed m hm).supervisor, fun hother => absurd hpath (hother seq intent hp), ?_⟩
    intro seq' intent' hp' _
    obtain ⟨-, rfl⟩ := Prod.mk.inj (Option.some_inj.mp (hp.symm.trans hp'))
    exact .inl hbefore

theorem read_of_size {source : String} (h : source.utf8ByteSize ≤ Fridica.Config.SIZE) :
    Fridica.Config.read (some source) = .ok source := by
  unfold Fridica.Config.read
  dsimp only
  rw [if_neg (not_lt.mpr h)]

theorem wp_replace {writer : Fridica.Config.Writer F} (h : Runs out w)
    (hm : w.daemon = some m) (hbefore : writer.before = m.config.fingerprint)
    (hne : writer.before ≠ out.fingerprint writer.source) {s : String}
    (hs : Fridica.Config.read (w.files m.config.path) = .ok s)
    (hfp : out.fingerprint s = m.config.fingerprint) :
    wp (replace out ⟨m.config.path, writer.before, out.fingerprint writer.source⟩
      (commit out m.config.path writer))
      (fun _ t => Runs out t ∧ t.completions = w.completions)
      (fun _ t => Runs out t ∧ t.completions = w.completions) w := by
  unfold replace
  rw [wp_bind]
  refine wp_call (fun n => ?_) fun _ n _ => ⟨⟨h.inv.at_tick n, h.daemon⟩, rfl⟩
  rw [wp_bind, wp_modify]
  have hold : ∀ {t : World F}, t.files = w.files → t.daemon = w.daemon →
      t.completions = w.completions →
      t.pending = some (w.next_seq, ⟨m.config.path, writer.before,
        out.fingerprint writer.source⟩) → Runs out t ∧ t.completions = w.completions := by
    intro t hfiles hdaemon hcompletions hp
    refine ⟨runs_pending (s := s) h hm hp rfl hbefore.symm hne hdaemon hcompletions ?_ (.inl ?_),
      hcompletions⟩
    · rw [hfiles]
      exact hs
    · rw [hfp, hbefore]
  have hnew : ∀ {t : World F}, writer.source.utf8ByteSize ≤ Fridica.Config.SIZE →
      t.files = Function.update w.files m.config.path (some writer.source) →
      t.daemon = w.daemon → t.completions = w.completions →
      t.pending = some (w.next_seq, ⟨m.config.path, writer.before,
        out.fingerprint writer.source⟩) → Runs out t ∧ t.completions = w.completions := by
    intro t hsize hfiles hdaemon hcompletions hp
    refine ⟨runs_pending h hm hp rfl hbefore.symm hne hdaemon hcompletions ?_ (.inr rfl),
      hcompletions⟩
    rw [hfiles, Function.update_self]
    exact read_of_size hsize
  refine wp_mono wp_commit ?_ ?_
  · rintro - t ⟨n, hsize, rfl⟩
    exact hnew hsize rfl rfl rfl rfl
  · rintro - t ⟨n, rfl | ⟨hsize, rfl⟩⟩
    · exact hold rfl rfl rfl rfl
    · exact hnew hsize rfl rfl rfl rfl

theorem wp_update_configuration (h : Runs out w) (edit : String → Except String String) :
    wp (update_configuration out edit) (fun _ t => Runs out t ∧ Proceeds out w t)
      (fun _ t => Runs out t ∧ Proceeds out w t) w := by
  unfold update_configuration
  rw [wp_bind]
  refine wp_mono (wp_reconcile_configuration h) ?_ fun _ t ht => ⟨ht.1, ht.2.1⟩
  rintro - t ⟨ht, hproceeds, hnone⟩
  obtain ⟨m, hm⟩ := ht.daemon
  have hend : ∀ n, Runs out (t.at_tick n) ∧ Proceeds out w (t.at_tick n) := fun n =>
    ⟨⟨ht.inv.at_tick n, ht.daemon⟩, hproceeds.trans hnone ⟨[], (List.append_nil _).symm⟩⟩
  rw [wp_bind]
  refine wp_memory hm ?_
  rw [wp_bind]
  refine wp_call (fun n => ?_) fun _ n _ => hend n
  rw [wp_bind]
  refine wp_call (fun n => ?_) fun _ n _ => hend n
  simp only [wp_bind, wp_get]
  refine wp_liftExcept (fun writer hwriter => ?_) fun _ _ => hend n
  obtain ⟨hbefore, s, hs, hfp⟩ := prepare_live hwriter
  rw [wp_bind]
  refine wp_call (fun n => ?_) fun _ n _ => hend n
  rw [wp_bind]
  refine wp_call (fun n => ?_) fun _ n _ => hend n
  split
  · exact hend n
  next hchange =>
  rw [wp_bind]
  have hruns : Runs out (t.at_tick n) := ⟨ht.inv.at_tick n, ht.daemon⟩
  refine wp_mono (wp_replace (w := t.at_tick n) hruns hm hbefore ?_ hs hfp) ?_ ?_
  · rw [hbefore]
    exact Ne.symm hchange
  · rintro - u ⟨hu, hcompletions⟩
    have hgrow : ∀ {v : World F}, Proceeds out u v → Proceeds out w v := by
      intro v hv
      obtain ⟨rest, hrest⟩ := hv.grows
      exact hproceeds.trans hnone ⟨rest, by rw [hrest, hcompletions]; rfl⟩
    exact wp_mono (wp_reconcile_configuration hu) (fun _ v hv => ⟨hv.1, hgrow hv.2.1⟩)
      fun _ v hv => ⟨hv.1, hgrow hv.2.1⟩
  · rintro - u ⟨hu, hcompletions⟩
    exact ⟨hu, hproceeds.trans hnone ⟨[], by rw [hcompletions]; exact (List.append_nil _).symm⟩⟩

theorem wp_start (h : Inv out w) (hdaemon : w.daemon = none) (path : String) :
    wp (start out path) (fun _ t => Runs out t ∧ Proceeds out w t ∧ t.pending = none)
      (fun _ t => Inv out t ∧ Proceeds out w t ∧ (Fails out ∨ w.files path = none ∨
        ∃ seq intent, w.pending = some (seq, intent) ∧ intent.path ≠ path)) w := by
  have hkept : ∀ n, (Fails out ∨ w.files path = none ∨
      ∃ seq intent, w.pending = some (seq, intent) ∧ intent.path ≠ path) →
      Inv out (w.at_tick n) ∧ Proceeds out w (w.at_tick n) ∧ (Fails out ∨ w.files path = none ∨
        ∃ seq intent, w.pending = some (seq, intent) ∧ intent.path ≠ path) :=
    fun n hf => ⟨h.at_tick n, Kept.proceeds ⟨rfl, rfl, rfl⟩, hf⟩
  -- The last steps, once no intent is left.
  have hlast : ∀ {t : World F} {config : Config F}, Inv out t → Proceeds out w t →
      t.pending = none → t.disk out config.path = some config.fingerprint →
      wp (do call out; keep ⟨config, config⟩)
        (fun _ t => Runs out t ∧ Proceeds out w t ∧ t.pending = none)
        (fun _ t => Inv out t ∧ Proceeds out w t ∧ (Fails out ∨ w.files path = none ∨
          ∃ seq intent, w.pending = some (seq, intent) ∧ intent.path ≠ path)) t := by
    intro t config hinv hproceeds hnone hdisk
    have hgrow : ∀ {u : World F}, u.completions = t.completions → Proceeds out w u := fun hu =>
      hproceeds.trans hnone ⟨[], by rw [hu, List.append_nil]⟩
    rw [wp_bind]
    refine wp_call (fun n => ?_) fun _ n hf => ⟨hinv.at_tick n, hgrow rfl, .inl hf⟩
    refine ⟨⟨⟨hinv.honest, hinv.told, fun m hm => ?_⟩, _, rfl⟩, hgrow rfl, hnone⟩
    obtain rfl := Option.some_inj.mp hm
    refine ⟨rfl, fun _ => hdisk, fun seq intent hp => ?_⟩
    rw [show t.pending = some (seq, intent) from hp] at hnone
    cases hnone
  unfold start
  rw [wp_bind]
  refine wp_load (fun n₀ s hs => ?_) fun _ n hf => hkept n (hf.imp_right .inl)
  have hloaded : w.disk out path = some (out.fingerprint s) := by
    unfold World.disk
    rw [hs]
    rfl
  unfold recover_startup
  rw [wp_bind, wp_bind]
  refine wp_pending (fun n => ?_) fun _ n hf => hkept n (.inl hf)
  obtain hp | ⟨seq, intent, hp⟩ :
      w.pending = none ∨ ∃ seq intent, w.pending = some (seq, intent) := by
    cases w.pending with
    | none => exact .inl rfl
    | some edit => exact .inr ⟨edit.1, edit.2, rfl⟩
  · rw [show (w.at_tick n₀).pending = none from hp]
    exact @hlast (w.at_tick n) ⟨path, out.fingerprint s⟩ (h.at_tick n)
      (Kept.proceeds ⟨rfl, rfl, rfl⟩) hp hloaded
  · obtain ⟨hne, source, hread, hsource⟩ := h.told seq intent hp
    rw [show (w.at_tick n₀).pending = some (seq, intent) from hp]
    dsimp only
    rw [wp_bind]
    refine wp_verify (fun n applied hagrees => ?_) ?_
    · obtain ⟨hpath, -, happlied⟩ := hagrees
      rw [wp_bind]
      unfold sync_directory
      refine wp_call (fun n => ?_) fun _ n hf => hkept n (.inl hf)
      have hp' : (w.at_tick n).pending = some (seq, intent) := hp
      refine wp_complete hp' (fun n => ?_) fun _ n hf => hkept n (.inl hf)
      have hsettled : Settled out intent w
          (World.complete out (w.at_tick n) intent applied ⟨path, out.fingerprint s⟩) :=
        settled_complete rfl rfl hne hpath.symm (hpath ▸ hloaded) happlied
      refine @hlast (World.complete out (w.at_tick n) intent applied ⟨path, out.fingerprint s⟩)
        ⟨path, out.fingerprint s⟩ (hsettled.inv h fun m hm => ?_) (hsettled.proceeds hp) rfl hloaded
      rw [show w.daemon = some m from hm] at hdaemon
      cases hdaemon
    · rintro e n (hf | hnone)
      · exact hkept n (.inl hf)
      · refine hkept n (.inr (.inr ⟨seq, intent, hp, fun hpath => ?_⟩))
        have hs' : source = s := by
          have hfile := files_of_read hread
          rw [hpath, show w.files path = some s from hs] at hfile
          exact (Option.some_inj.mp hfile).symm
        subst hs'
        rcases hsource with hbefore | hafter
        · exact hnone false ⟨hpath, ⟨source, hpath ▸ hread, rfl⟩, .inr ⟨rfl, hbefore⟩⟩
        · exact hnone true ⟨hpath, ⟨source, hpath ▸ hread, rfl⟩, .inl ⟨rfl, hafter⟩⟩

end Procedures

/-! ## Runs -/

section Events

variable {w : World F}

theorem Inv.stopped (h : Inv out w) : Inv out w.stopped := ⟨h.honest, h.told, nofun⟩

theorem Proceeds.stopped {t : World F} (h : Proceeds out w t) : Proceeds out w t.stopped :=
  ⟨h.grows, h.edit⟩

theorem runs_keeps {procedure : Host F Unit}
    (h : wp procedure (fun _ t => Inv out t ∧ Proceeds out w t)
      (fun _ t => Inv out t ∧ Proceeds out w t) w) :
    Inv out (w.runs procedure) ∧ Proceeds out w (w.runs procedure) := by
  unfold World.runs
  rcases wp_cases h with ⟨a, t, hend, ht⟩ | ⟨stop, t, hend, ht⟩
  · rw [hend]
    exact ht
  · rw [hend]
    cases stop with
    | error message => exact ht
    | crash => exact ⟨ht.1.stopped, ht.2.stopped⟩

variable [DecidableEq F]

theorem perform_keeps (h : Inv out w) (e : Event) :
    Inv out (perform out w e) ∧ Proceeds out w (perform out w e) := by
  have hsame : Inv out w ∧ Proceeds out w w := ⟨h, Kept.proceeds ⟨rfl, rfl, rfl⟩⟩
  unfold perform
  cases hdaemon : w.daemon with
  | none =>
    cases e with
    | start path =>
      dsimp only
      rcases wp_cases (wp_start h hdaemon path) with ⟨a, t, hend, ht⟩ | ⟨stop, t, hend, ht⟩
      · rw [hend]
        exact ⟨ht.1.inv, ht.2.1⟩
      · rw [hend]
        exact ⟨ht.1.stopped, ht.2.1.stopped⟩
    | crash => exact ⟨h.stopped, hsame.2.stopped⟩
    | pass | update edit => exact hsame
  | some m =>
    have hruns : Runs out w := ⟨h, m, hdaemon⟩
    cases e with
    | start path => exact hsame
    | crash => exact ⟨h.stopped, hsame.2.stopped⟩
    | pass =>
      exact runs_keeps (wp_mono (wp_reconcile_configuration hruns)
        (fun _ t ht => ⟨ht.1.inv, ht.2.1⟩) fun _ t ht => ⟨ht.1.inv, ht.2.1⟩)
    | update edit =>
      exact runs_keeps (wp_mono (wp_update_configuration hruns edit)
        (fun _ t ht => ⟨ht.1.inv, ht.2⟩) fun _ t ht => ⟨ht.1.inv, ht.2⟩)

theorem run_inv (files : String → Option String) (events : List Event) :
    Inv out (run out files events) := by
  unfold run
  have hinit : Inv out (initial files : World F) := ⟨by simp [initial], nofun, nofun⟩
  generalize (initial files : World F) = w₀ at hinit
  induction events generalizing w₀ with
  | nil => exact hinit
  | cons e events ih => exact ih _ (perform_keeps hinit e).1

end Events

/-! ## When nothing fails -/

def Outside.smooth (out : Outside F) : Outside F := { out with answer := fun _ => .proceed }

theorem not_fails_smooth : ¬ Fails out.smooth := fun ⟨_, h⟩ => h rfl

theorem Inv.smooth {w : World F} (h : Inv out w) : Inv out.smooth w :=
  ⟨h.honest, h.told, fun m hm =>
    ⟨(h.placed m hm).supervisor, (h.placed m hm).here, (h.placed m hm).edited⟩⟩

/-- The intent is completed as applied. -/
def Applied (intent : Intent F) (w t : World F) : Prop :=
  t.pending = none ∧
    ∃ c rest, t.completions = w.completions ++ c :: rest ∧ c.intent = intent ∧ c.applied = true

theorem Proceeds.applied {w t : World F} {seq : Nat} {intent : Intent F}
    (h : Proceeds out w t) (hnone : t.pending = none) (hp : w.pending = some (seq, intent))
    (hafter : w.disk out intent.path = some intent.after) : Applied intent w t := by
  refine ⟨hnone, (h.edit seq intent hp hafter).resolve_left ?_⟩
  rintro ⟨-, hpending, -⟩
  rw [hnone, hp] at hpending
  cases hpending

variable [DecidableEq F]

theorem pass_applies {w : World F} {seq : Nat} {intent : Intent F} {m : Memory F} (h : Inv out w)
    (hp : w.pending = some (seq, intent)) (hafter : w.disk out intent.path = some intent.after)
    (hm : w.daemon = some m) (hpath : intent.path = m.config.path) :
    Applied intent w (perform out.smooth w .pass) := by
  have hruns : Runs out.smooth w := ⟨h.smooth, m, hm⟩
  unfold perform
  rw [hm]
  dsimp only
  unfold World.runs
  rcases wp_cases (wp_reconcile_configuration hruns) with ⟨a, t, hend, ht⟩ | ⟨stop, t, -, ht⟩
  · rw [hend]
    exact ht.2.1.applied ht.2.2 hp hafter
  · rcases ht.2.2 with hf | ⟨seq', intent', m', hp', hm', hpath'⟩
    · exact absurd hf not_fails_smooth
    · obtain ⟨-, rfl⟩ := Prod.mk.inj (Option.some_inj.mp (hp.symm.trans hp'))
      obtain rfl := Option.some_inj.mp (hm.symm.trans hm')
      exact absurd hpath hpath'

theorem start_applies {w : World F} {seq : Nat} {intent : Intent F} (h : Inv out w)
    (hp : w.pending = some (seq, intent)) (hafter : w.disk out intent.path = some intent.after)
    (hdaemon : w.daemon = none) :
    Applied intent w (perform out.smooth w (.start intent.path)) := by
  have hinv : Inv out.smooth w := h.smooth
  unfold perform
  rw [hdaemon]
  dsimp only
  rcases wp_cases (wp_start hinv hdaemon intent.path) with ⟨a, t, hend, ht⟩ | ⟨stop, t, -, ht⟩
  · rw [hend]
    exact ht.2.1.applied ht.2.2 hp hafter
  · rcases ht.2.2 with hf | hnone | ⟨seq', intent', hp', hpath⟩
    · exact absurd hf not_fails_smooth
    · unfold World.disk at hafter
      rw [hnone] at hafter
      cases hafter
    · obtain ⟨-, rfl⟩ := Prod.mk.inj (Option.some_inj.mp (hp.symm.trans hp'))
      exact absurd rfl hpath

/-- **An edit is settled as the file has it.** Every completion tells the file on disk and the
configuration in force. While no intent is pending the configuration in force is on disk. An intent
whose file was replaced stays pending or is completed as applied, and the next pass or start in
which nothing fails completes it so. -/
theorem edits_settled (out : Outside F) (files : String → Option String) (events : List Event)
    (w : World F) (hw : w = run out files events) :
    (∀ c ∈ w.completions, c.Honest) ∧
    (w.pending = none → ∀ m, w.daemon = some m → m.supervisor = m.config ∧
      w.disk out m.config.path = some m.config.fingerprint) ∧
    (∀ e, Proceeds out w (perform out w e)) ∧
    ∀ seq intent, w.pending = some (seq, intent) →
      w.disk out intent.path = some intent.after →
      (∀ m, w.daemon = some m → intent.path = m.config.path →
        Applied intent w (perform out.smooth w .pass)) ∧
      (w.daemon = none → Applied intent w (perform out.smooth w (.start intent.path))) := by
  have h : Inv out w := hw ▸ run_inv files events
  refine ⟨h.honest, fun hnone m hm => ?_, fun e => (perform_keeps h e).2, ?_⟩
  · refine ⟨(h.placed m hm).supervisor, (h.placed m hm).here fun seq intent hp => ?_⟩
    rw [hnone] at hp
    cases hp
  · intro seq intent hp hafter
    exact ⟨fun m hm hpath => pass_applies h hp hafter hm hpath,
      fun hdaemon => start_applies h hp hafter hdaemon⟩

/-- The supervisor refuses the first edit. -/
def refusing : Outside String :=
  ⟨id, fun n => if n = 19 then .fail "supervisor is closing" else .proceed⟩

def refused : World String :=
  run refusing (fun path => if path = "c" then some "a" else none)
    [.start "c", .update fun _ => .ok "b"]

theorem edits_settled_refused :
    refused.pending = some (0, ⟨"c", "a", "b"⟩) ∧ refused.daemon.isSome = true ∧
      Applied ⟨"c", "a", "b"⟩ refused (perform refusing.smooth refused .pass) := by
  have hpending : refused.pending = some (0, ⟨"c", "a", "b"⟩) := by decide +kernel
  refine ⟨hpending, by decide +kernel, ?_⟩
  exact ((edits_settled refusing _ _ refused rfl).2.2.2 0 _ hpending (by decide +kernel)).1
    ⟨⟨"c", "a"⟩, ⟨"c", "a"⟩⟩ rfl rfl

end Fridica.Threads.Configuration
