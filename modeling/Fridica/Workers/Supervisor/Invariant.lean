import Fridica.Workers.Supervisor.Pool

/-!
# What the supervisor keeps

The invariant of the world: of its scene, and of every call so far with the scene that it was made
in. `T` and `S` say whether the contracts on the processes and on the intents are taken, too.
-/

open Fridica.Effect Fridica.Table

namespace Fridica.Workers

open Durable

structure Contracts (out : Outside) (owner : String → String) (T S : Prop) : Prop where
  keyed : Keyed out owner
  tame : T → Tame out
  steady : S → Steady out

/-! ## The invariant -/

def Call.completes : Call → Option Nat
  | .done seq _ _ => some seq
  | _ => none

/-- The intents that were completed, the latest first. -/
def World.completed (w : World) : List Nat := w.history.filterMap (·.1.completes)

/-- The task of job `id` is the one that the intent names, and no signal was sent to it. -/
def WorkerIntent.Targets (intent : WorkerIntent) (id : String) (sc : Scene) : Prop :=
  intent.op = .interrupt ∧ intent.job = some id ∧ ∃ r, (id, r) ∈ sc.running ∧
    r.worker_id = intent.worker ∧ intent.attempt = some r.attempt ∧ r.control = .run

/-- Nothing is left of the attempt that the intent names, nor of its process. -/
structure WorkerIntent.Over (intent : WorkerIntent) (S : Prop) (id : String) (sc : Scene) :
    Prop where
  process : ∀ l ∈ sc.live, l.worker_id = intent.worker → l.retiring = false
  task : ∀ r, (id, r) ∈ sc.running → r.worker_id = intent.worker →
    intent.attempt ≠ some r.attempt
  attempt : S → ∀ attempt, intent.attempt = some attempt → ¬ RunsAt id attempt sc.store

def Call.Ok (owner : String → String) (T S : Prop) (sc : Scene) : Call → Prop
  | .moment => True
  | .evict worker queued => ∃ l ∈ sc.live, l.worker = worker ∧ sc.engaged l.worker_id = false ∧
      sc.busy worker = false ∧ ∀ j ∈ queued, j.worker_id ≠ l.worker_id
  | .start job worker => ∃ l ∈ sc.live, l.worker = worker ∧ l.worker_id = owner job ∧
      l.retiring = false ∧ (T → worker ∉ sc.unconfirmed)
  | .send id signal intent => ∀ i, intent = some i → signal = .interrupt ∧ i.Targets id sc
  | .done _ intent _ =>
      (intent.op = .stop → ∀ l ∈ sc.live, l.worker_id ≠ intent.worker) ∧
        (intent.op = .interrupt → ∀ id, intent.job = some id → intent.Over S id sc)

structure Seen (owner : String → String) (cap : String → Nat) (T S : Prop) (c : Call) (sc : Scene) :
    Prop where
  sound : Sound owner sc
  capped : T → Capped cap sc
  ok : c.Ok owner T S sc

structure Settled (w : World) : Prop where
  seqs : DistinctSeqs w.scene.store
  completed : ∀ seq ∈ w.completed, Completed seq w.scene.store
  once : w.completed.Nodup

structure Inv (owner : String → String) (cap : String → Nat) (T S : Prop) (w : World) : Prop where
  sound : Sound owner w.scene
  capped : T → Capped cap w.scene
  settled : S → Settled w
  seen : ∀ e ∈ w.history, Seen owner cap T S e.1 e.2

/-- What a part of an operation leaves that starts no job and ends no task. -/
structure Onward (T S : Prop) (w t : World) : Prop where
  running : t.scene.running = w.scene.running
  taken : t.scene.taken = w.scene.taken
  closing : t.scene.closing = w.scene.closing
  config : t.scene.config = w.scene.config
  entries : (t.scene.live.map Live.worker_id).Sublist (w.scene.live.map Live.worker_id)
  completed : t.completed = w.completed
  stopped : T → ∀ id, Stopped id w.scene.store → Stopped id t.scene.store
  runs : S → ∀ id attempt, RunsAt id attempt t.scene.store → RunsAt id attempt w.scene.store
  count : T → ∀ machine worker_id,
    t.scene.count_besides machine worker_id ≤ w.scene.count_besides machine worker_id

section Worlds

variable {out : Outside} {owner : String → String} {cap : String → Nat} {T S : Prop}
  {w t u : World}

theorem Onward.refl (w : World) : Onward T S w w :=
  ⟨rfl, rfl, rfl, rfl, List.Sublist.refl _, rfl, fun _ _ h => h, fun _ _ _ h => h,
    fun _ _ _ => le_rfl⟩

theorem Onward.trans (h : Onward T S w t) (h' : Onward T S t u) : Onward T S w u :=
  ⟨h'.running.trans h.running, h'.taken.trans h.taken, h'.closing.trans h.closing,
    h'.config.trans h.config, h'.entries.trans h.entries, h'.completed.trans h.completed,
    fun hT id hid => h'.stopped hT id (h.stopped hT id hid),
    fun hS id attempt hr => h.runs hS id attempt (h'.runs hS id attempt hr),
    fun hT machine worker_id => (h'.count hT machine worker_id).trans (h.count hT machine worker_id)⟩

theorem Onward.engaged (h : Onward T S w t) (worker_id : String) :
    t.scene.engaged worker_id = w.scene.engaged worker_id := by
  unfold Scene.engaged Scene.tasks
  rw [h.running, h.taken]

theorem Onward.no_entry (h : Onward T S w t) {worker_id : String}
    (hno : ∀ l ∈ w.scene.live, l.worker_id ≠ worker_id) :
    ∀ l ∈ t.scene.live, l.worker_id ≠ worker_id := by
  intro l hl
  obtain ⟨k, hk, hkl⟩ := List.mem_map.mp (h.entries.mem (List.mem_map_of_mem hl))
  rw [← hkl]
  exact hno k hk

/-! ## One change of the world -/

theorem completed_log {c : Call} : (w.log c).completed = c.completes.toList ++ w.completed := by
  unfold World.completed World.log
  rw [List.filterMap_cons]
  cases c.completes <;> rfl

theorem onward_log {c : Call} (hc : c.completes = none) : Onward T S w (w.log c) := by
  refine ⟨rfl, rfl, rfl, rfl, List.Sublist.refl _, ?_, fun _ _ h => h, fun _ _ _ h => h,
    fun _ _ _ => le_rfl⟩
  rw [completed_log, hc]
  rfl

theorem Inv.log {c : Call} (h : Inv owner cap T S w) (hc : c.completes = none)
    (hok : c.Ok owner T S w.scene) : Inv owner cap T S (w.log c) := by
  have hcompleted : (w.log c).completed = w.completed := by rw [completed_log, hc]; rfl
  refine ⟨h.sound, h.capped, fun hS => ?_, fun e he => ?_⟩
  · obtain ⟨hseqs, hdone, honce⟩ := h.settled hS
    exact ⟨hseqs, hcompleted ▸ hdone, hcompleted ▸ honce⟩
  · rcases List.mem_cons.mp he with rfl | he
    · exact ⟨h.sound, h.capped, hok⟩
    · exact h.seen e he

theorem Inv.on {f : Scene → Scene} (h : Inv owner cap T S w) (hstore : (f w.scene).store =
    w.scene.store) (hsound : Sound owner (f w.scene)) (hcapped : T → Capped cap (f w.scene)) :
    Inv owner cap T S (w.on f) := by
  refine ⟨hsound, hcapped, fun hS => ?_, h.seen⟩
  obtain ⟨hseqs, hdone, honce⟩ := h.settled hS
  refine ⟨?_, ?_, honce⟩
  · exact hstore ▸ hseqs
  · exact hstore ▸ hdone

variable (hc : Contracts out owner T S)
include hc

theorem Inv.commit {n : Nat} {d : Durable} (h : Inv owner cap T S w)
    (hd : (out.answer n).Writes w.scene.store d) :
    Inv owner cap T S (w.on fun sc => { sc with store := d }) := by
  refine ⟨h.sound.store (hc.keyed.owned n _ _ hd h.sound.jobs), fun hT => ?_, fun hS => ?_,
    h.seen⟩
  · exact (h.capped hT).store (fun id => (hc.tame hT).stops id n _ _ hd)
      ((hc.tame hT).committed n _ _ hd (h.capped hT).committed)
  · obtain ⟨hseqs, hdone, honce⟩ := h.settled hS
    exact ⟨(hc.steady hS).seqs n _ _ hd hseqs,
      fun seq hseq => (hc.steady hS).completed seq n _ _ hd (hdone seq hseq), honce⟩

theorem Inv.next (h : Inv owner cap T S w) : Inv owner cap T S (w.next out) := by
  have hmoved : Inv owner cap T S
      { w with scene := w.scene.moved (out.answer w.ticks), ticks := w.ticks + 1 } := by
    refine ⟨h.sound.moved hc.keyed _, fun hT => (h.capped hT).moved (hc.tame hT) h.sound _,
      fun hS => ?_, h.seen⟩
    obtain ⟨hseqs, hdone, honce⟩ := h.settled hS
    exact ⟨(hc.steady hS).seqs _ _ _ .others hseqs,
      fun seq hseq => (hc.steady hS).completed seq _ _ _ .others (hdone seq hseq), honce⟩
  exact hmoved.log rfl trivial

theorem onward_next : Onward T S w (w.next out) := by
  refine ⟨rfl, rfl, rfl, rfl, List.Sublist.refl _, rfl, fun hT id => ?_, fun hS id attempt => ?_,
    fun hT machine worker_id => ?_⟩
  · exact (hc.tame hT).stops id w.ticks _ _ .others
  · exact (hc.steady hS).others w.ticks id attempt _
  · exact count_le_of_sublist (List.Sublist.refl _) fun l hl => counts_moved (hc.tame hT) _ hl

/-! ## Closing -/

/-- How a close of the entry at `i` ends. -/
structure Closed (owner : String → String) (cap : String → Nat) (T S : Prop) (i : Nat)
    (w : World) (closed : Bool) (t : World) : Prop where
  inv : Inv owner cap T S t
  onward : Onward T S w t
  live : ∃ l, w.scene.live[i]? = some l ∧ t.scene.live =
    if closed then (retire i w.scene.live).eraseIdx i else retire i w.scene.live

omit hc in
theorem retire_getElem {live : List Live} {i : Nat} {l : Live} (hi : live[i]? = some l) :
    (retire i live)[i]? = some { l with retiring := true } := by
  rw [retire, List.getElem?_modify_eq, hi]
  rfl

theorem wp_close_live {i : Nat} (h : Inv owner cap T S w)
    (hidle : ∀ l, w.scene.live[i]? = some l → w.scene.engaged l.worker_id = false) :
    wp (close_live out i) (fun closed t => Closed owner cap T S i w closed t)
      (fun _ t => Inv owner cap T S t ∧ Onward T S w t) w := by
  have h₁ := h.next hc
  have o₁ : Onward T S w (w.next out) := onward_next hc
  unfold close_live
  rw [wp_bind, wp_tick, wp_bind, wp_scene]
  cases hi : (w.next out).scene.live[i]? with
  | none => exact ⟨h₁, o₁⟩
  | some l =>
    dsimp only
    rw [wp_bind, wp_edit, wp_bind]
    have hl : w.scene.live[i]? = some l := hi
    have hdown : (w.next out).scene.engaged l.worker_id = false := hidle l hi
    have h₂ : Inv owner cap T S ((w.next out).on (Scene.retiring i l)) :=
      h₁.on rfl (h₁.sound.retiring hi hdown) fun hT => (h₁.capped hT).retiring h₁.sound hi hdown
    have o₂ : Onward T S w ((w.next out).on (Scene.retiring i l)) := by
      refine o₁.trans ⟨rfl, rfl, rfl, rfl, ?_, rfl, fun _ _ h => h, fun _ _ _ h => h, ?_⟩
      · have hids := @retire_map i _ Live.worker_id (fun _ => rfl) (w.next out).scene.live
        exact hids ▸ List.Sublist.refl _
      · intro _ machine worker_id
        refine count_le_of_retire (i := i) rfl (fun _ => rfl) (fun k _ => counts_retiring) ?_
        intro k hk hcounts
        obtain rfl : l = k := Option.some_inj.mp (hi.symm.trans hk)
        exact counts_of_retiring hcounts
    have h₃ := h₂.next hc
    have o₃ := o₂.trans (onward_next hc)
    unfold close_worker
    simp only [wp_bind, wp_tick, wp_scene, wp_pure]
    split
    · rw [wp_bind, wp_edit, wp_pure]
      refine ⟨h₃.on rfl (h₃.sound.erase i) fun hT => (h₃.capped hT).erase i, o₃.trans ?_, l, hl,
        rfl⟩
      have hsub : (((w.next out).on (Scene.retiring i l)).next out |>.scene.live.eraseIdx i).Sublist
          (((w.next out).on (Scene.retiring i l)).next out).scene.live := List.eraseIdx_sublist _ _
      exact ⟨rfl, rfl, rfl, rfl, hsub.map _, rfl, fun _ _ h => h, fun _ _ _ h => h,
        fun _ _ _ => count_le_of_sublist hsub fun _ _ => id⟩
    · rw [wp_bind, wp_edit]
      have hmem : l ∈ (w.next out).scene.live := List.mem_of_getElem? hi
      have hretired : ∀ k ∈ (((w.next out).on (Scene.retiring i l)).next out).scene.live,
          k.worker = l.worker → k.retiring = true := by
        intro k hk hkl
        have hmem' : ({ l with retiring := true } : Live) ∈
            (((w.next out).on (Scene.retiring i l)).next out).scene.live :=
          List.mem_of_getElem? (retire_getElem hi)
        rw [List.inj_on_of_nodup_map h₃.sound.handles hk hmem' hkl]
      have h₄ : Inv owner cap T S ((((w.next out).on (Scene.retiring i l)).next out).on
          fun sc => { sc with unconfirmed := l.worker :: sc.unconfirmed }) :=
        h₃.on rfl (h₃.sound.unconfirm _) fun hT =>
          (h₃.capped hT).unconfirm (h₁.sound.fresh l hmem) hretired
      have o₄ : Onward T S w ((((w.next out).on (Scene.retiring i l)).next out).on
          fun sc => { sc with unconfirmed := l.worker :: sc.unconfirmed }) :=
        o₃.trans ⟨rfl, rfl, rfl, rfl, List.Sublist.refl _, rfl, fun _ _ h => h, fun _ _ _ h => h,
          fun _ _ _ => le_rfl⟩
      split
      · exact ⟨h₄, o₄, l, hl, rfl⟩
      · rw [wp_bind, wp_clock, wp_bind]
        have h₅ := h₄.next hc
        have o₅ := o₄.trans (onward_next hc)
        have h₆ := h₅.next hc
        have o₆ := o₅.trans (onward_next hc)
        refine wp_commit (fun d hd => ?_) fun _ => ⟨h₆, o₆⟩
        refine ⟨h₆.commit hc (.note hd), o₆.trans ?_, l, hl, rfl⟩
        exact ⟨rfl, rfl, rfl, rfl, List.Sublist.refl _, rfl,
          fun hT id => (hc.tame hT).stops id _ _ _ (.note hd),
          fun hS id attempt => (hc.steady hS).note _ _ _ _ _ _ _ _ hd, fun _ _ _ => le_rfl⟩

/-! ## The end of a task -/

omit hc in
theorem mem_of_get {id : String} {r : Running} {running : List (String × Running)}
    (h : get id running = some r) : (id, r) ∈ running := by
  obtain ⟨p, hp, rfl⟩ := Option.map_eq_some_iff.mp h
  obtain ⟨hmem, rfl⟩ := find_key hp
  exact hmem

omit hc in
theorem position_some {live : List Live} {worker_id : String} {l : Live} {i : Nat}
    (h : position live worker_id = some (l, i)) : live[i]? = some l ∧ l.worker_id = worker_id := by
  have hmem := List.mem_of_find?_eq_some h
  have hworker := List.find?_some h
  exact ⟨List.mem_zipIdx_iff_getElem?.mp hmem, by simpa using hworker⟩

omit hc in
theorem position_none {live : List Live} {worker_id : String}
    (h : position live worker_id = none) : ∀ l ∈ live, l.worker_id ≠ worker_id := by
  intro l hl
  obtain ⟨i, hi⟩ := List.mem_iff_getElem?.mp hl
  have hnone := List.find?_eq_none.mp h (l, i) (List.mem_zipIdx_iff_getElem?.mpr hi)
  simpa using hnone

section Ending

variable {sc : Scene} {id : String} {r : Running} {result : Except String TaskEnd}

omit hc in
theorem mem_processes {worker_id : String} {x : Nat} :
    x ∈ sc.processes worker_id ↔ ∃ l ∈ sc.live, l.worker_id = worker_id ∧ l.worker = x := by
  unfold Scene.processes
  simp [and_assoc]

omit hc in
theorem tasks_ended (h : Sound owner sc) (hr : (id, r) ∈ sc.running) :
    remove id sc.running ++ sc.taken = remove id sc.tasks := by
  have htaken : remove id sc.taken = sc.taken := by
    refine List.filter_eq_self.mpr fun p hp => ?_
    have hne : p.1 ≠ id := by
      rintro rfl
      have hnodup := h.tasks
      unfold Scene.tasks at hnodup
      rw [List.map_append, List.nodup_append] at hnodup
      refine hnodup.2.2 _ (List.mem_map_of_mem hr) _ (List.mem_map_of_mem hp) ?_
      exact (h.owned _ (List.mem_append_left _ hr)).trans
        (h.owned p (List.mem_append_right _ hp)).symm
    simpa using hne
  unfold Scene.tasks
  rw [← htaken]
  unfold remove
  rw [List.filter_append, List.filter_filter]
  simp

omit hc in
theorem released_ended (h : Sound owner sc) (hr : (id, r) ∈ sc.running) {live : List Live}
    (hlive : live.Sublist sc.live ∨
      ∃ i l, sc.live[i]? = some l ∧ l.worker_id = r.worker_id ∧ live = retire i sc.live) :
    Released id r.worker_id sc { sc.ended id r.worker_id result with live := live } :=
  ⟨tasks_ended h hr, hlive, rfl, rfl, fun h => h, rfl, rfl, rfl, rfl⟩

omit hc in
theorem unconfirmed_ended {l : Live}
    (hl : l.worker ∈ (sc.ended id r.worker_id result).unconfirmed) :
    l.worker ∈ sc.unconfirmed ∨
      leaves_process result = true ∧ ∃ k ∈ sc.live, k.worker_id = r.worker_id ∧
        k.worker = l.worker := by
  unfold Scene.ended at hl
  dsimp only at hl
  split at hl
  next hleaves =>
    rcases List.mem_append.mp hl with hl | hl
    · exact .inr ⟨hleaves, mem_processes.mp hl⟩
    · exact .inl hl
  · exact .inl hl

omit hc in
theorem fresh_ended (h : Capped cap sc) (hs : Sound owner sc) :
    ∀ x ∈ (sc.ended id r.worker_id result).unconfirmed, x < sc.handles := by
  intro x hx
  unfold Scene.ended at hx
  dsimp only at hx
  split at hx
  · rcases List.mem_append.mp hx with hx | hx
    · obtain ⟨l, hl, -, rfl⟩ := mem_processes.mp hx
      exact hs.fresh l hl
    · exact h.unconfirmed_fresh x hx
  · exact h.unconfirmed_fresh x hx

end Ending

end Worlds

end Fridica.Workers
