import Fridica.Workers.Supervisor.InMemory

/-!
# One pass over the queued jobs

Over a store that nobody else changes, a pass of `schedule` keeps the running jobs in distinct slots
and within the limits. The bookkeeping of the pass is never below what the store holds.
-/

open Fridica.Effect Fridica.Table

namespace Fridica.Workers

open Durable

variable {out : Outside} {owner : String → String} {config : Config} {d₀ d d' : Durable}
  {p : Pass} {news : List Job}

theorem machine_name {name : String} {m : Machine} (h : config.machine name = some m) :
    m.name = name := (find_key h).2

/-! ## What a pass keeps -/

/-- The running jobs are those of `d₀` and the `news`, laid out within the limits. -/
structure Laid (config : Config) (d₀ d : Durable) (news : List Job) : Prop where
  running : d.running.Perm (news ++ d₀.running)
  places : d.places.Nodup
  workers : (d.running.map Job.worker_id).Nodup
  started : ∀ j ∈ news, (∀ k ∈ d₀.running, k.id ≠ j.id) ∧
    ∃ m slot, config.machine m.name = some m ∧ d.place j.worker_id = some (m.name, slot) ∧
      1 ≤ slot ∧ slot ≤ m.max_jobs ∧ d.load m.name ≤ m.max_jobs ∧
      d.running.length ≤ config.limits.max_jobs
  sticky : ∀ w ∈ d₀.workers, ∀ m, config.machine w.machine = some m → 1 ≤ w.slot →
    w.slot ≤ m.max_jobs → d.place w.id = some (w.machine, w.slot)

/-- What the bookkeeping says of the store. -/
structure Books (d₀ d : Durable) (p : Pass) : Prop where
  /-- A worker that is not busy is as it was at the start. -/
  record : ∀ id r, p.record id = some r → id ∉ p.busy → d₀.worker id = some r
  machine : ∀ id r, p.record id = some r → ∃ slot, d.place id = some (r.machine, slot)
  stopped : ∀ id r, p.record id = some r → r.status = "stopped" → Stopped id d
  occupied : ∀ x ∈ d.places, x ∈ p.occupied
  busy : ∀ j ∈ d.running, j.worker_id ∈ p.busy
  per_machine : ∀ machine, p.per_machine machine = d.load machine
  total : p.total = d.running.length

theorem places_perm (h : d'.running.Perm d.running)
    (hplace : ∀ j ∈ d.running, d'.place j.worker_id = d.place j.worker_id) :
    d'.places.Perm d.places := by
  unfold places
  refine (h.filterMap _).trans (List.Perm.of_eq ?_)
  exact List.filterMap_congr hplace

theorem load_congr (h : d'.places.Perm d.places) (machine : String) :
    d'.load machine = d.load machine := h.countP_eq _

theorem Laid.unmoved (h : Laid config d₀ d news) (hrun : d'.running.Perm d.running)
    (hplace : ∀ j ∈ d.running, d'.place j.worker_id = d.place j.worker_id)
    (hsticky : ∀ w ∈ d₀.workers, ∀ m, config.machine w.machine = some m → 1 ≤ w.slot →
      w.slot ≤ m.max_jobs → d'.place w.id = d.place w.id) : Laid config d₀ d' news := by
  have hp := places_perm hrun hplace
  refine ⟨hrun.trans h.running, hp.nodup_iff.mpr h.places,
    (hrun.map _).nodup_iff.mpr h.workers, ?_, ?_⟩
  · intro j hj
    obtain ⟨hnew, m, slot, hm, hjp, hlow, hhigh, hload, hlen⟩ := h.started j hj
    have hjr : j ∈ d.running := h.running.mem_iff.mpr (List.mem_append_left _ hj)
    refine ⟨hnew, m, slot, hm, ?_, hlow, hhigh, ?_, ?_⟩
    · rw [hplace j hjr, hjp]
    · rw [load_congr hp]
      exact hload
    · rw [hrun.length_eq]
      exact hlen
  · intro w hw m hm hlow hhigh
    rw [hsticky w hw m hm hlow hhigh]
    exact h.sticky w hw m hm hlow hhigh

theorem Books.unmoved (h : Books d₀ d p) (hrun : d'.running.Perm d.running)
    (hplace : ∀ j ∈ d.running, d'.place j.worker_id = d.place j.worker_id)
    (hmachine : ∀ id r, p.record id = some r → ∃ slot, d'.place id = some (r.machine, slot))
    (hstop : ∀ id, Stopped id d → Stopped id d') : Books d₀ d' p := by
  have hp := places_perm hrun hplace
  constructor
  · exact h.record
  · exact hmachine
  · intro id r hr hs
    exact hstop id (h.stopped id r hr hs)
  · intro x hx
    exact h.occupied x (hp.mem_iff.mp hx)
  · intro j hj
    exact h.busy j (hrun.mem_iff.mp hj)
  · intro machine
    rw [load_congr hp]
    exact h.per_machine machine
  · rw [hrun.length_eq]
    exact h.total

/-! ## Admitting a job -/

theorem least_mem {key : Nat → Nat × Nat} {slots : List Nat} {slot : Nat}
    (h : Pass.least key slots = some slot) : slot ∈ slots := by
  induction slots generalizing slot with
  | nil => simp [Pass.least] at h
  | cons s rest ih =>
    unfold Pass.least at h
    cases hr : Pass.least key rest with
    | none =>
      rw [hr] at h
      simp_all
    | some other =>
      have hother := ih hr
      rw [hr] at h
      dsimp only at h
      split at h <;> simp_all

theorem choose_some {m : Machine} {w : WorkerRecord} {slot : Nat} (h : p.choose m w = some slot) :
    1 ≤ slot ∧ slot ≤ m.max_jobs ∧ (m.name, slot) ∉ p.occupied ∧
      (1 ≤ w.slot → w.slot ≤ m.max_jobs → slot = w.slot) := by
  unfold Pass.choose at h
  split at h
  next hw =>
    split at h
    · cases h
    next hfree =>
      obtain rfl : w.slot = slot := by simpa using h
      exact ⟨hw.1, hw.2, hfree, fun _ _ => rfl⟩
  next hw =>
    have hmem := least_mem h
    rw [List.mem_filter, List.mem_range'_1] at hmem
    refine ⟨hmem.1.1, by omega, by simpa using hmem.2, ?_⟩
    intro hlow hhigh
    exact absurd ⟨hlow, hhigh⟩ hw

/-- Everything that the pass checks before it claims a job. -/
structure Chosen (config : Config) (p : Pass) (j : Job) (w : WorkerRecord) (m : Machine)
    (slot : Nat) : Prop where
  record : p.record j.worker_id = some w
  machine : config.machine w.machine = some m
  idle : w.id ∉ p.busy
  room : p.per_machine m.name < m.max_jobs
  slot : p.choose m w = some slot
  total : p.total < config.limits.max_jobs

theorem record_id {id : String} {r : WorkerRecord} (h : p.record id = some r) : r.id = id :=
  (find_key h).2

variable {j : Job} {w : WorkerRecord} {m : Machine} {slot : Nat} {c : ClaimedJob}

theorem place_other (ha : Admitted owner j.id slot config.machines c d d') {id : String}
    (h : id ≠ owner j.id) : d'.place id = d.place id := by
  unfold place
  rw [ha.workers id h]

theorem running_other (hb : Books d₀ d p) (hc : Chosen config p j w m slot)
    (hj : j.worker_id = owner j.id) {k : Job} (hk : k ∈ d.running) :
    k.worker_id ≠ owner j.id := by
  intro h
  have hbusy := hb.busy k hk
  rw [h, ← hj, ← record_id hc.record] at hbusy
  exact hc.idle hbusy

theorem record_take {id : String} : (p.take w slot c).record id =
    if id = c.worker.id then some c.worker else p.record id := by
  unfold Pass.take Pass.record
  by_cases hid : id = c.worker.id
  · rw [if_pos hid, List.find?_cons_of_pos (by simpa using hid.symm)]
  · rw [if_neg hid, List.find?_cons_of_neg (by simpa using Ne.symm hid), List.find?_filter]
    congr 1
    funext v
    by_cases hv : v.id = id
    · simp [hv, hid]
    · simp [hv]

section Admission

variable (hb : Books d₀ d p) (hc : Chosen config p j w m slot) (hj : j.worker_id = owner j.id)
  (ha : Admitted owner j.id slot config.machines c d d')

include hb hc hj ha

theorem admitted_machine : c.worker.machine = m.name := by
  obtain ⟨u, hu, -, hum, -⟩ := ha.known
  obtain ⟨s, hs⟩ := hb.machine _ _ hc.record
  have hpl : d.place j.worker_id = some (u.machine, u.slot) := by
    unfold place
    rw [hj, hu]
    rfl
  rw [hpl, Option.some_inj, Prod.mk.injEq] at hs
  rw [← hum, hs.1, machine_name hc.machine]

theorem admitted_place : d'.place (owner j.id) = some (m.name, slot) := by
  unfold place
  rw [ha.worker, Option.map_some, ha.worker_slot, admitted_machine hb hc hj ha]

theorem places_admitted : d'.places.Perm ((m.name, slot) :: d.places) := by
  unfold places
  refine (ha.running.filterMap _).trans (List.Perm.of_eq ?_)
  have hplace : d'.place c.job.worker_id = some (m.name, slot) := by
    rw [ha.job_worker]
    exact admitted_place hb hc hj ha
  rw [List.filterMap_cons, hplace]
  refine congrArg _ (List.filterMap_congr fun k hk => ?_)
  exact place_other ha (running_other hb hc hj hk)

theorem load_admitted (machine : String) :
    d'.load machine = d.load machine + if machine = m.name then 1 else 0 := by
  unfold load
  rw [(places_admitted hb hc hj ha).countP_eq, List.countP_cons]
  simp [eq_comm]

theorem load_admitted_le {m' : Machine} (hm' : config.machine m'.name = some m')
    (h : m'.name ≠ m.name → d.load m'.name ≤ m'.max_jobs) : d'.load m'.name ≤ m'.max_jobs := by
  rw [load_admitted hb hc hj ha]
  by_cases hname : m'.name = m.name
  · have hmm : m' = m := by
      have hm := hc.machine
      rw [← machine_name hm, ← hname, hm'] at hm
      exact Option.some_inj.mp hm
    have hroom := hc.room
    rw [hb.per_machine] at hroom
    rw [if_pos hname, hmm]
    omega
  · rw [if_neg hname]
    exact h hname

theorem Laid.admitted (h : Laid config d₀ d news) (hkeys : (d₀.workers.map (·.id)).Nodup) :
    Laid config d₀ d' (news ++ [c.job]) := by
  obtain ⟨hlow, hhigh, hfree, hkept⟩ := choose_some hc.slot
  have hpl := places_admitted hb hc hj ha
  have hlen : d'.running.length ≤ config.limits.max_jobs := by
    have htotal := hc.total
    rw [hb.total] at htotal
    rw [ha.running.length_eq, List.length_cons]
    omega
  constructor
  · refine ha.running.trans ?_
    have hperm := (h.running.cons c.job).trans List.perm_middle.symm
    simpa using hperm
  · rw [hpl.nodup_iff, List.nodup_cons]
    exact ⟨fun hx => hfree (hb.occupied _ hx), h.places⟩
  · rw [(ha.running.map _).nodup_iff, List.map_cons, List.nodup_cons, ha.job_worker]
    refine ⟨?_, h.workers⟩
    intro hmem
    obtain ⟨k, hk, hkw⟩ := List.mem_map.mp hmem
    exact running_other hb hc hj hk hkw
  · intro k hk
    rcases List.mem_append.mp hk with hk | hk
    · obtain ⟨hnewk, m', slot', hm', hkp, hl, hh, hload, -⟩ := h.started k hk
      have hkr : k ∈ d.running := h.running.mem_iff.mpr (List.mem_append_left _ hk)
      refine ⟨hnewk, m', slot', hm', ?_, hl, hh, ?_, hlen⟩
      · rw [place_other ha (running_other hb hc hj hkr), hkp]
      · exact load_admitted_le hb hc hj ha hm' fun _ => hload
    · obtain rfl : k = c.job := by simpa using hk
      have hm : config.machine m.name = some m := by
        rw [machine_name hc.machine]
        exact hc.machine
      refine ⟨?_, m, slot, hm, ?_, hlow, hhigh, ?_, hlen⟩
      · intro k hk
        rw [ha.job_id]
        exact ha.queued k (h.running.mem_iff.mpr (List.mem_append_right _ hk))
      · rw [ha.job_worker]
        exact admitted_place hb hc hj ha
      · exact load_admitted_le hb hc hj ha hm fun h => absurd rfl h
  · intro v hv mv hmv hl hh
    by_cases hvo : v.id = owner j.id
    · -- The worker of the job takes the slot that it had.
      have hwv : w = v := by
        have hrec := hb.record _ _ hc.record (record_id hc.record ▸ hc.idle)
        have hvd : d₀.worker j.worker_id = some v :=
          (find_key_iff hkeys).mpr ⟨hv, by rw [hvo, hj]⟩
        exact Option.some_inj.mp (hrec.symm.trans hvd)
      subst hwv
      obtain rfl : m = mv := Option.some_inj.mp (hc.machine.symm.trans hmv)
      rw [hvo, admitted_place hb hc hj ha, machine_name hmv, hkept hl hh]
    · rw [place_other ha hvo]
      exact h.sticky v hv mv hmv hl hh

theorem Books.admitted (hstop : ∀ id, Stopped id d → Stopped id d') :
    Books d₀ d' (p.take w slot c) := by
  have hm := admitted_machine hb hc hj ha
  have hrec : ∀ id r, (p.take w slot c).record id = some r →
      (id = owner j.id ∧ r = c.worker) ∨ (id ≠ owner j.id ∧ p.record id = some r) := by
    intro id r hr
    rw [record_take, ha.worker_id] at hr
    split at hr
    next hid => exact .inl ⟨hid, (Option.some_inj.mp hr).symm⟩
    next hid => exact .inr ⟨hid, hr⟩
  constructor
  · intro id r hr hbusy
    rcases hrec id r hr with ⟨rfl, rfl⟩ | ⟨-, hp⟩
    · exact absurd (by simp [Pass.take, ha.worker_id]) hbusy
    · exact hb.record id r hp fun h => hbusy (List.mem_cons_of_mem _ h)
  · intro id r hr
    rcases hrec id r hr with ⟨rfl, rfl⟩ | ⟨hid, hp⟩
    · exact ⟨slot, by rw [admitted_place hb hc hj ha, hm]⟩
    · rw [place_other ha hid]
      exact hb.machine id r hp
  · intro id r hr hs
    rcases hrec id r hr with ⟨rfl, rfl⟩ | ⟨hid, hp⟩
    · exact absurd hs ha.worker_status
    · exact hstop id (hb.stopped id r hp hs)
  · intro x hx
    rw [(places_admitted hb hc hj ha).mem_iff, List.mem_cons] at hx
    unfold Pass.take
    rw [hm, List.mem_cons]
    exact hx.imp_right (hb.occupied x)
  · intro k hk
    rw [ha.running.mem_iff, List.mem_cons] at hk
    unfold Pass.take
    rw [ha.worker_id, List.mem_cons]
    rcases hk with rfl | hk
    · exact .inl ha.job_worker
    · exact .inr (hb.busy k hk)
  · intro machine
    rw [load_admitted hb hc hj ha, ← hb.per_machine, ← hm]
    rfl
  · rw [ha.running.length_eq, List.length_cons, ← hb.total]
    rfl

theorem Laid.failed (h : Laid config d₀ d news) (hkeys : (d₀.workers.map (·.id)).Nodup)
    {d₂ : Durable} (hrun : d₂.running.Perm (d'.running.filter (·.id ≠ c.job.id)))
    (hplace : ∀ id, d₂.place id = d'.place id) (hstop : ∀ id, Stopped id d → Stopped id d₂) :
    Laid config d₀ d₂ news ∧ Books d₀ d₂ p := by
  have hsame : d₂.running.Perm d.running := by
    refine hrun.trans ((ha.running.filter _).trans (List.Perm.of_eq ?_))
    rw [List.filter_cons_of_neg (by simp), List.filter_eq_self]
    intro k hk
    rw [ha.job_id]
    simpa using ha.queued k hk
  have hstay : ∀ k ∈ d.running, d₂.place k.worker_id = d.place k.worker_id := by
    intro k hk
    rw [hplace, place_other ha (running_other hb hc hj hk)]
  constructor
  · refine h.unmoved hsame hstay ?_
    intro v hv m' hm' hlow hhigh
    rw [hplace, (Laid.admitted hb hc hj ha h hkeys).sticky v hv m' hm' hlow hhigh,
      h.sticky v hv m' hm' hlow hhigh]
  · refine hb.unmoved hsame hstay ?_ hstop
    intro id r hr
    rw [hplace]
    by_cases hid : id = owner j.id
    · rw [hid, ← hj, hc.record, Option.some_inj] at hr
      exact ⟨slot, by rw [hid, admitted_place hb hc hj ha, ← hr, machine_name hc.machine]⟩
    · rw [place_other ha hid]
      exact hb.machine id r hr

end Admission

/-! ## What leaves the store alone -/

def Still (d : Durable) (config : Config) (w : World) : Prop :=
  w.scene.store = d ∧ w.scene.config = config

section Quiet

variable (h : Quiet out owner)

include h

theorem tick_still : Keeps (Still d config) (tick out) := by
  rintro w ⟨hs, hc⟩
  refine ⟨?_, hc⟩
  change (out.answer w.ticks).others w.scene.store = d
  rw [h.others, hs]

omit h in
theorem scene_still : Keeps (Still d config) scene := fun _ hw => hw

omit h in
theorem log_still (c : Call) : Keeps (Still d config) (log c) := fun _ hw => hw

omit h in
theorem edit_still {f : Scene → Scene}
    (hf : ∀ sc, (f sc).store = sc.store ∧ (f sc).config = sc.config) :
    Keeps (Still d config) (edit f) := by
  rintro w ⟨hs, hc⟩
  exact ⟨(hf w.scene).1.trans hs, (hf w.scene).2.trans hc⟩

theorem read_still {α : Type} (view : Durable → Except String α) :
    Keeps (Still d config) (read out view) := by
  intro w hw
  have hn := tick_still h w hw
  exact wp_read (fun _ _ => hn) fun _ => hn

theorem record_close_failure_still (id : String) (now : ℚ) :
    Keeps (Still d config) (record_close_failure out id now) := by
  intro w hw
  have hn := tick_still h w hw
  refine wp_commit (fun d' hnote => ⟨?_, hn.2⟩) fun _ => hn
  exact (h.note _ _ _ _ _ _ hnote).trans hn.1

theorem close_live_still (i : Nat) : Keeps (Still d config) (close_live out i) := by
  unfold close_live
  refine keeps_bind (tick_still h) fun _ => keeps_bind scene_still fun sc => ?_
  split
  · exact keeps_throw _
  next l _ =>
    refine keeps_bind (edit_still fun _ => ⟨rfl, rfl⟩) fun _ => ?_
    have hclose : Keeps (Still d config) (close_worker out l.worker) :=
      keeps_bind (tick_still h) fun _ => keeps_bind scene_still fun _ => keeps_pure _
    refine keeps_bind hclose fun closed => ?_
    split
    · exact keeps_bind (edit_still fun _ => ⟨rfl, rfl⟩) fun _ => keeps_pure _
    · refine keeps_bind (edit_still fun _ => ⟨rfl, rfl⟩) fun _ => ?_
      split
      · exact keeps_pure _
      · refine keeps_bind (keeps_bind (tick_still h) fun _ => keeps_pure _) fun now => ?_
        exact keeps_bind (record_close_failure_still h _ _) fun _ => keeps_pure _

theorem finished_still (running : List (String × Running)) :
    Keeps (Still d config) (finished out running) := by
  induction running with
  | nil => exact keeps_pure _
  | cons p rest ih =>
    unfold finished
    have hover : Keeps (Still d config) (is_over out p.1) := by
      unfold is_over
      refine keeps_bind (tick_still h) fun a => ?_
      split
      · exact keeps_pure _
      · exact keeps_bind (read_still h _) fun _ => keeps_pure _
    exact keeps_bind hover fun _ => keeps_bind ih fun _ => keeps_pure _

omit h in
theorem reaped_still (worker_id : String) (result : Except String TaskEnd) (sc : Scene) :
    (sc.reaped worker_id result).store = sc.store ∧
      (sc.reaped worker_id result).config = sc.config := by
  unfold Scene.reaped
  split
  · split <;> exact ⟨rfl, rfl⟩
  · split <;> exact ⟨rfl, rfl⟩

theorem reap_still : Keeps (Still d config) (reap out) := by
  unfold reap
  refine keeps_bind scene_still fun sc => keeps_bind (finished_still h _) fun done => ?_
  refine keeps_bind (keeps_foldlM (fun error id => ?_) done none) fun error => ?_
  · unfold reap_one
    refine keeps_bind (tick_still h) fun _ => keeps_bind scene_still fun sc => ?_
    split
    · exact keeps_throw _
    · refine keeps_bind (edit_still fun sc => reaped_still _ _ _) fun _ => ?_
      split <;> exact keeps_pure _
  · split
    · exact keeps_throw _
    · exact keeps_pure _

theorem spec_of_still (settings : Config) (view : WorkerRecord) :
    Keeps (Still d config) (spec_of out settings view) := by
  unfold spec_of
  split
  · exact keeps_pure _
  · refine keeps_bind (tick_still h) fun _ => ?_
    split
    · exact keeps_pure _
    · split <;> exact keeps_pure _

theorem settle_process_still (settings : Config) (now : ℚ) (j : Job) (w : WorkerRecord)
    (spec : Except String WorkerSpec) :
    Keeps (Still d config) (settle_process out settings now j w spec) := by
  unfold settle_process
  refine keeps_bind (tick_still h) fun _ => keeps_bind scene_still fun sc => ?_
  split
  · exact keeps_pure _
  · split
    · exact keeps_pure _
    · exact close_live_still h _

theorem make_room_still (m : Machine) (queued : List Job) (fuel : Nat) :
    Keeps (Still d config) (make_room out m queued fuel) := by
  induction fuel with
  | zero => exact keeps_pure _
  | succ fuel ih =>
    unfold make_room
    refine keeps_bind (tick_still h) fun _ => keeps_bind scene_still fun sc => ?_
    split
    · exact keeps_pure _
    · split
      · exact keeps_pure _
      · refine keeps_bind (log_still _) fun _ => keeps_bind (close_live_still h _) fun closed => ?_
        split
        · exact ih
        · exact keeps_pure _

theorem find_room_still (m : Machine) (queued : List Job) (w : WorkerRecord) :
    Keeps (Still d config) (find_room out m queued w) := by
  unfold find_room
  refine keeps_bind scene_still fun sc => ?_
  split
  · exact keeps_pure _
  · exact make_room_still h _ _ _

theorem process_for_still (c : ClaimedJob) (spec : WorkerSpec) :
    Keeps (Still d config) (process_for out c spec) := by
  unfold process_for
  refine keeps_bind (tick_still h) fun a => keeps_bind scene_still fun sc => ?_
  split
  · exact keeps_pure _
  · split
    · exact keeps_pure _
    · exact keeps_bind (edit_still fun _ => ⟨rfl, rfl⟩) fun _ => keeps_pure _

/-! ## One job, and the loop -/

theorem wp_claim {id : String} {slot : Nat} {now : ℚ} {w : World}
    {Q : Option ClaimedJob → World → Prop} {E : String → World → Prop}
    (hnone : ∀ t, Unmoved w.scene.store t.scene.store →
      (∀ id, Stopped id w.scene.store → Stopped id t.scene.store) → Q none t)
    (hsome : ∀ c t, Admitted owner id slot config.machines c w.scene.store t.scene.store →
      (∀ id, Stopped id w.scene.store → Stopped id t.scene.store) → Q (some c) t)
    (hE : ∀ e t, t.scene.store = w.scene.store → E e t) :
    wp (claim out id slot config now) Q E w := by
  have hstore : (w.next out).scene.store = w.scene.store := h.others _ _
  refine wp_write ?_ fun e => hE e _ hstore
  intro x d' hd
  rw [hstore] at hd
  have hstop : ∀ id, Stopped id w.scene.store → Stopped id d' :=
    fun id => h.stops id _ _ _ (.claim_job hd)
  cases x with
  | none => exact hnone _ (h.refused _ _ _ _ _ _ _ _ hd) hstop
  | some c => exact hsome c _ (h.admitted _ _ _ _ _ _ _ _ _ hd) hstop

/-- The jobs started so far, with the layout and the bookkeeping that they leave. -/
def Going (config : Config) (d₀ : Durable) (p : Pass) (w : World) : Prop :=
  ∃ news, Laid config d₀ w.scene.store news ∧ Books d₀ w.scene.store p ∧
    news.map (·.id) = p.started

/-- A job whose worker is stopped, or whose machine is gone, is never admitted. -/
theorem claim_refused {p : Pass} {w : World} {j : Job} {r : WorkerRecord} {now : ℚ}
    (hg : Going config d₀ p w) (hj : j.worker_id = owner j.id)
    (hr : p.record j.worker_id = some r)
    (hrefuse : config.machine r.machine = none ∨ r.status = "stopped") :
    wp (claim out j.id 1 config now) (fun _ => Going config d₀ p)
      (fun _ t => ∃ news, Laid config d₀ t.scene.store news) w := by
  obtain ⟨news, hl, hb, hn⟩ := hg
  refine wp_claim h ?_ ?_ ?_
  · intro t ht hstop
    refine ⟨news, hl.unmoved ht.running (fun k _ => ht.place _) fun v _ _ _ _ _ => ht.place _,
      hb.unmoved ht.running (fun k _ => ht.place _) ?_ hstop, hn⟩
    intro id r' hr'
    rw [ht.place]
    exact hb.machine id r' hr'
  · intro c t ha hstop
    exfalso
    obtain ⟨u, hu, hus, -, m, hm, hmu⟩ := ha.known
    rw [← hj] at hu
    rcases hrefuse with hgone | hstopped
    · obtain ⟨s, hs⟩ := hb.machine _ _ hr
      unfold place at hs
      rw [hu, Option.map_some, Option.some_inj, Prod.mk.injEq] at hs
      rw [← hs.1] at hgone
      exact absurd hmu (by simpa using List.find?_eq_none.mp hgone m hm)
    · exact hus (hb.stopped _ _ hr hstopped u (find_key hu).1 (find_key hu).2)
  · intro e t ht
    rw [ht]
    exact ⟨news, hl⟩

theorem complete_failed {p : Pass} {j : Job} {r : WorkerRecord} {m : Machine} {slot : Nat}
    {c : ClaimedJob} {news : List Job} {completion : Completion} {now : ℚ} {w : World}
    (hkeys : (d₀.workers.map (·.id)).Nodup) (hl : Laid config d₀ d news) (hb : Books d₀ d p)
    (hc : Chosen config p j r m slot) (hj : j.worker_id = owner j.id)
    (ha : Admitted owner j.id slot config.machines c d w.scene.store)
    (hstop : ∀ id, Stopped id d → Stopped id w.scene.store) :
    wp (complete out c.job.id c.job.attempt completion now)
      (fun _ t => Laid config d₀ t.scene.store news ∧ Books d₀ t.scene.store p)
      (fun _ t => ∃ news, Laid config d₀ t.scene.store news) w := by
  have hstore : (w.next out).scene.store = w.scene.store := h.others _ _
  refine wp_commit ?_ fun e => ?_
  · intro d₂ hd
    rw [hstore] at hd
    have hattempt : ∀ k ∈ w.scene.store.running, k.id = c.job.id → k.attempt = c.job.attempt := by
      intro k hk hid
      rcases List.mem_cons.mp (ha.running.mem_iff.mp hk) with rfl | hk
      · rfl
      · exact absurd (hid.trans ha.job_id) (ha.queued k hk)
    exact Laid.failed hb hc hj ha hl hkeys (h.ended_running _ _ _ _ _ _ _ hattempt hd)
      (h.ended_place _ _ _ _ _ _ _ hd)
      fun id hs => h.stops id _ _ _ (.complete_job hd) (hstop id hs)
  · rw [hstore]
    exact ⟨news ++ [c.job], Laid.admitted hb hc hj ha hl hkeys⟩

theorem launch_laid {p : Pass} {j : Job} {r : WorkerRecord} {m : Machine} {slot : Nat}
    {c : ClaimedJob} {news : List Job} {spec : Except String WorkerSpec} {now : ℚ} {w : World}
    (hkeys : (d₀.workers.map (·.id)).Nodup) (hl : Laid config d₀ d news) (hb : Books d₀ d p)
    (hn : news.map (·.id) = p.started) (hc : Chosen config p j r m slot)
    (hj : j.worker_id = owner j.id)
    (ha : Admitted owner j.id slot config.machines c d w.scene.store)
    (hstop : ∀ id, Stopped id d → Stopped id w.scene.store) :
    wp (launch out p now r slot spec c) (fun q t => Going config d₀ q t)
      (fun _ t => ∃ news, Laid config d₀ t.scene.store news) w := by
  have hl' := Laid.admitted hb hc hj ha hl hkeys
  have hfailed : ∀ completion t, t.scene.store = w.scene.store →
      wp (complete out c.job.id c.job.attempt completion now >>= fun _ => pure p)
        (fun q t => Going config d₀ q t) (fun _ t => ∃ news, Laid config d₀ t.scene.store news)
        t := by
    intro completion t ht
    rw [wp_bind]
    rw [← ht] at ha hstop
    refine wp_mono (complete_failed h hkeys hl hb hc hj ha hstop) ?_ fun _ _ => id
    rintro - u ⟨hlu, hbu⟩
    exact ⟨news, hlu, hbu, hn⟩
  unfold launch
  cases spec with
  | error e => exact hfailed _ w rfl
  | ok spec =>
    rw [wp_bind]
    refine wp_mono (process_for_still h c spec w ⟨rfl, rfl⟩) ?_ ?_
    · rintro (failure | worker) t ht
      · exact hfailed _ t ht.1
      · refine ⟨news ++ [c.job], ?_, ?_, ?_⟩
        · change Laid config d₀ t.scene.store _
          rw [ht.1]
          exact hl'
        · change Books d₀ t.scene.store _
          rw [ht.1]
          exact Books.admitted hb hc hj ha hstop
        · simp [Pass.take, hn]
    · intro e t ht
      rw [ht.1]
      exact ⟨_, hl'⟩

theorem schedule_job_laid {p : Pass} {j : Job} {now : ℚ} {queued : List Job} {w : World}
    (hkeys : (d₀.workers.map (·.id)).Nodup) (hg : Going config d₀ p w)
    (hj : j.worker_id = owner j.id) (htotal : p.total < config.limits.max_jobs) :
    wp (schedule_job out config now queued p j) (fun q t => Going config d₀ q t)
      (fun _ t => ∃ news, Laid config d₀ t.scene.store news) w := by
  have hgo := hg
  obtain ⟨news, hl, hb, hn⟩ := hg
  have hskip : ∀ t, Still w.scene.store w.scene.config t → Going config d₀ p t := by
    rintro t ⟨ht, -⟩
    rw [← ht] at hl hb
    exact ⟨news, hl, hb, hn⟩
  have hfail : ∀ (e : String) t, Still w.scene.store w.scene.config t →
      ∃ news, Laid config d₀ t.scene.store news := by
    rintro - t ⟨ht, -⟩
    rw [ht]
    exact ⟨news, hl⟩
  unfold schedule_job
  split
  · exact ⟨news, hl⟩
  next r hr =>
  split
  next hm =>
    rw [wp_bind]
    exact claim_refused h hgo hj hr (.inl hm)
  next m hm =>
  split
  next hs =>
    rw [wp_bind]
    exact claim_refused h hgo hj hr (.inr hs)
  split
  · exact hgo
  next hbusy =>
  split
  · exact hgo
  next slot hslot =>
  have hc : Chosen config p j r m slot :=
    ⟨hr, hm, fun hb => hbusy (.inl hb), by omega, hslot, htotal⟩
  rw [wp_bind]
  refine wp_mono (spec_of_still h config _ w ⟨rfl, rfl⟩) (fun spec t ht => ?_) hfail
  rw [wp_bind]
  refine wp_mono (settle_process_still h config now j r spec t ht) (fun settled t ht => ?_) hfail
  split
  swap
  · exact hskip t ht
  rw [wp_bind]
  refine wp_mono (find_room_still h m queued r t ht) (fun room t ht => ?_) hfail
  split
  swap
  · exact hskip t ht
  rw [wp_bind]
  have hg' := hskip t ht
  rw [← ht.1] at hl hb
  refine wp_claim h ?_ ?_ ?_
  · intro u hu hstop
    refine ⟨news, hl.unmoved hu.running (fun k _ => hu.place _) fun v _ _ _ _ _ => hu.place _,
      hb.unmoved hu.running (fun k _ => hu.place _) ?_ hstop, hn⟩
    intro id r' hr'
    rw [hu.place]
    exact hb.machine id r' hr'
  · intro c u ha hstop
    exact launch_laid h hkeys hl hb hn hc hj ha hstop
  · intro e u hu
    rw [hu]
    exact ⟨news, hl⟩

theorem schedule_jobs_laid {now : ℚ} {queued jobs : List Job} {p : Pass} {w : World}
    (hkeys : (d₀.workers.map (·.id)).Nodup) (hg : Going config d₀ p w)
    (hjobs : ∀ j ∈ jobs, j.worker_id = owner j.id) :
    wp (schedule_jobs out config now queued jobs p) (fun q t => Going config d₀ q t)
      (fun _ t => ∃ news, Laid config d₀ t.scene.store news) w := by
  induction jobs generalizing p w with
  | nil => exact hg
  | cons j rest ih =>
    unfold schedule_jobs
    split
    · exact hg
    next htotal =>
      rw [wp_bind]
      refine wp_mono (schedule_job_laid h hkeys hg (hjobs j List.mem_cons_self) (by omega)) ?_
        fun _ _ => id
      intro q t ht
      exact ih ht fun k hk => hjobs k (List.mem_cons_of_mem j hk)

end Quiet

/-! ## The start -/

theorem record_start (hkeys : (d.workers.map (·.id)).Nodup) (running : List (String × Running))
    (id : String) : (Pass.start d.work_snapshot running).record id = d.worker id :=
  find_foldl_insert_nodup hkeys id

theorem laid_start (hplaces : d.places.Nodup) (hworkers : (d.running.map Job.worker_id).Nodup)
    (hkeys : (d.workers.map (·.id)).Nodup) : Laid config d d [] := by
  refine ⟨List.Perm.refl _, hplaces, hworkers, by simp, ?_⟩
  intro w hw m hm hlow hhigh
  have hd : d.worker w.id = some w := (find_key_iff hkeys).mpr ⟨hw, rfl⟩
  unfold place
  rw [hd, Option.map_some]

theorem books_start (hkeys : (d.workers.map (·.id)).Nodup) (running : List (String × Running)) :
    Books d d (Pass.start d.work_snapshot running) := by
  have hrec := record_start hkeys running
  have hheld : (d.running.filterMap fun j =>
      (Pass.start d.work_snapshot running).record j.worker_id).map
        (fun w => (w.machine, w.slot)) = d.places := by
    unfold places place
    rw [List.map_filterMap]
    refine List.filterMap_congr fun j _ => ?_
    rw [hrec]
  constructor
  · intro id r hr _
    rw [← hrec, hr]
  · intro id r hr
    rw [hrec] at hr
    unfold place
    rw [hr]
    exact ⟨r.slot, rfl⟩
  · intro id r hr hs w hw hid
    rw [hrec] at hr
    have hd : d.worker id = some w := (find_key_iff hkeys).mpr ⟨hw, hid⟩
    rw [hd, Option.some_inj] at hr
    rw [hr]
    exact hs
  · intro x hx
    rw [← hheld] at hx
    exact hx
  · intro j hj
    exact List.mem_append_left _ (List.mem_map_of_mem hj)
  · intro machine
    unfold load
    rw [← hheld, List.countP_map]
    rfl
  · rfl

/-- **A pass keeps the running jobs in distinct slots and within every limit.** -/
theorem schedule_laid (h : Quiet out owner) (w : World) (howned : Owned owner w.scene.store)
    (hkeys : (w.scene.store.workers.map (·.id)).Nodup) (hplaces : w.scene.store.places.Nodup)
    (hworkers : (w.scene.store.running.map Job.worker_id).Nodup) :
    ∃ news, Laid w.scene.config w.scene.store (after (schedule out) w).scene.store news ∧
      ∀ started, (outcome (schedule out) w).1 = .ok started → news.map (·.id) = started := by
  have hl : Laid w.scene.config w.scene.store w.scene.store [] := laid_start hplaces hworkers hkeys
  have hstart : ∀ t, Still w.scene.store w.scene.config t →
      Laid w.scene.config w.scene.store t.scene.store [] := by
    rintro t ⟨ht, -⟩
    rw [ht]
    exact hl
  have hwp : wp (schedule out)
      (fun started t => ∃ news, Laid w.scene.config w.scene.store t.scene.store news ∧
        news.map (·.id) = started)
      (fun _ t => ∃ news, Laid w.scene.config w.scene.store t.scene.store news) w := by
    unfold schedule
    rw [wp_bind]
    refine wp_mono (reap_still h w ⟨rfl, rfl⟩) (fun _ t ht => ?_) fun _ t ht => ⟨[], hstart t ht⟩
    rw [wp_bind, wp_scene]
    split
    · exact ⟨[], hstart t ht, rfl⟩
    rw [wp_bind, wp_clock, wp_bind]
    have htick := tick_still h _ (tick_still h _ ht)
    refine wp_read ?_ fun _ => ⟨[], hstart _ htick⟩
    rintro snapshot hsnap
    obtain rfl : w.scene.store.work_snapshot = snapshot := by
      have heq := Except.ok.inj hsnap
      rw [← heq]
      congr 1
      exact htick.1.symm
    rw [wp_bind, ht.2]
    have hgoing : Going w.scene.config w.scene.store
        (Pass.start w.scene.store.work_snapshot t.scene.running)
        ((t.next out).next out) := by
      refine ⟨[], hstart _ htick, ?_, rfl⟩
      rw [htick.1]
      exact books_start hkeys _
    refine wp_mono (schedule_jobs_laid h hkeys hgoing ?_) ?_ fun _ _ => id
    · intro j hj
      exact howned j (List.mem_of_mem_filter hj)
    · rintro p u ⟨news, hlu, -, hn⟩
      exact ⟨news, hlu, hn⟩
  unfold after
  rcases wp_cases hwp with ⟨started, t, heq, news, hlt, hn⟩ | ⟨e, t, heq, news, hlt⟩
  · refine ⟨news, by rw [heq]; exact hlt, ?_⟩
    rintro started' hok
    rw [heq] at hok
    exact hn.trans (Except.ok.inj hok)
  · refine ⟨news, by rw [heq]; exact hlt, ?_⟩
    rintro started' hok
    rw [heq] at hok
    cases hok

/-- Two queued jobs of one machine with two slots, the first of a worker that had none. -/
def twoQueued : World :=
  let m : Machine := ⟨"m", "local", [⟨"w", "/w"⟩], ["codex"], [], 2, 2⟩
  let worker (id : String) (slot : Nat) : WorkerRecord := ⟨id, "m", "w", "codex", slot, "idle", 0⟩
  { scene := {
      config := ⟨[m], ⟨4, 100, 100, 100⟩, ⟨"codex", "", ""⟩, []⟩
      live := [], running := [], closing := false, observe_only := false, taken := []
      store := ⟨[worker "a" 0, worker "b" 1],
        [⟨"a-0", "a", 0, "queued", ""⟩, ⟨"b-0", "b", 0, "queued", ""⟩], []⟩
      alive := fun _ => false, busy := fun _ => false, handles := 0, dead := [], unconfirmed := [] }
    ticks := 0
    history := [] }

def firstLetter (id : String) : String := if id = "a-0" then "a" else "b"

theorem schedule_laid_twoQueued :
    ∃ news, Laid twoQueued.scene.config twoQueued.scene.store
      (after (schedule (InMemory.outside firstLetter fun _ => InMemory.quiet)) twoQueued).scene.store
        news ∧
      ∀ started, (outcome (schedule (InMemory.outside firstLetter fun _ => InMemory.quiet))
        twoQueued).1 = .ok started → news.map (·.id) = started :=
  schedule_laid InMemory.quietly twoQueued (by unfold Owned; decide) (by decide) (by decide)
    (by decide)

end Fridica.Workers
