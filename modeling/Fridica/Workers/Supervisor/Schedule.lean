import Fridica.Workers.Supervisor.Operations

/-!
# Room for a job

What a pass of `schedule` keeps. Before a job starts, its worker's process has room on the machine,
and an entry that it reuses is confirmed.
-/

open Fridica.Effect Fridica.Table

namespace Fridica.Workers

open Durable

variable {out : Outside} {owner : String → String} {cap : String → Nat} {T S : Prop}
  {w t u : World} {sc : Scene}

theorem besides_lt_count {l : Live} (hl : l ∈ sc.live) (hcounts : sc.counts l) :
    sc.count_besides l.spec.machine.name l.worker_id < sc.count l.spec.machine.name := by
  refine countP_lt_of_mem (fun k _ hk => ?_) hl ?_ ?_
  · rw [Bool.and_eq_true, decide_eq_true_eq] at hk ⊢
    exact ⟨hk.1.1, hk.2⟩
  · simp
  · simp [hcounts]

theorem count_besides_le (h : Rest owner cap T S w) (m : Machine) (worker_id : String) :
    w.scene.count_besides m.name worker_id ≤ (w.scene.occupied_processes m).length := by
  have hlength : (w.scene.occupied_processes m).length = w.scene.live.countP fun l =>
      l.spec.machine.name = m.name ∧ (w.scene.alive l.worker ∨ l.retiring ∨
        w.scene.running.any (·.2.worker_id = l.worker_id)) := by
    unfold Scene.occupied_processes
    rw [← List.countP_eq_length_filter]
    have hmap := List.countP_map (p := fun l : Live => decide (l.spec.machine.name = m.name ∧
      (w.scene.alive l.worker ∨ l.retiring ∨
        w.scene.running.any (·.2.worker_id = l.worker_id)))) (f := Prod.fst)
      (l := w.scene.live.zipIdx)
    rw [List.zipIdx_map_fst] at hmap
    exact hmap.symm
  rw [hlength]
  refine List.countP_mono_left fun l _ hl => ?_
  simp only [Bool.and_eq_true, decide_eq_true_eq, counts_iff, h.engaged] at hl ⊢
  refine ⟨hl.1.1, ?_⟩
  rcases hl.2 with halive | hengaged | ⟨hret, -⟩
  · exact .inl halive
  · exact .inr (.inr hengaged)
  · exact .inr (.inl hret)

/-- A job of the worker may start, with the entry that it has or with a new one. -/
structure Ready (cap : String → Nat) (T : Prop) (machine worker_id : String) (sc : Scene) :
    Prop where
  idle : sc.engaged worker_id = false
  entry : ∀ l ∈ sc.live, l.worker_id = worker_id → l.retiring = false ∧
    (T → sc.count_besides l.spec.machine.name worker_id < cap l.spec.machine.name)
  room : (∀ l ∈ sc.live, l.worker_id ≠ worker_id) → T →
    sc.count_besides machine worker_id < cap machine

/-- The pass of a supervisor that is open, with its engaged workers among the busy ones. -/
structure Passing (owner : String → String) (cap : String → Nat) (T S : Prop) (config : Config)
    (p : Pass) (w : World) : Prop where
  rest : Rest owner cap T S w
  config : w.scene.config = config
  closing : w.scene.closing = false
  busy : ∀ r ∈ w.scene.running, r.2.worker_id ∈ p.busy

theorem Passing.kept {config : Config} {p : Pass} (h : Passing owner cap T S config p w)
    (hk : Kept owner cap T S w t) : Passing owner cap T S config p t :=
  ⟨h.rest.kept hk, hk.2.config.trans h.config, hk.2.closing.trans h.closing,
    hk.2.running ▸ h.busy⟩

theorem Passing.idle {config : Config} {p : Pass} (h : Passing owner cap T S config p w)
    {worker_id : String} (hbusy : worker_id ∉ p.busy) : w.scene.engaged worker_id = false := by
  rw [h.rest.engaged, List.any_eq_false]
  intro r hr
  have hne : r.2.worker_id ≠ worker_id := fun hrw => hbusy (hrw ▸ h.busy r hr)
  simpa using hne

variable (hc : Contracts out owner T S)
include hc

theorem Ready.next {machine worker_id : String} (h : Ready cap T machine worker_id w.scene) :
    Ready cap T machine worker_id (w.next out).scene := by
  have hcount := (onward_next (w := w) hc).count
  refine ⟨h.idle, fun l hl hlw => ?_, fun hno hT => ?_⟩
  · refine ⟨(h.entry l hl hlw).1, fun hT => ?_⟩
    exact (hcount hT _ _).trans_lt ((h.entry l hl hlw).2 hT)
  · exact (hcount hT _ _).trans_lt (h.room hno hT)

/-! ## The entry of the worker -/

theorem spec_of_kept {config : Config} {view : WorkerRecord} {m : Machine}
    (hm : config.machine view.machine = some m) (h : Rest owner cap T S w) :
    wp (spec_of out config view)
      (fun spec t => Kept owner cap T S w t ∧ ∀ s, spec = .ok s → s.machine.name = m.name)
      (fun _ => Rest owner cap T S) w := by
  unfold spec_of
  split
  · exact ⟨h.refl, by simp⟩
  next spec hspec =>
    have hname : spec.machine.name = m.name := by
      unfold make_spec at hspec
      rw [hm] at hspec
      dsimp only at hspec
      split at hspec
      · cases hspec
      split at hspec
      · cases hspec
      split at hspec
      · cases hspec
      · rw [← Except.ok.inj hspec]
        exact out.machine_for_slot_name m view.slot
    rw [wp_bind, wp_tick]
    have h₁ := h.refl.next hc
    split
    · exact ⟨h₁, by simp⟩
    next instructions _ =>
      rw [wp_ite]
      refine ⟨fun _ => ⟨h₁, by simp⟩, fun _ => ⟨h₁, fun s hs => ?_⟩⟩
      rw [← Except.ok.inj hs]
      exact hname

theorem settle_process_kept {config : Config} {now : ℚ} {j : Job} {r : WorkerRecord}
    {spec : Except String WorkerSpec} (h : Rest owner cap T S w)
    (hidle : w.scene.engaged r.id = false) :
    wp (settle_process out config now j r spec)
      (fun settled t => Kept owner cap T S w t ∧ (settled = true →
        ∀ l ∈ t.scene.live, l.worker_id = r.id → l.retiring = false ∧
          (T → t.scene.count_besides l.spec.machine.name r.id < cap l.spec.machine.name)))
      (fun _ => Rest owner cap T S) w := by
  unfold settle_process
  rw [wp_bind, wp_tick, wp_bind, wp_scene]
  have h₁ := h.next hc
  have k₁ := h.refl.next hc
  split
  next hnone =>
    exact ⟨k₁, fun _ l hl hlw => absurd hlw (position_none hnone l hl)⟩
  next l i hsome =>
    obtain ⟨hi, hlw⟩ := position_some hsome
    have hl := List.mem_of_getElem? hi
    split
    next hcurrent =>
      obtain ⟨-, -, hret, halive⟩ := hcurrent
      refine ⟨k₁, fun _ k hk hkw => ?_⟩
      obtain rfl : k = l := List.inj_on_of_nodup_map h₁.inv.sound.pool hk hl (hkw.trans hlw.symm)
      refine ⟨hret, fun hT => ?_⟩
      have hlt := besides_lt_count hl (counts_iff.mpr (.inl halive))
      rw [hlw] at hlt
      exact hlt.trans_le ((h₁.inv.capped hT).count _)
    next hstale =>
      refine wp_mono (wp_close_entry hc h₁ hi (hlw ▸ hidle)) ?_ fun _ _ => h₁.kept
      rintro closed t ⟨hkept, hentry⟩
      refine ⟨⟨hkept.1, k₁.2.trans hkept.2⟩, fun hclosed k hk hkw => ?_⟩
      subst hclosed
      exact absurd (hkw.trans hlw.symm) (hentry k hk)

/-! ## Room -/

theorem make_room_kept {m : Machine} {queued : List Job} (worker_id : String) (fuel : Nat)
    (h : Rest owner cap T S w) :
    wp (make_room out m queued fuel)
      (fun room t => Kept owner cap T S w t ∧
        (room = true → t.scene.count_besides m.name worker_id < m.max_workers))
      (fun _ => Rest owner cap T S) w := by
  induction fuel generalizing w with
  | zero => exact ⟨h.refl, by simp⟩
  | succ fuel ih =>
    have h₁ := h.next hc
    have k₁ := h.refl.next hc
    unfold make_room
    rw [wp_bind, wp_tick, wp_bind, wp_scene]
    split
    next hroom =>
      exact ⟨k₁, fun _ => (count_besides_le h₁ m worker_id).trans_lt hroom⟩
    next hfull =>
    split
    next hnone => exact ⟨k₁, by simp⟩
    next l i hvictim =>
      have hmem := List.mem_of_find?_eq_some hvictim
      have hidle := List.find?_some hvictim
      rw [decide_eq_true_eq, ← h₁.engaged, Bool.not_eq_true, Bool.not_eq_true, List.any_eq_false]
        at hidle
      have hi := List.mem_zipIdx_iff_getElem?.mp (List.mem_of_mem_filter hmem)
      have hok : (Call.evict l.worker queued).Ok owner T S (w.next out).scene := by
        refine ⟨l, List.mem_of_getElem? hi, rfl, hidle.1, by simpa using hidle.2.2, fun j hj => ?_⟩
        simpa using hidle.2.1 j hj
      have h₂ : Rest owner cap T S ((w.next out).log (.evict l.worker queued)) :=
        ⟨h₁.inv.log rfl hok, h₁.taken⟩
      have k₂ : Kept owner cap T S w ((w.next out).log (.evict l.worker queued)) :=
        ⟨h₂.inv, k₁.2.trans (onward_log rfl)⟩
      rw [wp_bind, wp_log, wp_bind]
      refine wp_mono (wp_close_entry hc h₂ hi hidle.1) ?_ fun _ _ => h₂.kept
      rintro closed t ⟨hkept, -⟩
      have k₃ : Kept owner cap T S w t := ⟨hkept.1, k₂.2.trans hkept.2⟩
      cases closed with
      | false => exact ⟨k₃, by simp⟩
      | true =>
        refine wp_mono (ih (h₂.kept hkept)) ?_ fun _ _ => id
        rintro room u ⟨hu, hroom⟩
        exact ⟨⟨hu.1, k₃.2.trans hu.2⟩, hroom⟩

theorem find_room_kept {config : Config} {p : Pass} {m : Machine} {queued : List Job}
    {r : WorkerRecord} (h : Passing owner cap T S config p w) (hm : m ∈ config.machines)
    (hidle : w.scene.engaged r.id = false)
    (hentry : ∀ l ∈ w.scene.live, l.worker_id = r.id → l.retiring = false ∧
      (T → w.scene.count_besides l.spec.machine.name r.id < cap l.spec.machine.name)) :
    wp (find_room out m queued r)
      (fun room t => Kept owner cap T S w t ∧ (room = true → Ready cap T m.name r.id t.scene))
      (fun _ => Rest owner cap T S) w := by
  unfold find_room
  rw [wp_bind, wp_scene]
  split
  next hsome =>
    obtain ⟨l, hl, hlw⟩ := List.any_eq_true.mp hsome
    refine ⟨h.rest.refl, fun _ => ⟨hidle, hentry, fun hno => ?_⟩⟩
    exact absurd (by simpa using hlw) (hno l hl)
  next hnone =>
    have hno : ∀ l ∈ w.scene.live, l.worker_id ≠ r.id := by
      intro l hl
      have hne := List.any_eq_false.mp (Bool.not_eq_true _ ▸ hnone) l hl
      simpa using hne
    refine wp_mono (make_room_kept hc r.id _ h.rest) ?_ fun _ _ => id
    rintro room t ⟨hkept, hroom⟩
    refine ⟨hkept, fun htrue => ⟨?_, fun l hl hlw => ?_, fun _ hT => ?_⟩⟩
    · rw [hkept.2.engaged]
      exact hidle
    · exact absurd hlw (hkept.2.no_entry hno l hl)
    · have hfits := (h.rest.inv.capped hT).fits m (h.config ▸ hm)
      rw [← hfits]
      exact hroom htrue

/-! ## The start of a job -/

/-- The entry that a job of the worker is started on. -/
structure Startable (cap : String → Nat) (T : Prop) (worker_id : String) (worker : Nat)
    (sc : Scene) (l : Live) : Prop where
  mem : l ∈ sc.live
  handle : l.worker = worker
  owned : l.worker_id = worker_id
  retiring : l.retiring = false
  idle : sc.engaged worker_id = false
  confirmed : T → worker ∉ sc.unconfirmed
  room : T → sc.count_besides l.spec.machine.name worker_id < cap l.spec.machine.name

theorem process_for_startable {config : Config} {p : Pass} {c : ClaimedJob} {spec : WorkerSpec}
    {machine : String} (h : Passing owner cap T S config p w) (hspec : spec.machine.name = machine)
    (hready : Ready cap T machine c.worker.id w.scene)
    (hconfirmed : T → ∀ l ∈ w.scene.live, l.worker_id = c.worker.id →
      l.worker ∉ w.scene.unconfirmed) :
    wp (process_for out c spec)
      (fun result t => Passing owner cap T S config p t ∧ ∀ worker, result = .ok worker →
        ∃ l, Startable cap T c.worker.id worker t.scene l)
      (fun _ => Rest owner cap T S) w := by
  have h₁ := h.kept (h.rest.refl.next hc)
  have hready₁ := hready.next hc
  unfold process_for
  rw [wp_bind, wp_tick, wp_bind, wp_scene]
  split
  next l hfind =>
    obtain ⟨hl, hlw⟩ := find_key hfind
    obtain ⟨hret, hroom⟩ := hready₁.entry l hl hlw
    refine ⟨h₁, fun worker hworker => ?_⟩
    obtain rfl := Except.ok.inj hworker
    exact ⟨l, hl, rfl, hlw, hret, hready.idle, fun hT => hconfirmed hT l hl hlw, hroom⟩
  next hnone =>
  split
  · exact ⟨h₁, by simp⟩
  next hcreate =>
    have hnew : ∀ l ∈ (w.next out).scene.live, l.worker_id ≠ c.worker.id := by
      intro l hl
      simpa using List.find?_eq_none.mp hnone l hl
    have hroom : T → (w.next out).scene.count_besides spec.machine.name c.worker.id <
        cap spec.machine.name := fun hT => hspec ▸ hready₁.room hnew hT
    have hs := h₁.rest.inv.sound
    rw [wp_bind, wp_edit]
    have h₂ : Inv owner cap T S
        ((w.next out).on fun sc => sc.created c.worker.id spec) :=
      h₁.rest.inv.on rfl (hs.created hnew) fun hT =>
        (h₁.rest.inv.capped hT).created hs hnew (hroom hT)
    refine ⟨⟨⟨h₂, h₁.rest.taken⟩, h₁.config, h₁.closing, h₁.busy⟩, fun worker hworker => ?_⟩
    obtain rfl := Except.ok.inj hworker
    refine ⟨⟨c.worker.id, spec, (w.next out).scene.handles, false⟩, List.mem_append_right _
      List.mem_cons_self, rfl, rfl, rfl, hready.idle, fun hT hu => ?_, fun hT => ?_⟩
    · exact lt_irrefl _ ((h₁.rest.inv.capped hT).unconfirmed_fresh _ hu)
    · have hsame : ((w.next out).scene.created c.worker.id spec).count_besides spec.machine.name
          c.worker.id = (w.next out).scene.count_besides spec.machine.name c.worker.id :=
        count_created _ (by simp)
      exact hsame ▸ hroom hT

omit hc in
theorem Inv.started {id worker_id : String} {worker attempt : Nat} {l : Live}
    (h : Inv owner cap T S w) (hid : worker_id = owner id)
    (hl : Startable cap T worker_id worker w.scene l) :
    Inv owner cap T S
      ((w.log (.start id worker)).on fun sc => sc.started id worker_id attempt) := by
  have hok : (Call.start id worker).Ok owner T S w.scene :=
    ⟨l, hl.mem, hl.handle, hl.owned.trans hid, hl.retiring, hl.confirmed⟩
  have hret : ∀ k ∈ w.scene.live, k.worker_id = worker_id → k.retiring = false := by
    intro k hk hkw
    rw [List.inj_on_of_nodup_map h.sound.pool hk hl.mem (hkw.trans hl.owned.symm)]
    exact hl.retiring
  exact (h.log rfl hok).on rfl (h.sound.started hid hl.idle hret) fun hT =>
    (h.capped hT).started h.sound hid hl.idle hl.mem hl.owned hret (hl.room hT)

theorem launch_passing {config : Config} {p : Pass} {c : ClaimedJob} {r : WorkerRecord} {slot : Nat}
    {spec : Except String WorkerSpec} {now : ℚ} {machine : String}
    (h : Passing owner cap T S config p w) (hid : c.worker.id = owner c.job.id)
    (hspec : ∀ s, spec = .ok s → s.machine.name = machine)
    (hready : Ready cap T machine c.worker.id w.scene)
    (hconfirmed : T → ∀ l ∈ w.scene.live, l.worker_id = c.worker.id →
      l.worker ∉ w.scene.unconfirmed) :
    wp (launch out p now r slot spec c) (fun q => Passing owner cap T S config q)
      (fun _ => Rest owner cap T S) w := by
  have hfailed : ∀ completion t, Passing owner cap T S config p t →
      wp (complete out c.job.id c.job.attempt completion now >>= fun _ => pure p)
        (fun q => Passing owner cap T S config q) (fun _ => Rest owner cap T S) t := by
    intro completion t ht
    have h₁ := ht.kept (ht.rest.refl.next hc)
    rw [wp_bind]
    refine wp_commit (fun d hd => ?_) fun _ => h₁.rest
    exact ⟨h₁.rest.commit hc (.complete_job hd), h₁.config, h₁.closing, h₁.busy⟩
  unfold launch
  cases spec with
  | error e => exact hfailed _ w h
  | ok spec =>
    rw [wp_bind]
    refine wp_mono (process_for_startable hc h (hspec spec rfl) hready hconfirmed) ?_
      fun _ _ => id
    rintro (failure | worker) t ⟨ht, hstart⟩
    · exact hfailed _ t ht
    · obtain ⟨l, hl⟩ := hstart worker rfl
      rw [wp_bind, wp_log, wp_bind, wp_edit]
      refine ⟨⟨ht.rest.inv.started hid hl, ht.rest.taken⟩, ht.config, ht.closing, fun q hq => ?_⟩
      have hmem : q ∈ (t.scene.started c.job.id c.worker.id c.job.attempt).tasks :=
        List.mem_append_left _ hq
      rw [(tasks_started ht.rest.inv.sound hid hl.idle).mem_iff, List.mem_cons] at hmem
      rcases hmem with rfl | hmem
      · exact List.mem_cons_self
      · unfold Scene.tasks at hmem
        rw [ht.rest.taken, List.append_nil] at hmem
        exact List.mem_cons_of_mem _ (ht.busy q hmem)

/-! ## The pass -/

theorem schedule_job_passing {config : Config} {p : Pass} {j : Job} {now : ℚ} {queued : List Job}
    (h : Passing owner cap T S config p w) (hj : j.worker_id = owner j.id) :
    wp (schedule_job out config now queued p j) (fun q => Passing owner cap T S config q)
      (fun _ => Rest owner cap T S) w := by
  have hclaim : ∀ slot, wp (claim out j.id slot config now >>= fun _ => pure p)
      (fun q => Passing owner cap T S config q) (fun _ => Rest owner cap T S) w := by
    intro slot
    have h₁ := h.kept (h.rest.refl.next hc)
    rw [wp_bind]
    refine wp_write (fun c d hd => ?_) fun _ => h₁.rest
    exact ⟨h₁.rest.commit hc (.claim_job hd), h₁.config, h₁.closing, h₁.busy⟩
  unfold schedule_job
  split
  · exact h.rest
  next r hr =>
  split
  · exact hclaim 1
  next m hm =>
  split
  · exact hclaim 1
  split
  · exact h
  next hbusy =>
  split
  · exact h
  next slot hslot =>
  have hrid : r.id = owner j.id := (find_key hr).2.trans hj
  rw [wp_bind]
  refine wp_mono (spec_of_kept hc hm h.rest) ?_ fun _ _ => id
  rintro spec t₁ ⟨k₁, hspec⟩
  have h₁ := h.kept k₁
  have hidle := h₁.idle fun hb => hbusy (.inl hb)
  rw [wp_bind]
  refine wp_mono (settle_process_kept hc h₁.rest hidle) ?_ fun _ _ => id
  rintro settled t₂ ⟨k₂, hentry⟩
  have h₂ := h₁.kept k₂
  split
  swap
  · exact h₂
  next hsettled =>
  have hidle₂ := h₂.idle fun hb => hbusy (.inl hb)
  have hmem : m ∈ config.machines := (find_key hm).1
  rw [wp_bind]
  refine wp_mono (find_room_kept hc h₂ hmem hidle₂ (hentry hsettled)) ?_ fun _ _ => id
  rintro room t₃ ⟨k₃, hready⟩
  have h₃ := h₂.kept k₃
  split
  swap
  · exact h₃
  next hroom =>
  have h₄ := h₃.kept (h₃.rest.refl.next hc)
  rw [wp_bind]
  refine wp_write (fun c d hd => ?_) fun _ => h₄.rest
  have h₅ : Passing owner cap T S config p ((t₃.next out).on fun sc => { sc with store := d }) :=
    ⟨h₄.rest.commit hc (.claim_job hd), h₄.config, h₄.closing, h₄.busy⟩
  cases c with
  | none => exact h₅
  | some c =>
    obtain ⟨hjob, hworker⟩ := hc.keyed.claimed _ _ _ _ _ _ _ _ _ hd
    have hwid : c.worker.id = r.id := hworker.trans hrid.symm
    have hready₅ := (hready hroom).next hc
    rw [← hwid] at hready₅
    refine launch_passing hc h₅ (hworker.trans (congrArg owner hjob.symm)) hspec
      ⟨hready₅.idle, hready₅.entry, hready₅.room⟩ fun hT l hl hlw hu => ?_
    rcases (h₄.rest.inv.capped hT).unconfirmed l hl hu with hret | hclosing | hstopped
    · exact absurd (hret.symm.trans (hready₅.entry l hl hlw).1) (by simp)
    · exact absurd (hclosing.symm.trans h₄.closing) (by simp)
    · exact (hc.tame hT).refused _ _ _ _ _ _ _ _ _ hd (hlw ▸ hstopped)

theorem schedule_jobs_passing {config : Config} {now : ℚ} {queued jobs : List Job} {p : Pass}
    (h : Passing owner cap T S config p w) (hjobs : ∀ j ∈ jobs, j.worker_id = owner j.id) :
    wp (schedule_jobs out config now queued jobs p) (fun q => Passing owner cap T S config q)
      (fun _ => Rest owner cap T S) w := by
  induction jobs generalizing p w with
  | nil => exact h
  | cons j rest ih =>
    unfold schedule_jobs
    split
    · exact h
    · rw [wp_bind]
      refine wp_mono (schedule_job_passing hc h (hjobs j List.mem_cons_self)) ?_ fun _ _ => id
      intro q t ht
      exact ih ht fun k hk => hjobs k (List.mem_cons_of_mem j hk)

theorem schedule_rest : Keeps (Rest owner cap T S) (schedule out) := by
  unfold schedule
  refine keeps_bind (reap_rest hc) fun _ => ?_
  intro w h
  rw [wp_bind, wp_scene]
  split
  · exact h
  next hopen =>
    rw [wp_bind, wp_clock, wp_bind]
    have h₂ := (h.next hc).next hc
    refine wp_read (fun snapshot hsnapshot => ?_) fun _ => h₂
    obtain rfl := Except.ok.inj hsnapshot
    rw [wp_bind]
    have hclosing : w.scene.closing = false := by
      rw [← Bool.not_eq_true]
      exact fun hclosing => hopen (.inl hclosing)
    have hpass : Passing owner cap T S w.scene.config
        (Pass.start ((w.next out).next out).scene.store.work_snapshot w.scene.running)
        ((w.next out).next out) := by
      refine ⟨h₂, rfl, hclosing, fun r hr => ?_⟩
      exact List.mem_append_right _ (List.mem_map_of_mem hr)
    refine wp_mono (schedule_jobs_passing hc hpass fun j hj => ?_) (fun _ _ ht => ht.rest)
      fun _ _ => id
    exact h₂.inv.sound.jobs j (List.mem_of_mem_filter hj)

end Fridica.Workers
