import Fridica.Workers.Supervisor.Contract
import Fridica.Lib.Table

/-!
# A store in memory

A daemon whose store keeps the contracts, with processes and tasks that follow a script.
-/

open Fridica.Table

namespace Fridica.Workers

open Durable

namespace InMemory

variable (owner : String → String)

def claim_job (id : String) (slot : Nat) (machines : List Machine) (d : Durable) :
    Option ClaimedJob × Durable :=
  match d.jobs.find? (fun j => j.id = id ∧ j.status = "queued"), d.worker (owner id) with
  | some j, some w =>
    if j.worker_id = owner id ∧ w.status ≠ "stopped" ∧ (machines.any fun m => m.name = w.machine) ∧
        d.running.all fun k => k.id ≠ id then
      let job : Job := { j with attempt := j.attempt + 1, status := "running" }
      let worker : WorkerRecord := { w with slot := slot, status := "running" }
      (some ⟨job, worker⟩, { d with
        jobs := job :: d.jobs.filter (·.id ≠ id)
        workers := worker :: d.workers.filter (·.id ≠ owner id) })
    else (none, d)
  | _, _ => (none, d)

def complete_job (id : String) (d : Durable) : Durable :=
  { d with jobs := d.jobs.filter (·.id ≠ id) }

def stop_worker (id : String) (d : Durable) : Durable :=
  { d with workers := d.workers.map fun w => if w.id = id then { w with status := "stopped" } else w }

def complete_worker_control (seq : Nat) (outcome : String) (d : Durable) : Durable :=
  { d with controls := d.controls.map fun c =>
      if c.seq = seq then { c with outcome := some outcome } else c }

/-- What happens at one call. -/
structure Script where
  is_finished : Bool
  task : Except String TaskEnd
  close : Bool
  dies : List Nat

def quiet : Script := ⟨false, .ok ⟨false, false⟩, true, []⟩

def answer (s : Script) : Answer where
  others := id
  alive sc h :=
    h ∉ s.dies ∧ (sc.alive h ∨ sc.live.all fun l => l.worker = h → sc.engaged l.worker_id)
  busy _ := false
  now := 0
  read := none
  is_finished := s.is_finished
  task := s.task
  close := s.close
  instructions := .ok "rules"
  create := none
  reconfigure := none
  claim_job id slot machines _ _ d := .ok (claim_job owner id slot machines d)
  complete_job id _ _ _ d := .ok (complete_job id d)
  interrupt_worker _ _ d := .ok d
  stop_worker id _ _ d := .ok (stop_worker id d)
  note _ _ _ d := .ok d
  complete_worker_control seq outcome _ d := .ok (complete_worker_control seq outcome d)

def outside (script : Nat → Script) : Outside where
  answer n := answer owner (script n)
  machine_for_slot m _ := m
  workspace_for_slot space _ := space
  machine_for_slot_name _ _ := rfl

variable {owner} {script : Nat → Script}

theorem claim_job_none {id : String} {slot : Nat} {machines : List Machine} {d d' : Durable}
    (h : claim_job owner id slot machines d = (none, d')) : d' = d := by
  unfold claim_job at h
  split at h
  · split at h
    · simp at h
    · exact (Prod.mk.inj h).2.symm
  · exact (Prod.mk.inj h).2.symm

theorem claim_job_some {id : String} {slot : Nat} {machines : List Machine} {c : ClaimedJob}
    {d d' : Durable} (h : claim_job owner id slot machines d = (some c, d')) :
    ∃ (j : Job) (w : WorkerRecord), j.id = id ∧ j.worker_id = owner id ∧ d.worker (owner id) = some w ∧
      w.status ≠ "stopped" ∧ (∃ m ∈ machines, m.name = w.machine) ∧ (∀ k ∈ d.running, k.id ≠ id) ∧
      c = ⟨{ j with attempt := j.attempt + 1, status := "running" },
        { w with slot := slot, status := "running" }⟩ ∧
      d' = { d with
        jobs := c.job :: d.jobs.filter (·.id ≠ id)
        workers := c.worker :: d.workers.filter (·.id ≠ owner id) } := by
  unfold claim_job at h
  split at h
  next j w hj hw =>
    split at h
    next hc =>
      obtain ⟨hjw, hstatus, hm, hrun⟩ := hc
      obtain ⟨hcj, hd⟩ := Prod.mk.inj h
      obtain rfl := Option.some_inj.mp hcj
      have hid : j.id = id := by
        have := List.find?_some hj
        simp only [decide_eq_true_eq] at this
        exact this.1
      exact ⟨j, w, hid, hjw, hw, hstatus, by simpa using hm, by simpa using hrun, rfl, hd.symm⟩
    · simp at h
  · simp at h

theorem admitted {id : String} {slot : Nat} {machines : List Machine} {c : ClaimedJob}
    {d d' : Durable} (h : claim_job owner id slot machines d = (some c, d')) :
    Admitted owner id slot machines c d d' := by
  obtain ⟨j, w, hid, hjw, hw, hstatus, hm, hrun, rfl, rfl⟩ := claim_job_some h
  obtain ⟨-, hwid⟩ := find_key hw
  refine ⟨hid, hjw, hwid, rfl, by simp, ⟨w, hw, hstatus, rfl, hm⟩, hrun, ?_, ?_, ?_⟩
  · unfold running
    rw [List.filter_cons_of_pos (by simp), List.filter_comm]
    have hkeep : (d.jobs.filter (·.status = "running")).filter (·.id ≠ id) =
        d.jobs.filter (·.status = "running") := by
      rw [List.filter_eq_self]
      intro k hk
      simpa using hrun k hk
    rw [hkeep]
  · unfold worker
    rw [List.find?_cons_of_pos (by simpa using hwid)]
  · intro other hother
    unfold worker
    rw [List.find?_cons_of_neg (by simpa [hwid] using Ne.symm hother), List.find?_filter]
    congr 1
    funext v
    by_cases hv : v.id = other
    · simp [hv, hother]
    · simp [hv]

theorem stops (id : String) : (outside owner script).Respects (Stopped id) := by
  intro n d d' hw hs
  cases hw with
  | others => exact hs
  | claim_job h =>
    rename_i x slot machines limits now c
    replace h : claim_job owner x slot machines d = (c, d') := Except.ok.inj h
    cases c with
    | none => exact claim_job_none h ▸ hs
    | some c =>
      obtain ⟨j, w, -, -, hw, hstatus, -, -, rfl, rfl⟩ := claim_job_some h
      obtain ⟨hmem, hwid⟩ := find_key hw
      intro v hv hid
      rcases List.mem_cons.mp hv with rfl | hv
      · exact absurd (hs w hmem hid) hstatus
      · exact hs v (List.mem_of_mem_filter hv) hid
  | complete_job h =>
    obtain rfl := Except.ok.inj h
    exact hs
  | interrupt_worker h =>
    obtain rfl := Except.ok.inj h
    exact hs
  | stop_worker h =>
    obtain rfl := Except.ok.inj h
    intro v hv hid
    obtain ⟨w, hw, rfl⟩ := List.mem_map.mp hv
    split at hid
    · simp_all
    next hne =>
      rw [if_neg hne]
      exact hs w hw hid
  | note h =>
    obtain rfl := Except.ok.inj h
    exact hs
  | complete_worker_control h =>
    obtain rfl := Except.ok.inj h
    exact hs

theorem quietly : Quiet (outside owner script) owner where
  others _ _ := rfl
  note _ _ _ _ _ _ h := (Except.ok.inj h).symm
  admitted _ _ _ _ _ _ _ _ _ h := admitted (Except.ok.inj h)
  refused _ _ _ _ _ _ _ _ h := by
    rw [claim_job_none (Except.ok.inj h)]
    exact ⟨List.Perm.refl _, fun _ => rfl⟩
  ended_running _ _ _ _ _ _ _ _ h := by
    rw [← Except.ok.inj h]
    exact List.Perm.of_eq (List.filter_comm _ _ _)
  ended_place _ _ _ _ _ _ _ h _ := by
    rw [← Except.ok.inj h]
    rfl
  stops := stops

theorem keyed : Keyed (outside owner script) owner where
  owned := by
    intro n d d' hw ho
    have hsame : ∀ k : Durable, k.jobs.Sublist d.jobs → Owned owner k :=
      fun k hk j hj => ho j (hk.mem hj)
    cases hw with
    | others => exact ho
    | claim_job h =>
      rename_i x slot machines limits now c
      replace h : claim_job owner x slot machines d = (c, d') := Except.ok.inj h
      cases c with
      | none => exact claim_job_none h ▸ ho
      | some c =>
        obtain ⟨j, w, hid, hjw, -, -, -, -, rfl, rfl⟩ := claim_job_some h
        intro k hk
        rcases List.mem_cons.mp hk with rfl | hk
        · exact hjw.trans (congrArg owner hid.symm)
        · exact ho k (List.mem_of_mem_filter hk)
    | complete_job h => exact Except.ok.inj h ▸ hsame _ List.filter_sublist
    | interrupt_worker h => exact Except.ok.inj h ▸ ho
    | stop_worker h => exact Except.ok.inj h ▸ hsame _ (List.Sublist.refl _)
    | note h => exact Except.ok.inj h ▸ ho
    | complete_worker_control h => exact Except.ok.inj h ▸ hsame _ (List.Sublist.refl _)
  claimed _ _ _ _ _ _ _ _ _ h := by
    obtain ⟨j, w, hid, -, hw, -, -, -, rfl, -⟩ := claim_job_some (Except.ok.inj h)
    exact ⟨hid, (find_key hw).2⟩

theorem writes_controls {n : Nat} {d d' : Durable}
    (h : ((outside owner script).answer n).Writes d d') : d'.controls = d.controls ∨
      ∃ seq result, d'.controls = (complete_worker_control seq result d).controls := by
  cases h with
  | others => exact .inl rfl
  | claim_job h =>
    rename_i x slot machines limits now c
    replace h : claim_job owner x slot machines d = (c, d') := Except.ok.inj h
    cases c with
    | none => exact .inl (by rw [claim_job_none h])
    | some c =>
      obtain ⟨-, -, -, -, -, -, -, -, -, rfl⟩ := claim_job_some h
      exact .inl rfl
  | complete_job h => exact .inl (by rw [← Except.ok.inj h]; rfl)
  | interrupt_worker h => exact .inl (by rw [← Except.ok.inj h])
  | stop_worker h => exact .inl (by rw [← Except.ok.inj h]; rfl)
  | note h => exact .inl (by rw [← Except.ok.inj h])
  | complete_worker_control h => exact .inr ⟨_, _, by rw [← Except.ok.inj h]⟩

theorem pending_before {n : Nat} {d d' : Durable}
    (h : ((outside owner script).answer n).Writes d d') {c : WorkerControl}
    (hc : c ∈ d'.controls) (hnone : c.outcome = none) : c ∈ d.controls := by
  rcases writes_controls h with heq | ⟨seq, result, heq⟩
  · exact heq ▸ hc
  · rw [heq] at hc
    obtain ⟨k, hk, rfl⟩ := List.mem_map.mp hc
    split at hnone
    · cases hnone
    next hseq =>
      rw [if_neg hseq]
      exact hk

theorem tame : Tame (outside owner script) where
  idle n sc l hl hidle halive := by
    obtain ⟨-, halive⟩ := of_decide_eq_true halive
    rcases halive with halive | hall
    · exact halive
    · have hengaged := List.all_eq_true.mp hall l hl
      rw [decide_eq_true_eq] at hengaged
      exact absurd (hidle.symm.trans (hengaged rfl)) (by simp)
  stops := stops
  stopped _ id _ _ _ _ h := by
    rw [← Except.ok.inj h]
    intro v hv hid
    obtain ⟨w, hw, rfl⟩ := List.mem_map.mp hv
    split at hid <;> simp_all
  refused _ _ _ _ _ _ _ _ _ h hs := by
    obtain ⟨j, w, -, -, hw, hstatus, -, -, rfl, -⟩ := claim_job_some (Except.ok.inj h)
    exact hstatus (hs w (find_key hw).1 rfl)
  committed n d d' hw hd c hc hnone hop :=
    stops _ n d d' hw (hd c (pending_before hw hc hnone) hnone hop)

theorem steady : Steady (outside owner script) where
  seqs n d d' hw hd := by
    unfold DistinctSeqs at hd ⊢
    rcases writes_controls hw with heq | ⟨seq, result, heq⟩
    · exact heq ▸ hd
    · have hseqs : (complete_worker_control seq result d).controls.map (·.seq) =
          d.controls.map (·.seq) := by
        unfold complete_worker_control
        dsimp only
        rw [List.map_map]
        refine List.map_congr_left fun c _ => ?_
        unfold Function.comp
        dsimp only
        split <;> rfl
      rw [heq, hseqs]
      exact hd
  completed seq n d d' hw hd c hc hseq hnone :=
    hd c (pending_before hw hc hnone) hseq hnone
  completes _ seq _ _ _ _ h c hc hseq := by
    rw [← Except.ok.inj h] at hc
    obtain ⟨k, hk, rfl⟩ := List.mem_map.mp hc
    split at hseq
    next hkseq =>
      rw [if_pos hkseq]
      simp
    next hkseq => exact absurd hseq hkseq
  others _ _ _ _ h := h
  note _ _ _ _ _ _ _ _ h hruns := Except.ok.inj h ▸ hruns

end InMemory

end Fridica.Workers
