import Fridica.Workers.Supervisor.Contract
import Fridica.Lib.Table

/-!
# The pool of live processes

What holds of the live entries and the tasks in every scene, and that each change which the
supervisor makes to them keeps it.
-/

open Fridica.Table

namespace Fridica.Workers

open Durable

variable {out : Outside} {owner : String → String} {cap : String → Nat} {sc t : Scene}

/-! ## The invariants -/

/-- The entry takes up a process: it is alive, engaged, or retiring since a time when it was. -/
def Scene.counts (sc : Scene) (l : Live) : Bool :=
  sc.alive l.worker || sc.engaged l.worker_id || (l.retiring && !sc.dead.contains l.worker)

def Scene.count_where (sc : Scene) (q : Live → Bool) : Nat :=
  sc.live.countP fun l => q l && sc.counts l

def Scene.count (sc : Scene) (machine : String) : Nat :=
  sc.count_where fun l => l.spec.machine.name = machine

/-- The processes on a machine besides that of one worker. -/
def Scene.count_besides (sc : Scene) (machine worker_id : String) : Nat :=
  sc.count_where fun l => l.spec.machine.name = machine ∧ l.worker_id ≠ worker_id

structure Sound (owner : String → String) (sc : Scene) : Prop where
  pool : (sc.live.map Live.worker_id).Nodup
  handles : (sc.live.map Live.worker).Nodup
  fresh : ∀ l ∈ sc.live, l.worker < sc.handles
  tasks : (sc.tasks.map (·.2.worker_id)).Nodup
  owned : ∀ p ∈ sc.tasks, p.2.worker_id = owner p.1
  jobs : Owned owner sc.store
  engaged : ∀ l ∈ sc.live, sc.engaged l.worker_id → l.retiring = false
  open_taken : sc.closing = false → sc.taken = []

structure Capped (cap : String → Nat) (sc : Scene) : Prop where
  fits : ∀ m ∈ sc.config.machines, m.max_workers = cap m.name
  count : ∀ machine, sc.count machine ≤ cap machine
  dead : ∀ l ∈ sc.live, l.worker ∈ sc.dead → sc.alive l.worker = false ∧ l.retiring = true
  unconfirmed : ∀ l ∈ sc.live, l.worker ∈ sc.unconfirmed →
    l.retiring = true ∨ sc.closing = true ∨ Stopped l.worker_id sc.store
  dead_fresh : ∀ h ∈ sc.dead, h < sc.handles
  unconfirmed_fresh : ∀ h ∈ sc.unconfirmed, h < sc.handles
  committed : StopsCommitted sc.store

/-! ## Counting -/

theorem counts_iff {l : Live} : sc.counts l ↔
    sc.alive l.worker ∨ sc.engaged l.worker_id ∨ l.retiring = true ∧ l.worker ∉ sc.dead := by
  unfold Scene.counts
  simp only [Bool.or_eq_true, Bool.and_eq_true, Bool.not_eq_true', List.contains_eq_mem,
    decide_eq_false_iff_not, or_assoc]

theorem count_le_of_sublist {q : Live → Bool} (hlive : t.live.Sublist sc.live)
    (h : ∀ l ∈ t.live, t.counts l → sc.counts l) : t.count_where q ≤ sc.count_where q := by
  unfold Scene.count_where
  refine le_trans (List.countP_mono_left fun l hl hq => ?_) hlive.countP_le
  rw [Bool.and_eq_true] at hq ⊢
  exact ⟨hq.1, h l hl hq.2⟩

theorem count_le_of_retire {q : Live → Bool} {i : Nat} (hlive : t.live = retire i sc.live)
    (hq : ∀ l, q { l with retiring := true } = q l)
    (h : ∀ l ∈ sc.live, t.counts l → sc.counts l)
    (hi : ∀ l, sc.live[i]? = some l → t.counts { l with retiring := true } → sc.counts l) :
    t.count_where q ≤ sc.count_where q := by
  unfold Scene.count_where
  rw [hlive]
  unfold retire
  refine countP_modify_le i (fun l hl hl' => ?_) fun l hl hl' => ?_
  · rw [Bool.and_eq_true] at hl' ⊢
    exact ⟨hl'.1, h l hl hl'.2⟩
  · rw [Bool.and_eq_true, hq] at hl'
    rw [Bool.and_eq_true]
    exact ⟨hl'.1, hi l hl hl'.2⟩

/-- The processes of a machine are those besides one worker's, and that one. -/
theorem count_le_besides (hs : Sound owner sc) (machine worker_id : String) :
    sc.count machine ≤ sc.count_besides machine worker_id + 1 := by
  unfold Scene.count Scene.count_besides Scene.count_where
  refine (countP_le_besides hs.pool _ worker_id).trans (Nat.add_le_add_right ?_ 1)
  refine List.countP_mono_left fun l _ hl => ?_
  simp only [Bool.and_eq_true, decide_eq_true_eq] at hl ⊢
  exact ⟨⟨hl.1.1, hl.2⟩, hl.1.2⟩

/-! ## The world moves -/

theorem Sound.moved (hk : Keyed out owner) (h : Sound owner sc) (n : Nat) :
    Sound owner (sc.moved (out.answer n)) :=
  ⟨h.pool, h.handles, h.fresh, h.tasks, h.owned, hk.owned n _ _ .others h.jobs, h.engaged,
    h.open_taken⟩

theorem Sound.store (h : Sound owner sc) {d : Durable} (hd : Owned owner d) :
    Sound owner { sc with store := d } :=
  ⟨h.pool, h.handles, h.fresh, h.tasks, h.owned, hd, h.engaged, h.open_taken⟩

theorem counts_moved (ht : Tame out) (n : Nat) {l : Live} (hl : l ∈ sc.live)
    (h : (sc.moved (out.answer n)).counts l) : sc.counts l := by
  rw [counts_iff] at h ⊢
  cases he : sc.engaged l.worker_id with
  | true => exact .inr (.inl rfl)
  | false =>
    rcases h with halive | hengaged | hret
    · exact .inl (ht.idle n sc l hl he halive)
    · exact absurd (he.symm.trans hengaged) (by simp)
    · exact .inr (.inr hret)

theorem Capped.moved (ht : Tame out) (h : Capped cap sc) (hs : Sound owner sc) (n : Nat) :
    Capped cap (sc.moved (out.answer n)) := by
  constructor
  · exact h.fits
  · intro machine
    refine le_trans ?_ (h.count machine)
    exact count_le_of_sublist (List.Sublist.refl _) fun l hl => counts_moved ht n hl
  · intro l hl hd
    obtain ⟨halive, hret⟩ := h.dead l hl hd
    refine ⟨?_, hret⟩
    cases he : sc.engaged l.worker_id with
    | true => exact absurd (hret.symm.trans (hs.engaged l hl he)) (by simp)
    | false =>
      cases hnow : (sc.moved (out.answer n)).alive l.worker with
      | false => rfl
      | true => exact absurd (halive.symm.trans (ht.idle n sc l hl he hnow)) (by simp)
  · intro l hl hu
    refine (h.unconfirmed l hl hu).imp_right (Or.imp_right ?_)
    exact ht.stops _ n _ _ .others
  · exact h.dead_fresh
  · exact h.unconfirmed_fresh
  · exact ht.committed n _ _ .others h.committed

theorem Capped.store (h : Capped cap sc) {d : Durable}
    (hstop : ∀ id, Stopped id sc.store → Stopped id d) (hd : StopsCommitted d) :
    Capped cap { sc with store := d } :=
  ⟨h.fits, h.count, h.dead, fun l hl hu => (h.unconfirmed l hl hu).imp_right (Or.imp_right (hstop _)),
    h.dead_fresh, h.unconfirmed_fresh, hd⟩

/-! ## A close -/

section Closing

variable {i : Nat} {l : Live}

theorem mem_retire {k : Live} (hi : sc.live[i]? = some l) (hk : k ∈ retire i sc.live) :
    k ∈ sc.live ∨ k = { l with retiring := true } := by
  rcases mem_modify hk with hk | ⟨b, hb, rfl⟩
  · exact .inl hk
  · rw [hi, Option.some_inj] at hb
    exact .inr (by rw [hb])

@[simp] theorem retiring_live : (sc.retiring i l).live = retire i sc.live := rfl

@[simp] theorem retiring_alive : (sc.retiring i l).alive = sc.alive := rfl

@[simp] theorem retiring_engaged {worker_id : String} :
    (sc.retiring i l).engaged worker_id = sc.engaged worker_id := rfl

theorem mem_retiring_dead {x : Nat} : x ∈ (sc.retiring i l).dead ↔ x ∈ sc.dead ∨
    x = l.worker ∧ l.retiring = false ∧ sc.alive l.worker = false ∧
      sc.engaged l.worker_id = false := by
  have hdead : (sc.retiring i l).dead =
      if l.retiring ∨ sc.alive l.worker ∨ sc.engaged l.worker_id then sc.dead
      else l.worker :: sc.dead := rfl
  rw [hdead]
  split
  next hl =>
    refine ⟨.inl, ?_⟩
    rintro (hx | ⟨-, h₁, h₂, h₃⟩)
    · exact hx
    · simp [h₁, h₂, h₃] at hl
  next hl =>
    push Not at hl
    rw [List.mem_cons, or_comm]
    simp [hl]

theorem retire_map {κ : Type} {key : Live → κ}
    (hkey : ∀ k : Live, key { k with retiring := true } = key k) (live : List Live) :
    (retire i live).map key = live.map key := map_modify hkey i

theorem Sound.retiring (h : Sound owner sc) (hi : sc.live[i]? = some l)
    (hidle : sc.engaged l.worker_id = false) : Sound owner (sc.retiring i l) := by
  have hmem : l ∈ sc.live := List.mem_of_getElem? hi
  refine ⟨?_, ?_, ?_, h.tasks, h.owned, h.jobs, ?_, h.open_taken⟩
  · rw [retiring_live, retire_map fun _ => rfl]
    exact h.pool
  · rw [retiring_live, retire_map fun _ => rfl]
    exact h.handles
  · intro k hk
    rcases mem_retire hi hk with hk | rfl
    · exact h.fresh k hk
    · exact h.fresh l hmem
  · intro k hk he
    rcases mem_retire hi hk with hk | rfl
    · exact h.engaged k hk he
    · exact absurd (hidle.symm.trans he) (by simp)

theorem counts_retiring {k : Live} (h : (sc.retiring i l).counts k) : sc.counts k := by
  rw [counts_iff, mem_retiring_dead] at h
  rw [counts_iff]
  exact h.imp_right (Or.imp_right (And.imp_right fun hk hd => hk (.inl hd)))

theorem counts_of_retiring (h : (sc.retiring i l).counts { l with retiring := true }) :
    sc.counts l := by
  rw [counts_iff, mem_retiring_dead] at h
  rw [counts_iff]
  rcases h with h | h | ⟨-, h⟩
  · exact .inl h
  · exact .inr (.inl h)
  · push Not at h
    cases hr : l.retiring with
    | true => exact .inr (.inr ⟨rfl, h.1⟩)
    | false =>
      cases ha : sc.alive l.worker with
      | true => exact .inl rfl
      | false => exact .inr (.inl (by simpa using h.2 rfl hr ha))

theorem Capped.retiring (h : Capped cap sc) (hs : Sound owner sc) (hi : sc.live[i]? = some l)
    (hidle : sc.engaged l.worker_id = false) : Capped cap (sc.retiring i l) := by
  have hmem : l ∈ sc.live := List.mem_of_getElem? hi
  constructor
  · exact h.fits
  · intro machine
    refine le_trans ?_ (h.count machine)
    refine count_le_of_retire (i := i) rfl (fun _ => rfl) (fun k _ hk => counts_retiring hk) ?_
    intro k hk hc
    obtain rfl : l = k := Option.some_inj.mp (hi.symm.trans hk)
    exact counts_of_retiring hc
  · intro k hk hd
    have hretired : ({ l with retiring := true } : Live) ∈ (sc.retiring i l).live := by
      refine @List.mem_of_getElem? _ _ i _ ?_
      rw [retiring_live, retire, List.getElem?_modify_eq, hi]
      rfl
    rcases mem_retiring_dead.mp hd with hd | ⟨hkl, -, hdown, -⟩
    · rcases mem_retire hi hk with hk | rfl
      · exact h.dead k hk hd
      · exact ⟨(h.dead l hmem hd).1, rfl⟩
    · have hkeq : k = { l with retiring := true } :=
        List.inj_on_of_nodup_map (hs.retiring hi hidle).handles hk hretired hkl
      rw [hkeq]
      exact ⟨hdown, rfl⟩
  · intro k hk hu
    rcases mem_retire hi hk with hk | rfl
    · exact h.unconfirmed k hk hu
    · exact .inl rfl
  · intro x hx
    rcases mem_retiring_dead.mp hx with hx | ⟨rfl, -⟩
    · exact h.dead_fresh x hx
    · exact hs.fresh l hmem
  · exact h.unconfirmed_fresh
  · exact h.committed

theorem Sound.erase (h : Sound owner sc) (i : Nat) :
    Sound owner { sc with live := sc.live.eraseIdx i } := by
  have hsub : (sc.live.eraseIdx i).Sublist sc.live := List.eraseIdx_sublist _ _
  exact ⟨(hsub.map _).nodup h.pool, (hsub.map _).nodup h.handles,
    fun k hk => h.fresh k (hsub.mem hk), h.tasks, h.owned, h.jobs,
    fun k hk => h.engaged k (hsub.mem hk), h.open_taken⟩

theorem Capped.erase (h : Capped cap sc) (i : Nat) :
    Capped cap { sc with live := sc.live.eraseIdx i } := by
  have hsub : (sc.live.eraseIdx i).Sublist sc.live := List.eraseIdx_sublist _ _
  refine ⟨h.fits, ?_, fun k hk => h.dead k (hsub.mem hk),
    fun k hk => h.unconfirmed k (hsub.mem hk), h.dead_fresh, h.unconfirmed_fresh, h.committed⟩
  intro machine
  exact le_trans (count_le_of_sublist hsub fun _ _ => id) (h.count machine)

theorem Capped.unconfirm (h : Capped cap sc) {worker : Nat} (hfresh : worker < sc.handles)
    (hret : ∀ k ∈ sc.live, k.worker = worker → k.retiring = true) :
    Capped cap { sc with unconfirmed := worker :: sc.unconfirmed } := by
  refine ⟨h.fits, h.count, h.dead, ?_, h.dead_fresh, ?_, h.committed⟩
  · intro k hk hu
    rcases List.mem_cons.mp hu with hu | hu
    · exact .inl (hret k hk hu)
    · exact h.unconfirmed k hk hu
  · intro x hx
    rcases List.mem_cons.mp hx with rfl | hx
    · exact hfresh
    · exact h.unconfirmed_fresh x hx

theorem Sound.unconfirm (h : Sound owner sc) (unconfirmed : List Nat) :
    Sound owner { sc with unconfirmed := unconfirmed } :=
  ⟨h.pool, h.handles, h.fresh, h.tasks, h.owned, h.jobs, h.engaged, h.open_taken⟩

end Closing

/-! ## The end of a task -/

/-- The task of job `id` is over, and its worker's entry is kept, retired or removed. -/
structure Released (id worker_id : String) (sc t : Scene) : Prop where
  tasks : t.tasks = remove id sc.tasks
  live : t.live.Sublist sc.live ∨
    ∃ i l, sc.live[i]? = some l ∧ l.worker_id = worker_id ∧ t.live = retire i sc.live
  config : t.config = sc.config
  closing : t.closing = sc.closing
  taken : sc.taken = [] → t.taken = []
  store : t.store = sc.store
  alive : t.alive = sc.alive
  handles : t.handles = sc.handles
  dead : t.dead = sc.dead

section Release

variable {id : String} {r : Running}

theorem engaged_iff {worker_id : String} :
    sc.engaged worker_id ↔ ∃ p ∈ sc.tasks, p.2.worker_id = worker_id := by
  unfold Scene.engaged
  simp

theorem mem_remove {tasks : List (String × Running)} {p : String × Running} :
    p ∈ remove id tasks ↔ p ∈ tasks ∧ p.1 ≠ id := by
  unfold remove
  simp

theorem engaged_remove (h : Sound owner sc) (hr : (id, r) ∈ sc.tasks)
    (ht : t.tasks = remove id sc.tasks) {worker_id : String} :
    t.engaged worker_id ↔ sc.engaged worker_id ∧ worker_id ≠ r.worker_id := by
  rw [engaged_iff, engaged_iff, ht]
  constructor
  · rintro ⟨p, hp, rfl⟩
    rw [mem_remove] at hp
    refine ⟨⟨p, hp.1, rfl⟩, ?_⟩
    intro hw
    have hpr : p = (id, r) := List.inj_on_of_nodup_map h.tasks hp.1 hr hw
    exact hp.2 (by rw [hpr])
  · rintro ⟨⟨p, hp, rfl⟩, hne⟩
    refine ⟨p, mem_remove.mpr ⟨hp, ?_⟩, rfl⟩
    rintro rfl
    exact hne ((h.owned p hp).trans (h.owned _ hr).symm)

theorem Released.mem (hrel : Released id r.worker_id sc t) {k : Live} (hk : k ∈ t.live) :
    k ∈ sc.live ∨ ∃ l ∈ sc.live, l.worker_id = r.worker_id ∧ k = { l with retiring := true } := by
  rcases hrel.live with hsub | ⟨i, l, hi, hl, hlive⟩
  · exact .inl (hsub.mem hk)
  · rw [hlive] at hk
    exact (mem_retire hi hk).imp_right fun hkl => ⟨l, List.mem_of_getElem? hi, hl, hkl⟩

theorem Sound.released (h : Sound owner sc) (hr : (id, r) ∈ sc.tasks)
    (hrel : Released id r.worker_id sc t) : Sound owner t := by
  have hkey : ∀ {κ : Type} (key : Live → κ), (∀ k : Live, key { k with retiring := true } = key k) →
      (sc.live.map key).Nodup → (t.live.map key).Nodup := by
    intro κ key hkey hnodup
    rcases hrel.live with hsub | ⟨i, l, -, -, hlive⟩
    · exact (hsub.map key).nodup hnodup
    · rw [hlive, retire_map hkey]
      exact hnodup
  refine ⟨hkey _ (fun _ => rfl) h.pool, hkey _ (fun _ => rfl) h.handles, ?_, ?_, ?_, ?_, ?_, ?_⟩
  · intro k hk
    rw [hrel.handles]
    rcases hrel.mem hk with hk | ⟨l, hl, -, rfl⟩
    · exact h.fresh k hk
    · exact h.fresh l hl
  · rw [hrel.tasks]
    exact (List.filter_sublist.map _).nodup h.tasks
  · intro p hp
    rw [hrel.tasks, mem_remove] at hp
    exact h.owned p hp.1
  · rw [hrel.store]
    exact h.jobs
  · intro k hk he
    obtain ⟨he, hne⟩ := (engaged_remove h hr hrel.tasks).mp he
    rcases hrel.mem hk with hk | ⟨l, -, hl, rfl⟩
    · exact h.engaged k hk he
    · exact absurd hl hne
  · intro hc
    rw [hrel.closing] at hc
    exact hrel.taken (h.open_taken hc)

theorem Capped.released (h : Capped cap sc) (hs : Sound owner sc) (hr : (id, r) ∈ sc.tasks)
    (hrel : Released id r.worker_id sc t)
    (hunc : ∀ l ∈ t.live, l.worker ∈ t.unconfirmed →
      l.retiring = true ∨ sc.closing = true ∨ Stopped l.worker_id sc.store)
    (hfresh : ∀ x ∈ t.unconfirmed, x < sc.handles) : Capped cap t := by
  have hcounts : ∀ k, t.counts k → sc.counts k := by
    intro k hk
    rw [counts_iff, engaged_remove hs hr hrel.tasks, hrel.alive, hrel.dead] at hk
    rw [counts_iff]
    exact hk.imp_right (Or.imp_left And.left)
  constructor
  · rw [hrel.config]
    exact h.fits
  · intro machine
    refine le_trans ?_ (h.count machine)
    rcases hrel.live with hsub | ⟨i, l, hi, hl, hlive⟩
    · exact count_le_of_sublist hsub fun k _ => hcounts k
    · refine count_le_of_retire hlive (fun _ => rfl) (fun k _ => hcounts k) fun k hk _ => ?_
      obtain rfl : l = k := Option.some_inj.mp (hi.symm.trans hk)
      exact counts_iff.mpr (.inr (.inl (engaged_iff.mpr ⟨_, hr, hl.symm⟩)))
  · intro k hk hd
    rw [hrel.dead] at hd
    rw [hrel.alive]
    rcases hrel.mem hk with hk | ⟨l, hl, -, rfl⟩
    · exact h.dead k hk hd
    · exact ⟨(h.dead l hl hd).1, rfl⟩
  · intro k hk hu
    rw [hrel.closing, hrel.store]
    exact hunc k hk hu
  · rw [hrel.dead, hrel.handles]
    exact h.dead_fresh
  · rw [hrel.handles]
    exact hfresh
  · rw [hrel.store]
    exact h.committed

end Release

/-! ## Signals -/

theorem send_replace_map {κ : Type} {key : String × Running → κ}
    (hkey : ∀ p s, key (p.1, { p.2 with control := s }) = key p) (id : String) (signal : Signal)
    (running : List (String × Running)) :
    (send_replace id signal running).map key = running.map key := by
  unfold send_replace
  rw [List.map_map]
  refine List.map_congr_left fun p _ => ?_
  unfold Function.comp
  dsimp only
  split
  · exact hkey p signal
  · rfl

/-- Two scenes whose tasks differ in their order and their signals only. -/
def SameTasks (sc t : Scene) : Prop :=
  (t.tasks.map fun p => (p.1, p.2.worker_id)).Perm (sc.tasks.map fun p => (p.1, p.2.worker_id))

theorem SameTasks.engaged (h : SameTasks sc t) {worker_id : String} :
    t.engaged worker_id = sc.engaged worker_id := by
  have hany : ∀ u : Scene, u.engaged worker_id =
      (u.tasks.map fun p => (p.1, p.2.worker_id)).any (·.2 = worker_id) := by
    intro u
    unfold Scene.engaged
    rw [List.any_map]
    rfl
  rw [hany, hany, List.Perm.any_eq h]

theorem SameTasks.sound (h : SameTasks sc t) (hs : Sound owner sc) (hlive : t.live = sc.live)
    (hhandles : t.handles = sc.handles) (hstore : t.store = sc.store)
    (htaken : t.closing = false → t.taken = []) : Sound owner t := by
  refine ⟨hlive ▸ hs.pool, hlive ▸ hs.handles, ?_, ?_, ?_, hstore ▸ hs.jobs, ?_, htaken⟩
  · rw [hlive, hhandles]
    exact hs.fresh
  · have hperm := List.Perm.map Prod.snd h
    rw [List.map_map, List.map_map] at hperm
    exact hperm.nodup_iff.mpr hs.tasks
  · intro p hp
    have hmem := (List.Perm.mem_iff h).mp (List.mem_map_of_mem hp)
    obtain ⟨q, hq, hqp⟩ := List.mem_map.mp hmem
    rw [Prod.mk.injEq] at hqp
    rw [← hqp.1, ← hqp.2]
    exact hs.owned q hq
  · intro l hl he
    rw [hlive] at hl
    rw [h.engaged] at he
    exact hs.engaged l hl he

theorem SameTasks.capped (h : SameTasks sc t) (hc : Capped cap sc) (hlive : t.live = sc.live)
    (hconfig : t.config = sc.config) (hhandles : t.handles = sc.handles)
    (hstore : t.store = sc.store) (halive : t.alive = sc.alive) (hdead : t.dead = sc.dead)
    (hunc : t.unconfirmed = sc.unconfirmed) (hclosing : sc.closing = true → t.closing = true) :
    Capped cap t := by
  constructor
  · rw [hconfig]
    exact hc.fits
  · intro machine
    refine le_trans (count_le_of_sublist (hlive ▸ List.Sublist.refl _) fun l _ hl => ?_)
      (hc.count machine)
    rw [counts_iff, h.engaged, halive, hdead] at hl
    exact counts_iff.mpr hl
  · rw [hlive, hdead, halive]
    exact hc.dead
  · rw [hlive, hunc, hstore]
    intro l hl hu
    exact (hc.unconfirmed l hl hu).imp_right (Or.imp_left hclosing)
  · rw [hdead, hhandles]
    exact hc.dead_fresh
  · rw [hunc, hhandles]
    exact hc.unconfirmed_fresh
  · rw [hstore]
    exact hc.committed

theorem same_tasks_send (id : String) (signal : Signal) :
    SameTasks sc { sc with running := send_replace id signal sc.running } := by
  unfold SameTasks Scene.tasks
  rw [List.map_append, List.map_append, send_replace_map fun _ _ => rfl]

/-- What `close` does first. -/
def Scene.shut (sc : Scene) : Scene :=
  { sc with
    closing := true
    taken := sc.taken ++ sc.running.map fun p => (p.1, { p.2 with control := .shutdown })
    running := [] }

theorem same_tasks_shut : SameTasks sc sc.shut := by
  unfold SameTasks Scene.tasks Scene.shut
  rw [List.nil_append, List.map_append, List.map_append, List.map_map]
  exact List.perm_append_comm

/-! ## Starting a job -/

section Starting

variable {worker_id : String} {spec : WorkerSpec}

/-- The scene with a new process for a worker. -/
def Scene.created (sc : Scene) (worker_id : String) (spec : WorkerSpec) : Scene :=
  { sc with
    live := sc.live ++ [⟨worker_id, spec, sc.handles, false⟩]
    handles := sc.handles + 1 }

theorem Sound.created (h : Sound owner sc) (hnew : ∀ l ∈ sc.live, l.worker_id ≠ worker_id) :
    Sound owner (sc.created worker_id spec) := by
  refine ⟨?_, ?_, ?_, h.tasks, h.owned, h.jobs, ?_, h.open_taken⟩
  · change ((sc.live ++ [_]).map Live.worker_id).Nodup
    rw [List.map_append, List.nodup_append]
    refine ⟨h.pool, List.nodup_singleton _, ?_⟩
    rintro x hx y hy rfl
    obtain ⟨l, hl, hlx⟩ := List.mem_map.mp hx
    obtain rfl : x = worker_id := by simpa using hy
    exact hnew l hl hlx
  · change ((sc.live ++ [_]).map Live.worker).Nodup
    rw [List.map_append, List.nodup_append]
    refine ⟨h.handles, List.nodup_singleton _, ?_⟩
    rintro x hx y hy rfl
    obtain ⟨l, hl, hlx⟩ := List.mem_map.mp hx
    obtain rfl : x = sc.handles := by simpa using hy
    exact absurd hlx (h.fresh l hl).ne
  · intro k hk
    rcases List.mem_append.mp hk with hk | hk
    · exact (h.fresh k hk).trans (Nat.lt_succ_self _)
    · obtain rfl := List.mem_singleton.mp hk
      exact Nat.lt_succ_self _
  · intro k hk he
    rcases List.mem_append.mp hk with hk | hk
    · exact h.engaged k hk he
    · obtain rfl := List.mem_singleton.mp hk
      rfl

theorem count_created (q : Live → Bool)
    (hq : q ⟨worker_id, spec, sc.handles, false⟩ = false) :
    (sc.created worker_id spec).count_where q = sc.count_where q := by
  unfold Scene.count_where Scene.created
  dsimp only
  rw [List.countP_append, List.countP_singleton, hq, Bool.false_and, if_neg (by simp),
    Nat.add_zero]
  rfl

theorem Capped.created (h : Capped cap sc) (hs : Sound owner sc)
    (hnew : ∀ l ∈ sc.live, l.worker_id ≠ worker_id)
    (hroom : sc.count_besides spec.machine.name worker_id < cap spec.machine.name) :
    Capped cap (sc.created worker_id spec) := by
  have hmem : ∀ k ∈ (sc.created worker_id spec).live,
      k ∈ sc.live ∨ k = ⟨worker_id, spec, sc.handles, false⟩ := by
    intro k hk
    exact (List.mem_append.mp hk).imp_right List.mem_singleton.mp
  constructor
  · exact h.fits
  · intro machine
    by_cases hm : spec.machine.name = machine
    · subst hm
      have hcreated : Sound owner (sc.created worker_id spec) := hs.created hnew
      have hone := count_le_besides hcreated spec.machine.name worker_id
      have hsame : (sc.created worker_id spec).count_besides spec.machine.name worker_id =
          sc.count_besides spec.machine.name worker_id := count_created _ (by simp)
      omega
    · have hsame : (sc.created worker_id spec).count machine = sc.count machine :=
        count_created _ (by simpa using hm)
      rw [hsame]
      exact h.count machine
  · intro k hk hd
    rcases hmem k hk with hk | rfl
    · exact h.dead k hk hd
    · exact absurd (h.dead_fresh _ hd) (lt_irrefl _)
  · intro k hk hu
    rcases hmem k hk with hk | rfl
    · exact h.unconfirmed k hk hu
    · exact absurd (h.unconfirmed_fresh _ hu) (lt_irrefl _)
  · intro x hx
    exact (h.dead_fresh x hx).trans (Nat.lt_succ_self _)
  · intro x hx
    exact (h.unconfirmed_fresh x hx).trans (Nat.lt_succ_self _)
  · exact h.committed

variable {id : String} {attempt : Nat} {l : Live}

/-- The scene once the worker's task runs. -/
def Scene.started (sc : Scene) (id worker_id : String) (attempt : Nat) : Scene :=
  { sc with running := insert id ⟨worker_id, attempt, .run⟩ sc.running }

theorem insert_perm {r : Running} {running : List (String × Running)}
    (h : ∀ p ∈ running, p.1 ≠ id) : (insert id r running).Perm ((id, r) :: running) := by
  induction running with
  | nil => exact List.Perm.refl _
  | cons p rest ih =>
    obtain ⟨k, v⟩ := p
    unfold insert
    split
    · exact List.Perm.refl _
    · rw [if_neg (Ne.symm (h (k, v) List.mem_cons_self))]
      have hrest := ih fun q hq => h q (List.mem_cons_of_mem _ hq)
      exact (hrest.cons _).trans (List.Perm.swap _ _ _)

theorem tasks_started (h : Sound owner sc) (hid : worker_id = owner id)
    (hidle : sc.engaged worker_id = false) :
    (sc.started id worker_id attempt).tasks.Perm
      ((id, ⟨worker_id, attempt, .run⟩) :: sc.tasks) := by
  unfold Scene.tasks Scene.started
  refine (insert_perm fun p hp hpid => ?_).append_right sc.taken
  have hmem : p ∈ sc.tasks := List.mem_append_left _ hp
  have hengaged : sc.engaged worker_id :=
    engaged_iff.mpr ⟨p, hmem, by rw [h.owned p hmem, hpid, hid]⟩
  exact absurd (hidle.symm.trans hengaged) (by simp)

theorem engaged_started (h : Sound owner sc) (hid : worker_id = owner id)
    (hidle : sc.engaged worker_id = false) {x : String} :
    (sc.started id worker_id attempt).engaged x ↔ sc.engaged x ∨ x = worker_id := by
  rw [engaged_iff, engaged_iff]
  simp only [(tasks_started h hid hidle).mem_iff, List.mem_cons, exists_eq_or_imp]
  rw [or_comm, @eq_comm _ worker_id]

theorem Sound.started (h : Sound owner sc) (hid : worker_id = owner id)
    (hidle : sc.engaged worker_id = false)
    (hret : ∀ l ∈ sc.live, l.worker_id = worker_id → l.retiring = false) :
    Sound owner (sc.started id worker_id attempt) := by
  have hperm := @tasks_started _ _ _ _ attempt h hid hidle
  refine ⟨h.pool, h.handles, h.fresh, ?_, ?_, h.jobs, ?_, h.open_taken⟩
  · rw [(hperm.map _).nodup_iff, List.map_cons, List.nodup_cons]
    refine ⟨?_, h.tasks⟩
    intro hmem
    obtain ⟨p, hp, hpw⟩ := List.mem_map.mp hmem
    exact absurd (hidle.symm.trans (engaged_iff.mpr ⟨p, hp, hpw⟩)) (by simp)
  · intro p hp
    rcases List.mem_cons.mp (hperm.mem_iff.mp hp) with rfl | hp
    · exact hid
    · exact h.owned p hp
  · intro k hk he
    rcases (engaged_started h hid hidle).mp he with he | hkw
    · exact h.engaged k hk he
    · exact hret k hk hkw

theorem Capped.started (h : Capped cap sc) (hs : Sound owner sc) (hid : worker_id = owner id)
    (hidle : sc.engaged worker_id = false) (hl : l ∈ sc.live) (hlw : l.worker_id = worker_id)
    (hret : ∀ k ∈ sc.live, k.worker_id = worker_id → k.retiring = false)
    (hroom : sc.count_besides l.spec.machine.name worker_id < cap l.spec.machine.name) :
    Capped cap (sc.started id worker_id attempt) := by
  have hcounts : ∀ k, k.worker_id ≠ worker_id → (sc.started id worker_id attempt).counts k →
      sc.counts k := by
    intro k hk hc
    rw [counts_iff, engaged_started hs hid hidle] at hc
    exact counts_iff.mpr (hc.imp_right (Or.imp_left fun he => he.resolve_right hk))
  refine ⟨h.fits, ?_, h.dead, h.unconfirmed, h.dead_fresh, h.unconfirmed_fresh, h.committed⟩
  intro machine
  by_cases hm : l.spec.machine.name = machine
  · subst hm
    have hstarted : Sound owner (sc.started id worker_id attempt) := hs.started hid hidle hret
    have hone := count_le_besides hstarted l.spec.machine.name worker_id
    have hmono : (sc.started id worker_id attempt).count_besides l.spec.machine.name worker_id ≤
        sc.count_besides l.spec.machine.name worker_id := by
      refine List.countP_mono_left fun k _ hk => ?_
      simp only [Bool.and_eq_true, decide_eq_true_eq] at hk ⊢
      exact ⟨hk.1, hcounts k hk.1.2 hk.2⟩
    omega
  · refine le_trans (List.countP_mono_left fun k hk hc => ?_) (h.count machine)
    simp only [Bool.and_eq_true, decide_eq_true_eq] at hc ⊢
    refine ⟨hc.1, hcounts k (fun hkw => hm ?_) hc.2⟩
    have hkl : k = l := List.inj_on_of_nodup_map hs.pool hk hl (hkw.trans hlw.symm)
    rw [← hkl]
    exact hc.1

end Starting

end Fridica.Workers
