import Fridica.Workers.Supervisor.Invariant

/-!
# What the operations keep

Reaping, the controls and the end of the supervisor, on both exits. Between two operations no task
is taken.
-/

open Fridica.Effect Fridica.Table

namespace Fridica.Workers

open Durable

variable {out : Outside} {owner : String → String} {cap : String → Nat} {T S : Prop}
  {w t u : World}

structure Rest (owner : String → String) (cap : String → Nat) (T S : Prop) (w : World) : Prop where
  inv : Inv owner cap T S w
  taken : w.scene.taken = []

/-- What a part of an operation leaves that starts no job, ends no task and keeps the invariant. -/
def Kept (owner : String → String) (cap : String → Nat) (T S : Prop) (w t : World) : Prop :=
  Inv owner cap T S t ∧ Onward T S w t

/-- What a part of an operation leaves that completes no intent. -/
structure Along (T : Prop) (w t : World) : Prop where
  completed : t.completed = w.completed
  stopped : T → ∀ id, Stopped id w.scene.store → Stopped id t.scene.store

theorem Along.refl (w : World) : Along T w w := ⟨rfl, fun _ _ hid => hid⟩

theorem Along.trans (h : Along T w t) (h' : Along T t u) : Along T w u :=
  ⟨h'.completed.trans h.completed, fun hT id hid => h'.stopped hT id (h.stopped hT id hid)⟩

theorem Onward.along (h : Onward T S w t) : Along T w t := ⟨h.completed, h.stopped⟩

theorem along_on {f : Scene → Scene} (hstore : (f w.scene).store = w.scene.store) :
    Along T w (w.on f) := ⟨rfl, fun _ _ hid => by
      change Stopped _ (f w.scene).store
      rw [hstore]
      exact hid⟩

theorem along_log {c : Call} (hc : c.completes = none) : Along T w (w.log c) :=
  (onward_log (S := True) hc).along

theorem Rest.kept (h : Rest owner cap T S w) (hk : Kept owner cap T S w t) : Rest owner cap T S t :=
  ⟨hk.1, hk.2.taken.trans h.taken⟩

theorem Rest.refl (h : Rest owner cap T S w) : Kept owner cap T S w w := ⟨h.inv, Onward.refl w⟩

theorem Rest.engaged (h : Rest owner cap T S w) (worker_id : String) :
    w.scene.engaged worker_id = w.scene.running.any (·.2.worker_id = worker_id) := by
  unfold Scene.engaged Scene.tasks
  rw [h.taken, List.append_nil]

theorem keeps_rest {α : Type} {m : Sup α} (hm : ∀ w, Keeps (Kept owner cap T S w) m) :
    Keeps (Rest owner cap T S) m := by
  intro w h
  exact wp_mono (hm w w h.refl) (fun _ _ => h.kept) fun _ _ => h.kept

/-- The task of job `id` ends. -/
theorem Inv.released {f : Scene → Scene} {id : String} {r : Running} (h : Inv owner cap T S w)
    (result : Except String TaskEnd) (hr : (id, r) ∈ w.scene.tasks)
    (hrel : Released id r.worker_id w.scene (f w.scene))
    (hunc : (f w.scene).unconfirmed = (w.scene.ended id r.worker_id result).unconfirmed)
    (hleft : leaves_process result = true → T →
      (∀ l ∈ (f w.scene).live, l.worker_id = r.worker_id → l.retiring = true) ∨
        w.scene.closing = true ∨ Stopped r.worker_id w.scene.store) :
    Inv owner cap T S (w.on f) := by
  refine h.on hrel.store (h.sound.released hr hrel) fun hT => ?_
  refine (h.capped hT).released h.sound hr hrel (fun l hl hu => ?_) ?_
  · rw [hunc] at hu
    rcases unconfirmed_ended hu with hu | ⟨hleaves, k, hk, hkr, hkl⟩
    · rcases hrel.mem hl with hl | ⟨k, -, -, rfl⟩
      · exact (h.capped hT).unconfirmed l hl hu
      · exact .inl rfl
    · rcases hrel.mem hl with hl' | ⟨k, -, -, rfl⟩
      · obtain rfl : k = l := List.inj_on_of_nodup_map h.sound.handles hk hl' hkl
        rw [hkr]
        exact (hleft hleaves hT).imp_left fun hret => hret k hl hkr
      · exact .inl rfl
  · rw [hunc]
    exact fresh_ended (h.capped hT) h.sound

/-! ## Signals -/

theorem wp_send {id : String} {signal : Signal} {intent : Option WorkerIntent}
    {Q : Unit → World → Prop} {E : String → World → Prop} :
    wp (send id signal intent) Q E w ↔ Q () ((w.log (.send id signal intent)).on fun sc =>
      { sc with running := send_replace id signal sc.running }) := Iff.rfl

theorem Inv.send {id : String} {signal : Signal} {intent : Option WorkerIntent}
    (h : Inv owner cap T S w)
    (hok : ∀ i, intent = some i → signal = .interrupt ∧ i.Targets id w.scene) :
    Inv owner cap T S ((w.log (.send id signal intent)).on fun sc =>
      { sc with running := send_replace id signal sc.running }) := by
  have h₁ : Inv owner cap T S (w.log (.send id signal intent)) := h.log rfl hok
  have hsame : SameTasks w.scene { w.scene with
      running := send_replace id signal w.scene.running } := same_tasks_send id signal
  refine h₁.on rfl ?_ fun hT => ?_
  · exact hsame.sound h₁.sound rfl rfl rfl h₁.sound.open_taken
  · exact hsame.capped (h₁.capped hT) rfl rfl rfl rfl rfl rfl rfl fun hclosing => hclosing

theorem mem_send_replace {id : String} {r : Running} {signal : Signal}
    {running : List (String × Running)} (h : (id, r) ∈ running) :
    (id, { r with control := signal }) ∈ send_replace id signal running := by
  unfold send_replace
  rw [List.mem_map]
  exact ⟨(id, r), h, if_pos rfl⟩

/-! ## Reaping -/

section Reaping

variable {sc : Scene} {id : String} {r : Running} {result : Except String TaskEnd}

theorem reaped_live (worker_id : String) :
    (sc.ended id worker_id result).reaped worker_id result = { sc.ended id worker_id result with
      live := ((sc.ended id worker_id result).reaped worker_id result).live } := by
  unfold Scene.reaped
  split
  · split <;> rfl
  · split <;> rfl

theorem retiring_of_retire {live : List Live} (hpool : (live.map Live.worker_id).Nodup) {i : Nat}
    {l : Live} (hi : live[i]? = some l) :
    ∀ k ∈ retire i live, k.worker_id = l.worker_id → k.retiring = true := by
  intro k hk hkl
  have hids : ((retire i live).map Live.worker_id).Nodup := by
    rw [retire_map fun _ => rfl]
    exact hpool
  have hmem := List.mem_of_getElem? (retire_getElem hi)
  rw [List.inj_on_of_nodup_map hids hk hmem hkl]

theorem reaped_retires (hpool : (sc.live.map Live.worker_id).Nodup) {worker_id : String} :
    (((sc.ended id worker_id result).reaped worker_id result).live.Sublist sc.live ∨
      ∃ i l, sc.live[i]? = some l ∧ l.worker_id = worker_id ∧
        ((sc.ended id worker_id result).reaped worker_id result).live = retire i sc.live) ∧
    (leaves_process result = true →
      ∀ l ∈ ((sc.ended id worker_id result).reaped worker_id result).live,
        l.worker_id = worker_id → l.retiring = true) := by
  unfold Scene.reaped
  split
  next hleaves =>
    split
    next hnone =>
      refine ⟨.inl (List.Sublist.refl _), fun _ l hl hlw => ?_⟩
      exact absurd hlw (position_none hnone l hl)
    next k i hsome =>
      obtain ⟨hi, hk⟩ := position_some hsome
      refine ⟨.inr ⟨i, k, hi, hk, rfl⟩, fun _ l hl hlw => ?_⟩
      exact retiring_of_retire hpool hi l hl (hlw.trans hk.symm)
  next hleaves =>
    refine ⟨.inl ?_, fun h => absurd h hleaves⟩
    split
    · exact List.filter_sublist
    · exact List.Sublist.refl _

theorem idle_ended (result : Except String TaskEnd) (h : Sound owner sc)
    (hr : (id, r) ∈ sc.running) : (sc.ended id r.worker_id result).engaged r.worker_id = false := by
  have htasks : (sc.ended id r.worker_id result).tasks = remove id sc.tasks := tasks_ended h hr
  rw [Bool.eq_false_iff]
  intro hengaged
  exact ((engaged_remove h (List.mem_append_left _ hr) htasks).mp hengaged).2 rfl

theorem Rest.ended {live : List Live} (h : Rest owner cap T S w)
    (result : Except String TaskEnd) (hr : (id, r) ∈ w.scene.running)
    (hlive : live.Sublist w.scene.live ∨
      ∃ i l, w.scene.live[i]? = some l ∧ l.worker_id = r.worker_id ∧
        live = retire i w.scene.live)
    (hleft : leaves_process result = true → T →
      (∀ l ∈ live, l.worker_id = r.worker_id → l.retiring = true) ∨
        Stopped r.worker_id w.scene.store) :
    Rest owner cap T S (w.on fun sc => { sc.ended id r.worker_id result with live := live }) := by
  have hrel : Released id r.worker_id w.scene
      { w.scene.ended id r.worker_id result with live := live } :=
    released_ended h.inv.sound hr hlive
  refine ⟨h.inv.released result (List.mem_append_left _ hr) hrel rfl ?_, h.taken⟩
  intro hleaves hT
  exact (hleft hleaves hT).imp_right .inr

theorem Inv.reaped (h : Inv owner cap T S w) (hr : (id, r) ∈ w.scene.running) :
    Inv owner cap T S
      (w.on fun sc => (sc.ended id r.worker_id result).reaped r.worker_id result) := by
  obtain ⟨hlive, hleft⟩ := @reaped_retires w.scene id result h.sound.pool r.worker_id
  refine h.released result (List.mem_append_left _ hr) ?_ ?_ fun hleaves _ =>
    .inl (hleft hleaves)
  · rw [reaped_live]
    exact released_ended h.sound hr hlive
  · rw [reaped_live]

end Reaping

variable (hc : Contracts out owner T S)
include hc

theorem Kept.next (h : Kept owner cap T S w t) : Kept owner cap T S w (t.next out) :=
  ⟨h.1.next hc, h.2.trans (onward_next hc)⟩

theorem Rest.next (h : Rest owner cap T S w) : Rest owner cap T S (w.next out) :=
  h.kept (h.refl.next hc)

theorem tick_kept : Keeps (Kept owner cap T S w) (tick out) := fun _ h => h.next hc

theorem read_kept {α : Type} (view : Durable → Except String α) :
    Keeps (Kept owner cap T S w) (read out view) := by
  intro t h
  exact wp_read (fun _ _ => h.next hc) fun _ => h.next hc

theorem is_over_kept (id : String) : Keeps (Kept owner cap T S w) (is_over out id) := by
  unfold is_over
  refine keeps_bind (tick_kept hc) fun a => ?_
  split
  · exact keeps_pure _
  · exact keeps_bind (read_kept hc _) fun j => keeps_pure _

theorem finished_kept (running : List (String × Running)) :
    Keeps (Kept owner cap T S w) (finished out running) := by
  induction running with
  | nil => exact keeps_pure _
  | cons p rest ih =>
    exact keeps_bind (is_over_kept hc _) fun _ => keeps_bind ih fun _ => keeps_pure _

theorem reap_one_rest (error : Option String) (id : String) :
    Keeps (Rest owner cap T S) (reap_one out error id) := by
  intro w h
  have h₁ := h.next hc
  unfold reap_one
  rw [wp_bind, wp_tick, wp_bind, wp_scene]
  split
  · exact h₁
  next r hr =>
    rw [wp_bind, wp_edit]
    have h₂ : Rest owner cap T S ((w.next out).on fun sc =>
        (sc.ended id r.worker_id (out.answer w.ticks).task).reaped r.worker_id
          (out.answer w.ticks).task) := by
      refine ⟨h₁.inv.reaped (mem_of_get hr), ?_⟩
      change Scene.taken (Scene.reaped _ _ _) = []
      rw [reaped_live]
      exact h₁.taken
    split <;> exact h₂

theorem reap_rest : Keeps (Rest owner cap T S) (reap out) := by
  unfold reap
  intro w h
  rw [wp_bind, wp_scene, wp_bind]
  refine wp_mono (keeps_rest (fun w => finished_kept hc _) w h) (fun done t ht => ?_) fun _ _ => id
  rw [wp_bind]
  refine wp_mono (keeps_foldlM (reap_one_rest hc) done none t ht) (fun e t ht => ?_) fun _ _ => id
  split <;> exact ht

/-! ## Stops -/

/-- What a close of the only entry of an idle worker leaves. -/
theorem wp_close_entry {i : Nat} {l : Live} (h : Rest owner cap T S w)
    (hi : w.scene.live[i]? = some l) (hidle : w.scene.engaged l.worker_id = false) :
    wp (close_live out i)
      (fun closed t => Kept owner cap T S w t ∧
        if closed then ∀ k ∈ t.scene.live, k.worker_id ≠ l.worker_id
        else ∀ k ∈ t.scene.live, k.worker_id = l.worker_id → k.retiring = true)
      (fun _ => Kept owner cap T S w) w := by
  have hclose := wp_close_live hc h.inv fun k (hk : w.scene.live[i]? = some k) => by
    rw [hi, Option.some_inj] at hk
    exact hk ▸ hidle
  refine wp_mono hclose (fun closed t ht => ⟨⟨ht.inv, ht.onward⟩, ?_⟩) fun _ _ => id
  obtain ⟨k, hk, hlive⟩ := ht.live
  rw [hlive]
  cases closed with
  | false => exact retiring_of_retire h.inv.sound.pool hi
  | true =>
    intro k hk
    have hids : ((retire i w.scene.live).map Live.worker_id).Nodup := by
      rw [retire_map fun _ => rfl]
      exact h.inv.sound.pool
    have hne := key_of_mem_eraseIdx hids (retire_getElem hi) hk
    exact hne

theorem stop_process_rest {worker_id : String} {retire_it : Bool}
    (hidle : w.scene.engaged worker_id = false)
    (hnone : position w.scene.live worker_id = none → Rest owner cap T S w)
    (hsome : ∀ l i, position w.scene.live worker_id = some (l, i) → Rest owner cap T S
      (w.on fun sc => { sc with live := if retire_it then retire i sc.live else sc.live })) :
    wp (stop_process out worker_id retire_it)
      (fun _ t => Rest owner cap T S t ∧ Along T w t ∧
        ∀ l ∈ t.scene.live, l.worker_id = worker_id → l.retiring = true)
      (fun _ => Rest owner cap T S) w := by
  unfold stop_process
  rw [wp_bind, wp_scene]
  split
  next hp =>
    exact ⟨hnone hp, Along.refl w, fun l hl hlw => absurd hlw (position_none hp l hl)⟩
  next l i hp =>
  dsimp only
  obtain ⟨hi, hlw⟩ := position_some hp
  have hclose : ∀ u k, Rest owner cap T S u → Along T w u → u.scene.live[i]? = some k →
      k.worker_id = worker_id → u.scene.engaged worker_id = false →
      wp (close_live out i >>= fun _ => pure ())
        (fun _ t => Rest owner cap T S t ∧ Along T w t ∧
          ∀ l ∈ t.scene.live, l.worker_id = worker_id → l.retiring = true)
        (fun _ => Rest owner cap T S) u := by
    rintro u k hu ha hk rfl hidle
    rw [wp_bind]
    refine wp_mono (wp_close_entry hc hu hk hidle) ?_ fun _ _ => hu.kept
    rintro closed t ⟨hkept, hentry⟩
    refine ⟨hu.kept hkept, ha.trans hkept.2.along, fun x hx hxk => ?_⟩
    cases closed with
    | false => exact hentry x hx hxk
    | true => exact absurd hxk (hentry x hx)
  cases retire_it with
  | false => exact hclose w l (hsome l i hp) (Along.refl w) hi hlw hidle
  | true =>
    rw [if_pos rfl, wp_bind, wp_edit]
    exact hclose _ _ (hsome l i hp) (along_on rfl) (retire_getElem hi) hlw hidle

theorem finish_stop_rest {worker_id : String} (h : Rest owner cap T S w)
    (hstop : T → Stopped worker_id w.scene.store) :
    wp (finish_stop out worker_id)
      (fun _ t => Rest owner cap T S t ∧ Along T w t ∧ ∀ l ∈ t.scene.live, l.worker_id ≠ worker_id)
      (fun _ => Rest owner cap T S) w := by
  unfold finish_stop
  rw [wp_bind, wp_scene]
  dsimp only
  have hcheck : ∀ t, Rest owner cap T S t → Along T w t →
      (∀ l ∈ t.scene.live, l.worker_id = worker_id → l.retiring = true) →
      wp (do
        let sc ← scene
        if sc.live.any fun l => l.worker_id = worker_id ∧ l.retiring then
          throw "worker process termination remains unconfirmed")
        (fun _ t => Rest owner cap T S t ∧ Along T w t ∧
          ∀ l ∈ t.scene.live, l.worker_id ≠ worker_id)
        (fun _ => Rest owner cap T S) t := by
    intro t ht ha hret
    rw [wp_bind, wp_scene]
    split
    · exact ht
    next hnone =>
      refine ⟨ht, ha, fun l hl hlw => hnone ?_⟩
      rw [List.any_eq_true]
      exact ⟨l, hl, by simpa [hlw] using hret l hl hlw⟩
  split
  next id r hr =>
    obtain ⟨hmem, rfl⟩ := find_key hr
    rw [wp_bind, wp_send, wp_bind, wp_tick, wp_bind, wp_edit]
    generalize hw₁ : (w.log (.send id .stop none)).on _ = w₁
    have h₁ : Rest owner cap T S w₁ := hw₁ ▸ ⟨h.inv.send (by simp), h.taken⟩
    have a₁ : Along T w w₁ := hw₁ ▸ (along_log rfl).trans (along_on rfl)
    have hmem₁ : (id, { r with control := .stop }) ∈ w₁.scene.running :=
      hw₁ ▸ mem_send_replace hmem
    have h₂ := h₁.next hc
    have a₂ : Along T w (w₁.next out) := a₁.trans (onward_next (S := S) hc).along
    generalize hw₂ : w₁.next out = w₂ at h₂ a₂
    have hmem₂ : (id, { r with control := .stop }) ∈ w₂.scene.running := hw₂ ▸ hmem₁
    cases hresult : (out.answer w₁.ticks).task with
    | error e =>
      rw [wp_bind, wp_throw]
      have h₃ := h₂.ended (.error e) hmem₂ (.inl (List.Sublist.refl _)) fun _ hT =>
        .inr (a₂.stopped hT _ (hstop hT))
      exact h₃
    | ok e =>
      have hidle := idle_ended (.ok e) h₂.inv.sound hmem₂
      have a₃ : Along T w (w₂.on (Scene.ended id r.worker_id (.ok e))) := a₂.trans (along_on rfl)
      dsimp only
      split
      next hclosed =>
        rw [wp_bind, wp_edit]
        have hsub : (retain r.worker_id w₂.scene.live).Sublist w₂.scene.live := List.filter_sublist
        have h₃ := h₂.ended (.ok e) hmem₂ (.inl hsub) (by simp [leaves_process, hclosed])
        refine hcheck _ h₃ (a₃.trans (along_on rfl)) fun l hl hlw => ?_
        exact absurd hlw (by simpa using (List.mem_filter.mp hl).2)
      next hopen =>
        rw [wp_bind]
        refine wp_mono (stop_process_rest hc hidle (fun hp => ?_) fun l i hp => ?_) ?_
          fun _ _ hrest => hrest
        · have h₃ := h₂.ended (.ok e) hmem₂ (.inl (List.Sublist.refl _)) fun _ _ =>
            .inl fun l hl hlw => absurd hlw (position_none hp l hl)
          exact h₃
        · obtain ⟨hi, hlw⟩ := position_some hp
          cases hretire : e.retire with
          | false =>
            have h₃ := h₂.ended (.ok e) hmem₂ (.inl (List.Sublist.refl _))
              (by simp [leaves_process, hretire])
            exact h₃
          | true =>
            have h₃ := h₂.ended (.ok e) hmem₂ (.inr ⟨i, l, hi, hlw, rfl⟩) fun _ _ =>
              .inl fun k hk hkw =>
                retiring_of_retire h₂.inv.sound.pool hi k hk (hkw.trans hlw.symm)
            exact h₃
        · rintro - t ⟨ht, ha, hret⟩
          exact hcheck t ht (a₃.trans ha) hret
  next hnone =>
    have hidle : w.scene.engaged worker_id = false := by
      rw [h.engaged, List.any_eq_false]
      intro p hp
      exact List.find?_eq_none.mp hnone p hp
    rw [wp_bind]
    refine wp_mono (stop_process_rest hc hidle (fun _ => h) fun _ _ _ => h) ?_ fun _ _ => id
    rintro - t ⟨ht, ha, hret⟩
    exact hcheck t ht ha hret

theorem Rest.commit {n : Nat} {d : Durable} (h : Rest owner cap T S w)
    (hd : (out.answer n).Writes w.scene.store d) :
    Rest owner cap T S (w.on fun sc => { sc with store := d }) :=
  ⟨h.inv.commit hc hd, h.taken⟩

theorem stop_rest (worker_id : String) : Keeps (Rest owner cap T S) (stop out worker_id) := by
  intro w h
  unfold stop
  rw [wp_bind, wp_clock, wp_bind]
  have h₁ := (h.next hc).next hc
  refine wp_commit (fun d hd => ?_) fun _ => h₁
  have h₂ := h₁.commit hc (.stop_worker hd)
  have hstop : T → Stopped worker_id d := fun hT => (hc.tame hT).stopped _ _ _ _ _ _ hd
  exact wp_mono (finish_stop_rest hc h₂ hstop) (fun _ _ ht => ht.1) fun _ _ => id

theorem interrupt_rest (worker_id : String) :
    Keeps (Rest owner cap T S) (interrupt out worker_id) := by
  unfold interrupt
  refine keeps_bind (reap_rest hc) fun _ => ?_
  intro w h
  rw [wp_bind, wp_scene]
  split
  · exact h
  · rw [wp_bind, wp_clock, wp_bind]
    have h₁ := (h.next hc).next hc
    refine wp_commit (fun d hd => ?_) fun _ => h₁
    have h₂ := h₁.commit hc (.interrupt_worker hd)
    rw [wp_bind, wp_send]
    exact ⟨h₂.inv.send (by simp), h₂.taken⟩

/-! ## Parent controls -/

omit hc in
theorem Sound.ids {sc : Scene} (h : Sound owner sc) : (sc.tasks.map (·.1)).Nodup := by
  have howners : sc.tasks.map (·.2.worker_id) = (sc.tasks.map (·.1)).map owner := by
    rw [List.map_map]
    exact List.map_congr_left h.owned
  have htasks := h.tasks
  rw [howners] at htasks
  exact htasks.of_map owner

omit hc in
theorem get_of_mem {sc : Scene} (h : Sound owner sc) {id : String} {r : Running}
    (hr : (id, r) ∈ sc.running) : get id sc.running = some r := by
  have hids : (sc.running.map (·.1)).Nodup := by
    have hall := h.ids
    unfold Scene.tasks at hall
    rw [List.map_append] at hall
    exact (List.nodup_append.mp hall).1
  unfold get
  rw [(find_key_iff hids).mpr ⟨hr, rfl⟩, Option.map_some]

theorem finish_retirement_rest {worker_id : String} (h : Rest owner cap T S w) :
    wp (finish_retirement out worker_id)
      (fun _ t => Kept owner cap T S w t ∧
        ∀ l ∈ t.scene.live, l.worker_id = worker_id → l.retiring = false)
      (fun _ => Rest owner cap T S) w := by
  unfold finish_retirement
  rw [wp_bind, wp_scene]
  split
  next hrunning =>
    refine ⟨h.refl, fun l hl hlw => h.inv.sound.engaged l hl ?_⟩
    rw [hlw, h.engaged]
    exact hrunning
  next hidle =>
  split
  next hnone =>
    refine ⟨h.refl, fun l hl hlw => ?_⟩
    obtain ⟨i, hi⟩ := List.mem_iff_getElem?.mp hl
    have hno := List.find?_eq_none.mp hnone (l, i) (List.mem_zipIdx_iff_getElem?.mpr hi)
    simpa [hlw] using hno
  next l i hsome =>
    have hi := List.mem_zipIdx_iff_getElem?.mp (List.mem_of_find?_eq_some hsome)
    have hl := List.find?_some hsome
    rw [decide_eq_true_eq] at hl
    obtain ⟨rfl, -⟩ := hl
    rw [← h.engaged, Bool.not_eq_true] at hidle
    rw [wp_bind]
    refine wp_mono (wp_close_entry hc h hi hidle) ?_ fun _ _ => h.kept
    rintro closed t ⟨hkept, hentry⟩
    cases closed with
    | false => exact h.kept hkept
    | true => exact ⟨hkept, fun k hk hkw => absurd hkw (hentry k hk)⟩

theorem ok_done_next {seq : Nat} {intent : WorkerIntent} {result : String}
    (h : (Call.done seq intent result).Ok owner T S w.scene) :
    (Call.done seq intent result).Ok owner T S (w.next out).scene := by
  refine ⟨h.1, fun hop id hid => ?_⟩
  obtain ⟨hprocess, htask, hattempt⟩ := h.2 hop id hid
  refine ⟨hprocess, htask, fun hS attempt ha hruns => ?_⟩
  exact hattempt hS attempt ha ((onward_next (T := T) hc).runs hS id attempt hruns)

theorem control_outcome_rest {intent : WorkerIntent} (h : Rest owner cap T S w)
    (hstop : T → intent.op = .stop → Stopped intent.worker w.scene.store) :
    wp (control_outcome out intent)
      (fun outcome t => Rest owner cap T S t ∧ Along T w t ∧ ∀ result, outcome = some result →
        ∀ seq, (Call.done seq intent result).Ok owner T S t.scene)
      (fun _ => Rest owner cap T S) w := by
  unfold control_outcome
  split
  next hop =>
    rw [wp_bind]
    refine wp_mono (finish_stop_rest hc h fun hT => hstop hT hop) ?_ fun _ _ => id
    rintro - t ⟨ht, ha, hentry⟩
    refine ⟨ht, ha, fun result _ seq => ⟨fun _ => hentry, fun hinterrupt => ?_⟩⟩
    simp [hop] at hinterrupt
  next hop =>
    rw [wp_bind, wp_scene]
    split
    next id r htarget =>
      obtain ⟨hbind, hmatch⟩ := Option.filter_eq_some_iff.mp htarget
      rw [decide_eq_true_eq] at hmatch
      obtain ⟨id', hjob, hget⟩ := Option.bind_eq_some_iff.mp hbind
      obtain ⟨r', hr', heq⟩ := Option.map_eq_some_iff.mp hget
      obtain ⟨rfl, rfl⟩ := Prod.mk.inj heq
      dsimp only
      split
      next hrun =>
        have htargets : intent.Targets id' w.scene :=
          ⟨hop, hjob, r', mem_of_get hr', hmatch.1, hmatch.2.symm, hrun⟩
        rw [wp_bind, wp_send]
        refine ⟨⟨h.inv.send fun i hi => ?_, h.taken⟩, (along_log rfl).trans (along_on rfl), by simp⟩
        exact ⟨rfl, (Option.some_inj.mp hi) ▸ htargets⟩
      next hsent => exact ⟨h, Along.refl w, by simp⟩
    next hother =>
    split
    next hjob =>
      refine ⟨h, Along.refl w, fun result _ seq => ⟨fun hstop => ?_, fun _ id hid => ?_⟩⟩
      · simp [hop] at hstop
      · simp [hjob] at hid
    next id hjob =>
    rw [wp_bind]
    have h₁ := h.next hc
    refine wp_read (fun target htarget => ?_) fun _ => h₁
    split
    · exact h₁
    next hover =>
    rw [wp_bind]
    refine wp_mono (finish_retirement_rest hc h₁) ?_ fun _ _ hrest => hrest
    rintro - t ⟨hkept, hentry⟩
    have honward : Onward T S w t := (onward_next hc).trans hkept.2
    refine ⟨h₁.kept hkept, honward.along, fun result _ seq =>
      ⟨fun hstop => ?_, fun _ id' hid => ?_⟩⟩
    · simp [hop] at hstop
    · obtain rfl : id = id' := Option.some_inj.mp (hjob.symm.trans hid)
      refine ⟨hentry, fun r hr hworker hattempt => ?_, fun hS attempt hattempt hruns => ?_⟩
      · rw [honward.running] at hr
        rw [hjob, Option.bind_some, get_of_mem h.inv.sound hr, Option.map_some,
          Option.filter_eq_none_iff] at hother
        exact hother _ rfl (by simp [hworker, hattempt])
      · obtain ⟨j, hj, hja, hjs⟩ := hkept.2.runs hS id attempt hruns
        have hjt : j = target := by
          rw [hj] at htarget
          exact Except.ok.inj htarget
        refine hover ⟨?_, hjt ▸ hjs⟩
        rw [← hjt, hja, hattempt]

theorem Inv.done {n seq : Nat} {intent : WorkerIntent} {result : String} {now : ℚ} {d : Durable}
    (h : Inv owner cap T S w) (hok : (Call.done seq intent result).Ok owner T S w.scene)
    (hfresh : S → seq ∉ w.completed)
    (hd : (out.answer n).complete_worker_control seq result now w.scene.store = .ok d) :
    Inv owner cap T S ((w.log (.done seq intent result)).on fun sc => { sc with store := d }) := by
  obtain ⟨hsound, hcapped, hsettled, -⟩ := h.commit hc (.complete_worker_control hd)
  refine ⟨hsound, hcapped, fun hS => ?_, fun e he => ?_⟩
  · have hcompleted : (w.log (.done seq intent result)).completed = seq :: w.completed :=
      completed_log
    refine ⟨(hsettled hS).seqs, fun x hx => ?_, ?_⟩
    · rcases List.mem_cons.mp (hcompleted ▸ hx) with rfl | hx
      · exact (hc.steady hS).completes _ _ _ _ _ _ hd
      · exact (hsettled hS).completed x hx
    · change (w.log (.done seq intent result)).completed.Nodup
      rw [hcompleted, List.nodup_cons]
      exact ⟨hfresh hS, (hsettled hS).once⟩
  · rcases List.mem_cons.mp he with rfl | he
    · exact ⟨h.sound, h.capped, hok⟩
    · exact h.seen e he

/-- What the intents still to come of one drain rely on. -/
structure Draining (owner : String → String) (cap : String → Nat) (T S : Prop)
    (pending : List PendingWorkerControl) (w : World) : Prop where
  rest : Rest owner cap T S w
  stopped : T → ∀ c ∈ pending, c.intent.op = .stop → Stopped c.intent.worker w.scene.store
  fresh : S → ∀ c ∈ pending, c.seq ∉ w.completed
  seqs : S → (pending.map (·.seq)).Nodup

omit hc in
theorem Draining.along {c : PendingWorkerControl} {pending : List PendingWorkerControl}
    (h : Draining owner cap T S (c :: pending) w) (ht : Rest owner cap T S t) (ha : Along T w t) :
    Draining owner cap T S pending t := by
  refine ⟨ht, fun hT k hk hop => ?_, fun hS k hk => ?_, fun hS => ?_⟩
  · exact ha.stopped hT _ (h.stopped hT k (List.mem_cons_of_mem c hk) hop)
  · rw [ha.completed]
    exact h.fresh hS k (List.mem_cons_of_mem c hk)
  · have hseqs := h.seqs hS
    rw [List.map_cons, List.nodup_cons] at hseqs
    exact hseqs.2

theorem reconcile_one_rest {c : PendingWorkerControl} {pending : List PendingWorkerControl}
    (h : Draining owner cap T S (c :: pending) w) :
    wp (reconcile_one out () c) (fun _ => Draining owner cap T S pending)
      (fun _ => Rest owner cap T S) w := by
  unfold reconcile_one
  rw [wp_bind]
  have hstop : T → c.intent.op = .stop → Stopped c.intent.worker w.scene.store :=
    fun hT => h.stopped hT c List.mem_cons_self
  refine wp_mono (control_outcome_rest hc h.rest hstop) ?_ fun _ _ => id
  rintro outcome t ⟨ht, ha, hok⟩
  cases outcome with
  | none => exact h.along ht ha
  | some result =>
    have h₁ := (ht.next hc).next hc
    have hfresh : S → c.seq ∉ t.completed := fun hS => by
      rw [ha.completed]
      exact h.fresh hS c List.mem_cons_self
    rw [wp_bind, wp_clock]
    unfold complete_worker_control
    rw [wp_bind, wp_tick, wp_bind, wp_scene]
    split
    · exact h₁
    next d hd =>
      rw [wp_bind, wp_log, wp_edit]
      have hok₁ := ok_done_next hc (ok_done_next hc (hok result rfl c.seq))
      have a₁ : Along T w ((t.next out).next out) :=
        ha.trans ((onward_next (S := S) hc).trans (onward_next hc)).along
      have h₂ := h.along h₁ a₁
      refine ⟨⟨h₁.inv.done hc hok₁ hfresh hd, h₁.taken⟩, fun hT k hk hop => ?_, fun hS k hk => ?_,
        h₂.seqs⟩
      · exact (hc.tame hT).stops _ _ _ _ (.complete_worker_control hd) (h₂.stopped hT k hk hop)
      · have hseqs := h.seqs hS
        rw [List.map_cons, List.nodup_cons] at hseqs
        have hne : k.seq ≠ c.seq := fun hkc => hseqs.1 (hkc ▸ List.mem_map_of_mem hk)
        have hold := h₂.fresh hS k hk
        change k.seq ∉ c.seq :: ((t.next out).next out).completed
        rw [List.mem_cons, not_or]
        exact ⟨hne, hold⟩

theorem reconcile_parent_controls_rest :
    Keeps (Rest owner cap T S) (reconcile_parent_controls out) := by
  intro w h
  unfold reconcile_parent_controls
  rw [wp_bind, wp_scene]
  split
  · exact h
  rw [wp_bind]
  refine wp_mono (reap_rest hc w h) (fun _ t ht => ?_) fun _ _ => id
  rw [wp_bind]
  have h₁ := ht.next hc
  refine wp_read (fun pending hpending => ?_) fun _ => h₁
  obtain rfl := Except.ok.inj hpending
  have hmem : ∀ c ∈ (t.next out).scene.store.pending_worker_controls,
      ∃ k ∈ (t.next out).scene.store.controls, k.outcome = none ∧ k.toPendingWorkerControl = c := by
    intro c hc
    obtain ⟨k, hk, rfl⟩ := List.mem_map.mp hc
    obtain ⟨hk, hnone⟩ := List.mem_filter.mp hk
    exact ⟨k, hk, by simpa using hnone, rfl⟩
  have hdrain : Draining owner cap T S (t.next out).scene.store.pending_worker_controls
      (t.next out) := by
    refine ⟨h₁, fun hT c hc hop => ?_, fun hS c hc hdone => ?_, fun hS => ?_⟩
    · obtain ⟨k, hk, hnone, rfl⟩ := hmem c hc
      exact (h₁.inv.capped hT).committed k hk hnone hop
    · obtain ⟨k, hk, hnone, rfl⟩ := hmem c hc
      exact (h₁.inv.settled hS).completed _ hdone k hk rfl hnone
    · unfold Durable.pending_worker_controls
      rw [List.map_map]
      exact (List.filter_sublist.map _).nodup (h₁.inv.settled hS).seqs
  refine wp_mono (wp_foldlM (I := fun pending _ => Draining owner cap T S pending)
    (fun c pending _ _ hd => reconcile_one_rest hc hd) _ hdrain) ?_ fun _ _ => id
  exact fun _ _ hd => hd.rest

/-! ## The end -/

omit hc in
theorem Inv.shut (h : Inv owner cap T S w) : Inv owner cap T S (w.on Scene.shut) := by
  refine h.on rfl ?_ fun hT => ?_
  · exact same_tasks_shut.sound h.sound rfl rfl rfl fun hopen => by cases hopen
  · exact same_tasks_shut.capped (h.capped hT) rfl rfl rfl rfl rfl rfl rfl fun _ => rfl

/-- `close` awaits the tasks that it took. -/
structure Awaiting (owner : String → String) (cap : String → Nat) (T S : Prop)
    (tasks : List (String × Running)) (w : World) : Prop where
  inv : Inv owner cap T S w
  closing : w.scene.closing = true
  running : w.scene.running = []
  taken : w.scene.taken = tasks

theorem await_taken_rest {failure : Option String} {p : String × Running}
    {tasks : List (String × Running)} (h : Awaiting owner cap T S (p :: tasks) w) :
    wp (await_taken out failure p) (fun _ => Awaiting owner cap T S tasks)
      (fun _ => Rest owner cap T S) w := by
  have h₁ := h.inv.next hc
  have htasks : (w.next out).scene.tasks = p :: tasks := by
    change w.scene.running ++ w.scene.taken = _
    rw [h.running, h.taken, List.nil_append]
  have hremove : remove p.1 (p :: tasks) = tasks := by
    have hids := h₁.sound.ids
    rw [htasks, List.map_cons, List.nodup_cons] at hids
    unfold remove
    rw [List.filter_cons_of_neg (by simp), List.filter_eq_self]
    intro q hq
    have hne : q.1 ≠ p.1 := fun hqp => hids.1 (hqp ▸ List.mem_map_of_mem hq)
    simpa using hne
  unfold await_taken
  rw [wp_bind, wp_tick]
  dsimp only
  rw [wp_bind, wp_edit]
  generalize hresult : (out.answer w.ticks).task = result
  have h₂ : Awaiting owner cap T S tasks ((w.next out).on fun sc =>
      { sc.ended p.1 p.2.worker_id result with taken := remove p.1 sc.taken }) := by
    have hrunning : remove p.1 (w.next out).scene.running = [] := by
      change remove p.1 w.scene.running = []
      rw [h.running]
      rfl
    have htaken : remove p.1 (w.next out).scene.taken = tasks := by
      change remove p.1 w.scene.taken = tasks
      rw [h.taken, hremove]
    have hmem : (p.1, p.2) ∈ (w.next out).scene.tasks := by
      rw [htasks]
      exact List.mem_cons_self
    refine ⟨?_, h.closing, hrunning, htaken⟩
    refine h₁.released result hmem ?_ rfl fun _ _ => .inr (.inl h.closing)
    refine ⟨?_, .inl (List.Sublist.refl _), rfl, rfl, fun hnil => ?_, rfl, rfl, rfl, rfl⟩
    · change remove p.1 (w.next out).scene.running ++ remove p.1 (w.next out).scene.taken = _
      rw [hrunning, htaken, htasks, hremove, List.nil_append]
    · have hcons : (w.next out).scene.taken = p :: tasks := h.taken
      rw [hcons] at hnil
      cases hnil
  split <;> exact h₂

theorem close_next_rest (failure : Option String) (i : Nat) :
    Keeps (fun w => Rest owner cap T S w ∧ w.scene.running = []) (close_next out failure i) := by
  rintro w ⟨h, hrunning⟩
  have hidle : ∀ l, w.scene.live[i]? = some l → w.scene.engaged l.worker_id = false := by
    intro l _
    rw [h.engaged, hrunning]
    rfl
  unfold close_next
  rw [wp_bind, wp_attempt]
  refine wp_mono (wp_close_live hc h.inv hidle) (fun closed t ht => ?_) fun e t ht => ?_
  · have h₁ : Rest owner cap T S t ∧ t.scene.running = [] :=
      ⟨h.kept ⟨ht.inv, ht.onward⟩, ht.onward.running.trans hrunning⟩
    cases closed <;> exact h₁
  · exact ⟨h.kept ht, ht.2.running.trans hrunning⟩

theorem close_rest : Keeps (Rest owner cap T S) (close out) := by
  intro w h
  unfold close
  rw [wp_bind, wp_edit, wp_bind, wp_scene, wp_bind]
  have h₁ : Awaiting owner cap T S (w.on Scene.shut).scene.taken (w.on Scene.shut) :=
    ⟨h.inv.shut, rfl, rfl, rfl⟩
  refine wp_mono (wp_foldlM (I := fun tasks _ => Awaiting owner cap T S tasks)
    (fun p tasks _ _ ht => await_taken_rest hc ht) _ h₁) (fun failure t ht => ?_) fun _ _ => id
  rw [wp_bind, wp_scene, wp_bind]
  have hcloses := keeps_foldlM (close_next_rest hc) (List.range t.scene.live.length).reverse failure
    t ⟨⟨ht.inv, ht.taken⟩, ht.running⟩
  refine wp_mono hcloses (fun failure u hu => ?_) fun _ _ hu => hu.1
  split <;> exact hu.1

theorem reconfigure_rest {config : Config}
    (hfits : T → ∀ m ∈ config.machines, m.max_workers = cap m.name) :
    Keeps (Rest owner cap T S) (reconfigure out config) := by
  intro w h
  unfold reconfigure
  rw [wp_bind, wp_scene]
  split
  · exact h
  split
  · exact h
  rw [wp_bind, wp_tick]
  have h₁ := h.next hc
  split
  · exact h₁
  · refine ⟨h₁.inv.on rfl ?_ fun hT => ?_, h₁.taken⟩
    · have hs := h₁.inv.sound
      exact ⟨hs.pool, hs.handles, hs.fresh, hs.tasks, hs.owned, hs.jobs, hs.engaged, hs.open_taken⟩
    · have hcap := h₁.inv.capped hT
      exact ⟨hfits hT, hcap.count, hcap.dead, hcap.unconfirmed, hcap.dead_fresh,
        hcap.unconfirmed_fresh, hcap.committed⟩

end Fridica.Workers
