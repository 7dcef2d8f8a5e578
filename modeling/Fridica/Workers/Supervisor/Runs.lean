import Fridica.Workers.Supervisor.Schedule
import Fridica.Workers.Supervisor.Pass

/-!
# Runs of the supervisor

What holds at every call of every run from an empty supervisor: the pool stays within the limits of
its machines, and the intents of the parent reach the attempts that they name.
-/

open Fridica.Effect

namespace Fridica.Workers

open Durable

variable {out : Outside} {owner : String → String} {cap : String → Nat} {T S : Prop} {w : World}

/-- A new configuration keeps each machine's `max_workers`. -/
def Operation.Fits (cap : String → Nat) : Operation → Prop
  | .reconfigure config => ∀ m ∈ config.machines, m.max_workers = cap m.name
  | _ => True

def run (out : Outside) (w : World) (ops : List Operation) : World := ops.foldl (perform out) w

theorem Empty.rest (h : Empty w) (howned : Owned owner w.scene.store)
    (hT : T → (∀ m ∈ w.scene.config.machines, m.max_workers = cap m.name) ∧
      StopsCommitted w.scene.store)
    (hS : S → DistinctSeqs w.scene.store) : Rest owner cap T S w := by
  obtain ⟨hlive, hrunning, htaken, -, hdead, hunconfirmed, hhistory⟩ := h
  have htasks : w.scene.tasks = [] := by
    unfold Scene.tasks
    rw [hrunning, htaken, List.append_nil]
  refine ⟨⟨?_, fun hT' => ?_, fun hS' => ?_, by simp [hhistory]⟩, htaken⟩
  · constructor <;> simp [hlive, htasks, htaken, howned]
  · obtain ⟨hfits, hcommitted⟩ := hT hT'
    refine ⟨hfits, fun machine => ?_, by simp [hlive], by simp [hlive], by simp [hdead],
      by simp [hunconfirmed], hcommitted⟩
    simp [Scene.count, Scene.count_where, hlive]
  · exact ⟨hS hS', by simp [World.completed, hhistory], by simp [World.completed, hhistory]⟩

section Steps

variable (hc : Contracts out owner T S)
include hc

theorem perform_rest {op : Operation} (h : Rest owner cap T S w) (hop : T → op.Fits cap) :
    Rest owner cap T S (perform out w op) := by
  cases op with
  | schedule => exact wp_after (schedule_rest hc w h)
  | settle => exact wp_after (reap_rest hc w h)
  | interrupt worker_id => exact wp_after (interrupt_rest hc worker_id w h)
  | stop worker_id => exact wp_after (stop_rest hc worker_id w h)
  | reconcile_parent_controls => exact wp_after (reconcile_parent_controls_rest hc w h)
  | close => exact wp_after (close_rest hc w h)
  | reconfigure config => exact wp_after (reconfigure_rest hc hop w h)

theorem run_rest {ops : List Operation} (h : Rest owner cap T S w)
    (hops : T → ∀ op ∈ ops, op.Fits cap) : Rest owner cap T S (run out w ops) := by
  induction ops generalizing w with
  | nil => exact h
  | cons op rest ih =>
    have hop := perform_rest hc h fun hT => hops hT op List.mem_cons_self
    exact ih hop fun hT o ho => hops hT o (List.mem_cons_of_mem op ho)

end Steps

/-! ## The pool -/

structure Scene.Bounded (cap : String → Nat) (sc : Scene) : Prop where
  count : ∀ machine, sc.count machine ≤ cap machine
  pool : (sc.live.map Live.worker_id).Nodup

/-- A job starts on no process whose close was not confirmed, and an eviction closes none that is
in use or wanted. -/
def Call.Spares (sc : Scene) : Call → Prop
  | .start _ worker => ∃ l ∈ sc.live, l.worker = worker ∧ l.retiring = false ∧
      worker ∉ sc.unconfirmed
  | .evict worker queued => ∃ l ∈ sc.live, l.worker = worker ∧ sc.engaged l.worker_id = false ∧
      sc.busy worker = false ∧ ∀ j ∈ queued, j.worker_id ≠ l.worker_id
  | _ => True

/-- **The pool stays within every machine's `max_workers`**, at every call of every run. -/
theorem pool_bounded (hk : Keyed out owner) (ht : Tame out) (hw : Empty w)
    (howned : Owned owner w.scene.store) (hcommitted : StopsCommitted w.scene.store)
    (hfits : ∀ m ∈ w.scene.config.machines, m.max_workers = cap m.name) {ops : List Operation}
    (hops : ∀ op ∈ ops, op.Fits cap) :
    (run out w ops).scene.Bounded cap ∧
      ∀ e ∈ (run out w ops).history, e.2.Bounded cap ∧ e.1.Spares e.2 := by
  have hc : Contracts out owner True False := ⟨hk, fun _ => ht, False.elim⟩
  have h : Rest owner cap True False w := hw.rest howned (fun _ => ⟨hfits, hcommitted⟩) False.elim
  obtain ⟨hsound, hcapped, -, hseen⟩ := (run_rest hc h fun _ => hops).inv
  refine ⟨⟨(hcapped trivial).count, hsound.pool⟩, fun e he => ?_⟩
  obtain ⟨hsound, hcapped, hok⟩ := hseen e he
  refine ⟨⟨(hcapped trivial).count, hsound.pool⟩, ?_⟩
  obtain ⟨c, sc⟩ := e
  cases c with
  | start job worker =>
    obtain ⟨l, hl, hworker, -, hret, hconfirmed⟩ := hok
    exact ⟨l, hl, hworker, hret, hconfirmed trivial⟩
  | evict worker queued => exact hok
  | moment | send | done => trivial

/-- Two workers of a machine that takes one process, each with a queued job. -/
def twoWorkers (controls : List WorkerControl) : World :=
  let m : Machine := ⟨"m", "local", [⟨"w", "/w"⟩], ["codex"], [], 1, 2⟩
  let worker (id : String) (slot : Nat) : WorkerRecord := ⟨id, "m", "w", "codex", slot, "idle", 0⟩
  { scene := {
      config := ⟨[m], ⟨4, 100, 100, 100⟩, ⟨"codex", "", ""⟩, []⟩
      live := [], running := [], closing := false, observe_only := false, taken := []
      store := ⟨[worker "a" 1, worker "b" 2],
        [⟨"a-0", "a", 0, "queued", ""⟩, ⟨"b-0", "b", 0, "queued", ""⟩], controls⟩
      alive := fun _ => false, busy := fun _ => false, handles := 0, dead := [], unconfirmed := [] }
    ticks := 0
    history := [] }

/-- The first process dies, its task ends, and no close succeeds. -/
def firstDies : Outside :=
  InMemory.outside firstLetter fun _ => ⟨true, .ok ⟨false, false⟩, false, [0]⟩

def afterStop : World := run firstDies (twoWorkers []) [.schedule, .schedule, .stop "a"]

theorem pool_bounded_twoWorkers :
    afterStop.scene.Bounded (fun _ => 1) ∧
      ∀ e ∈ afterStop.history, e.2.Bounded (fun _ => 1) ∧ e.1.Spares e.2 :=
  pool_bounded InMemory.keyed InMemory.tame (by unfold Empty; simp [twoWorkers])
    (by unfold Owned; decide) (by simp [StopsCommitted, twoWorkers]) (by decide)
    (by simp [Operation.Fits])

/-- The entries of a machine that are alive, retiring or engaged. -/
def Scene.in_use (sc : Scene) (machine : String) : Nat :=
  sc.live.countP fun l => l.spec.machine.name = machine ∧
    (sc.alive l.worker ∨ l.retiring ∨ sc.engaged l.worker_id)

/-- A process that was dead already counts once its close fails: the entry stays, retiring, beside
the process that took its room. -/
theorem dead_entry_retires :
    Keyed firstDies firstLetter ∧ Tame firstDies ∧ Empty (twoWorkers []) ∧
      Owned firstLetter (twoWorkers []).scene.store ∧ StopsCommitted (twoWorkers []).scene.store ∧
      (∀ m ∈ (twoWorkers []).scene.config.machines, m.max_workers = 1) ∧
      ¬ afterStop.scene.in_use "m" ≤ 1 := by
  refine ⟨InMemory.keyed, InMemory.tame, ?_, ?_, ?_, by decide, by decide +kernel⟩
  · unfold Empty
    simp [twoWorkers]
  · unfold Owned
    decide
  · simp [StopsCommitted, twoWorkers]

/-! ## The intents of the parent -/

/-- An interrupt reaches the attempt that it names and no later one, and an intent is completed once
nothing is left of what it names. -/
def Call.Settles (sc : Scene) : Call → Prop
  | .send id signal (some intent) => signal = .interrupt ∧ intent.Targets id sc
  | .done _ intent _ =>
      (intent.op = .stop → ∀ l ∈ sc.live, l.worker_id ≠ intent.worker) ∧
        (intent.op = .interrupt → ∀ id, intent.job = some id → intent.Over True id sc)
  | _ => True

/-- **Every intent is settled at most once, on the attempt that it names**, in every run. -/
theorem intents_settled (hk : Keyed out owner) (hs : Steady out) (hw : Empty w)
    (howned : Owned owner w.scene.store) (hseqs : DistinctSeqs w.scene.store)
    (ops : List Operation) :
    (run out w ops).completed.Nodup ∧ ∀ e ∈ (run out w ops).history, e.1.Settles e.2 := by
  have hc : Contracts out owner False True := ⟨hk, False.elim, fun _ => hs⟩
  have h : Rest owner (fun _ => 0) False True w := hw.rest howned False.elim fun _ => hseqs
  have hrun : Rest owner (fun _ => 0) False True (run out w ops) := run_rest hc h False.elim
  obtain ⟨-, -, hsettled, hseen⟩ := hrun.inv
  refine ⟨(hsettled trivial).once, fun e he => ?_⟩
  obtain ⟨-, -, hok⟩ := hseen e he
  obtain ⟨c, sc⟩ := e
  cases c with
  | send id signal intent =>
    cases intent with
    | none => trivial
    | some intent => exact hok intent rfl
  | done seq intent result => exact hok
  | moment | evict | start => trivial

/-- Interrupts of a running attempt, of an attempt that never ran, and of no job. -/
def threeIntents : List WorkerControl :=
  [⟨⟨0, ⟨.interrupt, "a", some "a-0", some 1⟩⟩, none⟩,
    ⟨⟨1, ⟨.interrupt, "b", some "b-0", some 7⟩⟩, none⟩, ⟨⟨2, ⟨.interrupt, "b", none, none⟩⟩, none⟩]

/-- Every task goes on until it is told to end. -/
def goesOn : Outside :=
  InMemory.outside firstLetter fun _ => ⟨false, .ok ⟨false, true⟩, true, []⟩

def afterIntents : World :=
  run goesOn (twoWorkers threeIntents)
    [.schedule, .reconcile_parent_controls, .reconcile_parent_controls]

def Call.signalled : Call → Option String
  | .send id _ _ => some id
  | _ => none

theorem intents_settled_threeIntents :
    afterIntents.history.filterMap (·.1.signalled) = ["a-0"] ∧ afterIntents.completed = [2, 1] ∧
      afterIntents.completed.Nodup ∧ ∀ e ∈ afterIntents.history, e.1.Settles e.2 :=
  ⟨by decide +kernel, by decide +kernel, intents_settled InMemory.keyed InMemory.steady
    (by unfold Empty; simp [twoWorkers]) (by unfold Owned; decide)
    (by unfold DistinctSeqs; decide) _⟩

end Fridica.Workers
