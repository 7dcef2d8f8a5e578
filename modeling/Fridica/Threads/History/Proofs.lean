import Fridica.Threads.History.Spec
import Mathlib.Algebra.Order.Field.Rat

/-!
# The history is read in time, and not too often
-/

open Fridica.Ask
open Fridica.Threads.Service (Failure)

namespace Fridica.Threads.History

variable {σ : Type}

/-! ## The pace of the readings -/

/-- How long Slack must be left alone. -/
def floor_of : Outcome → ℚ
  | .error (some retry_after) => if retry_after > 0 then max retry_after 1 else 0
  | _ => 0

structure Pace where
  /-- A time that has come. -/
  clock : ℚ
  /-- What the next reading must reach back to. -/
  window : ℚ
  /-- A reading whose outcome is not recorded. -/
  pending : Option (ℚ × Outcome)
  read_at : ℚ
  floor : ℚ
  reconnected : Bool

namespace Pace

def start : Pace := ⟨0, WINDOW, none, 0, 0, true⟩

/-- The history may be read: the last reading is recorded, Slack was left alone as long as it asked
for, and the interval is over or the socket is new. -/
structure MayRead (o : Options) (s : Pace) (window : ℚ) : Prop where
  recorded : s.pending = none
  window : window = s.window
  left_alone : s.read_at + s.floor ≤ s.clock
  rested : s.reconnected = true ∨ s.read_at + o.catchup_interval ≤ s.clock

def allows (o : Options) (s : Pace) : Query → Prop
  | .connected => s = start
  | .catchup window => MayRead o s window
  | .history_result d f => ∃ window outcome, s.pending = some (window, outcome) ∧
    d = detail window (floor_of outcome) outcome ∧ f = failed outcome
  | .now => s.pending = none
  | .wait next => s.pending = none ∧ next = s.read_at + max o.catchup_interval s.floor
  | .sleep_until earliest => s.reconnected = true ∧ earliest = s.read_at + s.floor

/-- A sleep ends when its time has come. -/
def next (s : Pace) : (q : Query) → Answer q → Pace
  | .connected, _ => s
  | .catchup window, (outcome : Outcome) =>
    { s with
      pending := some (window, outcome)
      window := if failed outcome then WINDOW else RECENT
      floor := floor_of outcome }
  | .history_result _ _, _ => { s with pending := none }
  | .now, (now : ℚ) => { s with clock := now, read_at := now, reconnected := false }
  | .wait until_, (waited : Waited) =>
    match waited with
    | .slept => { s with clock := max s.clock until_ }
    | .changed connected => { s with reconnected := connected }
    | .socket_gone => s
  | .sleep_until earliest, _ => { s with clock := max s.clock earliest }

end Pace

abbrev pace (o : Options) : Protocol Query Answer Pace := ⟨Pace.allows o, Pace.next⟩

/-! ## One turn -/

section Turn

variable {o : Options} {s : Pace}

theorem try_from_secs_ok {secs wait : ℚ} (h : try_from_secs (σ := σ) secs = .ok wait) :
    wait = secs := by
  unfold try_from_secs at h
  split at h
  · exact (Except.ok.inj h).symm
  · cases h

theorem retry_floor_ok {outcome : Outcome} {floor : ℚ}
    (h : retry_floor (σ := σ) outcome = .ok floor) : floor = floor_of outcome := by
  match outcome with
  | .ok _ => exact (Except.ok.inj h).symm
  | .error none => exact (Except.ok.inj h).symm
  | .error (some retry_after) =>
    simp only [retry_floor, floor_of] at h ⊢
    split at h
    · next hpos => rw [if_pos hpos, try_from_secs_ok h]
    · next hpos => rw [if_neg hpos, Except.ok.inj h]

theorem checked_add_ok {now wait sum : ℚ} (h : o.checked_add (σ := σ) now wait = .ok sum) :
    sum = now + wait := by
  unfold Options.checked_add at h
  split at h
  · exact (Except.ok.inj h).symm
  · cases h

/-- What holds before a turn. -/
def Standing (o : Options) : Turn → Pace → Prop
  | .read window, s => s.MayRead o window
  | .wait window next earliest, s => s.pending = none ∧ window = s.window ∧
    next = s.read_at + max o.catchup_interval s.floor ∧ earliest = s.read_at + s.floor

theorem wp_computed {α : Type} {x : Except (Failure σ) α} {post : α → Pace → Prop}
    (h : ∀ a, x = .ok a → post a s) :
    wp (pace o) (unit (pure x)) post (fun _ _ => True) s := by
  rw [wp_unit, wp_pure]
  cases x with
  | ok a => exact h a rfl
  | error failure => trivial

theorem read_ok {window : ℚ} (h : s.MayRead o window) :
    wp (pace o) (read (σ := σ) o window) (Standing o) (fun _ _ => True) s := by
  unfold read
  rw [wp_bind, wp_ask]
  refine ⟨h, ?_⟩
  intro (outcome : Outcome)
  rw [wp_bind]
  refine wp_computed fun floor hfloor => ?_
  obtain rfl := retry_floor_ok hfloor
  unfold history_result
  simp only [wp_bind]
  rw [wp_ask]
  refine ⟨⟨window, outcome, rfl, rfl, rfl⟩, fun done => ?_⟩
  refine wp_computed fun _ _ => wp_bind.mpr (wp_ask.mpr ⟨rfl, ?_⟩)
  intro (now : ℚ)
  refine wp_bind.mpr (wp_computed fun next hnext => ?_)
  refine wp_bind.mpr (wp_computed fun earliest hearliest => ?_)
  exact ⟨rfl, rfl, checked_add_ok hnext, checked_add_ok hearliest⟩

theorem wait_ok {window next earliest : ℚ} (h : Standing o (.wait window next earliest) s) :
    wp (pace o) (wait (σ := σ) window next earliest) (Standing o) (fun _ _ => True) s := by
  obtain ⟨hrecorded, hwindow, hnext, hearliest⟩ := h
  unfold wait
  rw [wp_bind, wp_ask]
  refine ⟨⟨hrecorded, hnext⟩, ?_⟩
  intro (waited : Waited)
  match waited with
  | .socket_gone => trivial
  | .changed false => exact ⟨hrecorded, hwindow, hnext, hearliest⟩
  | .slept =>
    have hcome : next ≤ max s.clock next := le_max_right _ _
    refine ⟨hrecorded, hwindow, le_trans ?_ hcome, .inr (le_trans ?_ hcome)⟩
    · rw [hnext]
      exact add_le_add le_rfl (le_max_right _ _)
    · rw [hnext]
      exact add_le_add le_rfl (le_max_left _ _)
  | .changed true =>
    refine ⟨⟨rfl, hearliest⟩, fun _ => ⟨hrecorded, hwindow, ?_, .inl rfl⟩⟩
    exact hearliest.symm.le.trans (le_max_right _ _)

theorem turn_ok {t : Turn} (h : Standing o t s) :
    wp (pace o) (turn (σ := σ) o t) (Standing o) (fun _ _ => True) s := by
  cases t with
  | read window => exact read_ok h
  | wait window next earliest => exact wait_ok h

theorem start_rested : Pace.start.read_at + Pace.start.floor ≤ Pace.start.clock := by
  simp [Pace.start]

theorem history_loop_ok {n : ℕ} :
    wp (pace o) (history_loop (σ := σ) o n) (Standing o) (fun _ _ => True) Pace.start := by
  unfold history_loop connected
  rw [wp_bind, wp_bind, wp_ask]
  refine ⟨rfl, ?_⟩
  intro (connected : Bool)
  cases connected with
  | false => trivial
  | true => exact wp_turns (fun _ _ => turn_ok) n ⟨rfl, rfl, start_rested, .inl rfl⟩

end Turn

/-- However long the loop runs: it reads no history before Slack was left alone as long as it asked
for, a new socket or not, and without one not before the interval is over. A reading reaches as far
back as the one before left open, and each is recorded before the next. -/
theorem paced {o : Options} {n : ℕ} {l : List (Event Query Answer)} {r : Except (Failure σ) Turn}
    (hrun : Run (history_loop o n).run l r) {past rest : List (Event Query Answer)}
    {e : Event Query Answer} (hl : l = past ++ e :: rest) :
    ((pace o).after Pace.start past).allows o e.question := by
  obtain ⟨hlegal, -⟩ := wp_run history_loop_ok hrun
  rw [hl] at hlegal
  exact hlegal.of_append

/-! ## A limited rate, and a socket that reconnects -/

def answers (past : List (Event Query Answer)) : (q : Query) → Answer q
  | .connected => true
  | .catchup _ => .error (some 30)
  | .history_result _ _ => true
  | .now => past.length
  | .wait _ => .changed true
  | .sleep_until _ => ()

def options : Options := ⟨300, 2 ^ 63⟩

def limited : List (Event Query Answer) × Except (Failure Unit) Turn :=
  play answers [] (history_loop options 3).run

/-- The first reading fails at 3 s, and the next one waits until 33 s. -/
def questions : List Query :=
  [.connected, .catchup 3600, .history_result (.catchup_failed 3600 30) true, .now, .wait 303,
    .sleep_until 33]

theorem paced_limited : ∃ past e rest, limited.1 = past ++ e :: rest ∧
    past.map Event.question = questions ∧
      ((pace options).after Pace.start past).MayRead options 3600 := by
  have hasked : limited.1.map Event.question = questions ++ .catchup 3600 ::
      [.history_result (.catchup_failed 3600 30) true, .now] := by decide +kernel
  obtain ⟨past, tail, hl, hpast, htail⟩ := List.map_eq_append_iff.mp hasked
  obtain ⟨e, rest, rfl, he, -⟩ := List.map_eq_cons_iff.mp htail
  have hread := paced (play_run answers [] (history_loop options 3).run) hl
  rw [he] at hread
  exact ⟨past, e, rest, hl, hpast, hread⟩

end Fridica.Threads.History
