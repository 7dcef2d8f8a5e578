import Fridica.Lib.Window
import Fridica.Attention.Spec
import Mathlib.Tactic.Linarith

/-! # The hourly reply caps hold, and a deferral is exact -/

open Fridica.Window

namespace Fridica.Attention

/-! ## The computed time -/

/-- The caps at time `t`, counted over every reply of the thread. -/
def Full (limits : Limits) (rs : List Reply) (trigger : Trigger) (t : ℚ) : Prop :=
  trigger ≠ .owner ∧
    (limits.max_replies_per_hour ≤ rs.countP (fun r => t - hour < r.time) ∨
      trigger = .peer ∧
        limits.max_echo_replies_per_hour ≤
          (rs.filter fun r => r.trigger = .peer).countP fun r => t - hour < r.time)

theorem bump_eq (cap : Nat) (events : List Reply) (limit : ℚ) :
    bump cap events limit =
      match fromEnd cap events with
      | some e => max limit (e.time + hour)
      | none => limit := by
  unfold bump fromEnd
  by_cases h : cap ≤ events.length
  · cases events[events.length - cap]? <;> simp [h]
  · simp [h]

theorem lt_bump_iff {cap : Nat} (hcap : 0 < cap) {events : List Reply}
    (hasc : events.Pairwise fun a b => a.time ≤ b.time) (limit t : ℚ) :
    t < bump cap events limit ↔
      t < limit ∨ cap ≤ events.countP fun r => t - hour < r.time := by
  have hcut := lt_fromEnd_iff Reply.time hasc hcap (t - hour)
  rw [bump_eq, ← hcut]
  cases hlast : fromEnd cap events with
  | none => simp
  | some e =>
    simp only [lt_max_iff, Option.some.injEq, exists_eq_left']
    rw [sub_lt_iff_lt_add]

theorem countP_recent {o : Outside} (ho : o.Faithful) {now t : ℚ} (h : now ≤ t) (rs : List Reply) :
    (o.recent_replies rs now).countP (fun r => t - hour < r.time) =
      rs.countP fun r => t - hour < r.time := by
  rw [(ho.rows rs now).countP_eq]
  exact countP_filter_of_le Reply.time (by linarith) rs

theorem countP_recent_peers {o : Outside} (ho : o.Faithful) {now t : ℚ} (h : now ≤ t)
    (rs : List Reply) :
    ((o.recent_replies rs now).filter fun r => r.trigger = .peer).countP
        (fun r => t - hour < r.time) =
      (rs.filter fun r => r.trigger = .peer).countP fun r => t - hour < r.time := by
  have hperm := (ho.rows rs now).filter fun r => decide (r.trigger = .peer)
  rw [hperm.countP_eq, List.filter_comm]
  exact countP_filter_of_le Reply.time (by linarith) _

theorem lt_not_before_iff {o : Outside} (ho : o.Faithful) {limits : Limits}
    (hmax : 0 < limits.max_replies_per_hour) (hecho : 0 < limits.max_echo_replies_per_hour)
    (rs : List Reply) (trigger : Trigger) {now t : ℚ} (h : now ≤ t) :
    t < not_before limits (o.recent_replies rs now) trigger now ↔ Full limits rs trigger t := by
  have hnow : ¬ t < now := not_lt.mpr h
  have hasc := ho.ascending rs now
  have hpeers := hasc.filter fun r => decide (r.trigger = .peer)
  unfold not_before Full
  cases trigger with
  | owner => simp [hnow]
  | human => simp [lt_bump_iff hmax hasc, hnow, countP_recent ho h]
  | peer =>
    simp [lt_bump_iff hmax hasc, lt_bump_iff hecho hpeers, hnow, countP_recent ho h,
      countP_recent_peers ho h]

/-! ## One call -/

/-- What `reserve` checks before it looks at the replies. -/
structure Ready (o : Outside) (limits : Limits) (s : Thread) (inbox : Int) : Prop where
  valid : o.validate limits = .ok ()
  active : s.active = true
  item : inbox ∈ s.items

theorem reserve_ready {o : Outside} {limits : Limits} {s : Thread} {inbox : Int}
    (h : Ready o limits s inbox) (trigger : Trigger) (now : ℚ) (id : String) :
    reserve o limits s inbox trigger now id =
      match reservation_state s inbox with
      | some .reserved => .ok (s, .reserved)
      | some .sent => .error "inbox item already replied"
      | none =>
        let limit := not_before limits (o.recent_replies s.replies now) trigger now
        if limit > now then .ok (defer_reply s inbox limit, .deferred limit)
        else .ok (reserve_reply s id inbox trigger now, .reserved) := by
  unfold reserve
  simp only [h.valid, h.active, h.item, bind, Except.bind, pure, Except.pure]
  cases reservation_state s inbox with
  | some state => cases state <;> rfl
  | none =>
    simp only [not_true_eq_false, Bool.not_true, Bool.false_eq_true, if_false]

theorem ready_of_ok {o : Outside} {limits : Limits} {s : Thread} {inbox : Int} {trigger : Trigger}
    {now : ℚ} {id : String} {r : Thread × Capacity}
    (h : reserve o limits s inbox trigger now id = .ok r) : Ready o limits s inbox := by
  unfold reserve at h
  simp only [bind, Except.bind, pure, Except.pure] at h
  cases hv : o.validate limits with
  | error e => simp [hv] at h
  | ok u =>
    by_cases ha : s.active = true
    · by_cases hi : inbox ∈ s.items
      · exact ⟨hv, ha, hi⟩
      · simp [hv, ha, hi, throw, throwThe, MonadExceptOf.throw] at h
    · simp [hv, ha, throw, throwThe, MonadExceptOf.throw] at h

/-- Everything a call that returns can do. -/
theorem reserve_cases {o : Outside} {limits : Limits} {s s' : Thread} {inbox : Int}
    {trigger : Trigger} {now : ℚ} {id : String} {c : Capacity}
    (h : reserve o limits s inbox trigger now id = .ok (s', c)) :
    (reservation_state s inbox = some .reserved ∧ s' = s ∧ c = .reserved) ∨
    (reservation_state s inbox = none ∧
      ∃ limit, limit = not_before limits (o.recent_replies s.replies now) trigger now ∧
        now < limit ∧ s' = defer_reply s inbox limit ∧ c = .deferred limit) ∨
    (reservation_state s inbox = none ∧
      ¬ now < not_before limits (o.recent_replies s.replies now) trigger now ∧
        s' = reserve_reply s id inbox trigger now ∧ c = .reserved) := by
  rw [reserve_ready (ready_of_ok h)] at h
  split at h
  · rename_i hprior
    cases h
    exact Or.inl ⟨hprior, rfl, rfl⟩
  · cases h
  · rename_i hprior
    right
    simp only [gt_iff_lt] at h
    split at h <;> rename_i hlimit <;> cases h
    · exact Or.inl ⟨hprior, _, rfl, hlimit, rfl, rfl⟩
    · exact Or.inr ⟨hprior, hlimit, rfl, rfl⟩

theorem reservation_state_none {s : Thread} {inbox : Int} :
    reservation_state s inbox = none ↔ inbox ∉ s.replies.map Reply.inbox := by
  simp [reservation_state]

theorem reserved_fits {o : Outside} (ho : o.Faithful) {limits : Limits}
    (hmax : 0 < limits.max_replies_per_hour) (hecho : 0 < limits.max_echo_replies_per_hour)
    {s s' : Thread} {inbox : Int} {trigger : Trigger} {now : ℚ} {id : String}
    (hnew : reservation_state s inbox = none) (hother : trigger ≠ .owner)
    (h : reserve o limits s inbox trigger now id = .ok (s', .reserved)) :
    s'.replies.countP (fun r => now - hour < r.time) ≤ limits.max_replies_per_hour ∧
      (trigger = .peer →
        (s'.replies.filter fun r => r.trigger = .peer).countP (fun r => now - hour < r.time) ≤
          limits.max_echo_replies_per_hour) := by
  rcases reserve_cases h with ⟨hprior, -, -⟩ | ⟨-, limit, -, -, -, hc⟩ | ⟨-, hfree, rfl, -⟩
  · rw [hnew] at hprior
    cases hprior
  · cases hc
  · rw [lt_not_before_iff ho hmax hecho _ _ le_rfl] at hfree
    have hroom : ¬ limits.max_replies_per_hour ≤ s.replies.countP fun r => now - hour < r.time :=
      fun hfull => hfree ⟨hother, Or.inl hfull⟩
    simp only [reserve_reply, List.filter_append, List.countP_append]
    refine ⟨?_, ?_⟩
    · have := List.countP_le_length (p := fun r : Reply => decide (now - hour < r.time))
        (l := [⟨id, inbox, trigger, now, .reserved⟩])
      simp only [List.length_singleton] at this
      omega
    · rintro rfl
      have hpeers : ¬ limits.max_echo_replies_per_hour ≤
          (s.replies.filter fun r => r.trigger = .peer).countP fun r => now - hour < r.time :=
        fun hfull => hfree ⟨hother, Or.inr ⟨rfl, hfull⟩⟩
      have := List.countP_le_length (p := fun r : Reply => decide (now - hour < r.time))
        (l := [⟨id, inbox, .peer, now, .reserved⟩])
      simp only [List.length_singleton] at this
      simp only [List.filter_singleton, decide_true, cond_true]
      omega

theorem deferred_exact {o : Outside} (ho : o.Faithful) {limits : Limits}
    (hmax : 0 < limits.max_replies_per_hour) (hecho : 0 < limits.max_echo_replies_per_hour)
    {s s' : Thread} {inbox : Int} {trigger : Trigger} {now limit : ℚ} {id : String}
    (h : reserve o limits s inbox trigger now id = .ok (s', .deferred limit))
    {later : Thread} (hsame : later.replies = s.replies) (hready : Ready o limits later inbox)
    {t : ℚ} (ht : now ≤ t) (id' : String) :
    (limit ≤ t → reserve o limits later inbox trigger t id' =
        .ok (reserve_reply later id' inbox trigger t, .reserved)) ∧
      (t < limit → reserve o limits later inbox trigger t id' =
        .ok (defer_reply later inbox limit, .deferred limit)) := by
  rcases reserve_cases h with ⟨-, -, hc⟩ | ⟨hnew, limit, hlimit, -, -, hc⟩ | ⟨-, -, -, hc⟩
  · cases hc
  · cases hc
    have hnone : reservation_state later inbox = none := by
      rw [reservation_state_none, hsame, ← reservation_state_none, hnew]
    -- Both computed times divide the times from `t` on in the same way.
    have hfirst : ∀ u, t ≤ u → (u < limit ↔ Full limits s.replies trigger u) := by
      intro u hu
      rw [hlimit]
      exact lt_not_before_iff ho hmax hecho _ _ (ht.trans hu)
    have hsecond : ∀ u, t ≤ u →
        (u < not_before limits (o.recent_replies s.replies t) trigger t ↔
          Full limits s.replies trigger u) :=
      fun u hu => lt_not_before_iff ho hmax hecho _ _ hu
    rw [reserve_ready hready, hnone]
    simp only [gt_iff_lt, hsame]
    refine ⟨?_, ?_⟩
    · intro hle
      rw [if_neg]
      rw [hsecond t le_rfl, ← hfirst t le_rfl]
      exact not_lt.mpr hle
    · intro hlt
      have hlt' := (hsecond t le_rfl).mpr ((hfirst t le_rfl).mp hlt)
      have heq : not_before limits (o.recent_replies s.replies t) trigger t = limit := by
        apply le_antisymm
        · by_contra hgt
          have hgt := not_le.mp hgt
          exact lt_irrefl _ ((hfirst _ hlt.le).mpr ((hsecond _ hlt.le).mp hgt))
        · by_contra hgt
          have hgt := not_le.mp hgt
          exact lt_irrefl _ ((hsecond _ hlt'.le).mpr ((hfirst _ hlt'.le).mp hgt))
      rw [if_pos hlt', heq]
  · cases hc

/-! ## Runs -/

/-- Each inbox item has at most one reply. -/
def Single (s : Thread) : Prop := (s.replies.map Reply.inbox).Nodup

theorem single_apply {o : Outside} {limits : Limits} {s : Thread} (h : Single s) (now : ℚ)
    (op : Op) : Single (apply o limits s now op) := by
  cases op with
  | prepare active items => exact h
  | deliver inbox =>
    have hsame : (deliver s inbox now).replies.map Reply.inbox = s.replies.map Reply.inbox := by
      simp only [deliver, List.map_map]
      apply List.map_congr_left
      intro r _
      simp only [Function.comp_apply]
      split <;> rfl
    rw [Single, apply, hsame]
    exact h
  | reserve inbox trigger id =>
    simp only [apply]
    split
    · rename_i s' c hok
      rcases reserve_cases hok with ⟨-, rfl, -⟩ | ⟨-, limit, -, -, rfl, -⟩ | ⟨hnew, -, rfl, -⟩
      · exact h
      · exact h
      · rw [reservation_state_none] at hnew
        simp only [Single, reserve_reply, List.map_append, List.map_singleton]
        exact List.nodup_append.mpr ⟨h, by simp, by
          intro a ha b hb
          rw [List.mem_singleton] at hb
          rintro rfl
          exact hnew (hb ▸ ha)⟩
    · exact h

theorem single_run {o : Outside} {limits : Limits} (ops : List (ℚ × Op)) {s : Thread}
    (h : Single s) : Single (run o limits s ops) := by
  induction ops generalizing s with
  | nil => exact h
  | cons op ops ih => exact ih (single_apply h op.1 op.2)

/-- The replies of the hour that ends at `now`. -/
def window (s : Thread) (now : ℚ) : List Reply :=
  s.replies.filter fun r => now - hour < r.time ∧ r.time ≤ now

theorem window_length_le (s : Thread) (now : ℚ) :
    (window s now).length ≤ s.replies.countP fun r => now - hour < r.time := by
  rw [List.countP_eq_length_filter]
  apply List.Sublist.length_le
  apply List.monotone_filter_right
  intro r hr
  simp only [decide_eq_true_eq] at hr ⊢
  exact hr.1

theorem window_peers_le (s : Thread) (now : ℚ) :
    ((window s now).filter fun r => r.trigger = .peer).length ≤
      (s.replies.filter fun r => r.trigger = .peer).countP fun r => now - hour < r.time := by
  rw [List.countP_eq_length_filter, window, List.filter_comm]
  apply List.Sublist.length_le
  apply List.monotone_filter_right
  intro r hr
  simp only [decide_eq_true_eq] at hr ⊢
  exact hr.1

/-- **The caps, the repeat and the deferral**, in every state that any calls at any times reach. -/
theorem reserve_caps {o : Outside} (ho : o.Faithful) {limits : Limits}
    (hmax : 0 < limits.max_replies_per_hour) (hecho : 0 < limits.max_echo_replies_per_hour)
    (ops : List (ℚ × Op)) (inbox : Int) (trigger : Trigger) (now : ℚ) (id : String) :
    let s := run o limits fresh ops
    (s.replies.map Reply.inbox).Nodup ∧
    (∀ s', reserve o limits s inbox trigger now id = .ok (s', .reserved) →
      reservation_state s inbox = none → trigger ≠ .owner →
        (window s' now).length ≤ limits.max_replies_per_hour ∧
        (trigger = .peer → ((window s' now).filter fun r => r.trigger = .peer).length ≤
          limits.max_echo_replies_per_hour)) ∧
    (reservation_state s inbox ≠ none →
      ∀ s' c, reserve o limits s inbox trigger now id = .ok (s', c) → s' = s ∧ c = .reserved) ∧
    (∀ s' limit, reserve o limits s inbox trigger now id = .ok (s', .deferred limit) →
      ∀ later, later.replies = s.replies → Ready o limits later inbox → ∀ t id', now ≤ t →
        (limit ≤ t → reserve o limits later inbox trigger t id' =
          .ok (reserve_reply later id' inbox trigger t, .reserved)) ∧
        (t < limit → reserve o limits later inbox trigger t id' =
          .ok (defer_reply later inbox limit, .deferred limit))) := by
  intro s
  refine ⟨?_, ?_, ?_, ?_⟩
  · exact single_run ops List.nodup_nil
  · intro s' h hnew hother
    obtain ⟨hall, hpeer⟩ := reserved_fits ho hmax hecho hnew hother h
    exact ⟨(window_length_le s' now).trans hall,
      fun hp => (window_peers_le s' now).trans (hpeer hp)⟩
  · intro hprior s' c h
    rcases reserve_cases h with ⟨-, hs, hc⟩ | ⟨hnone, -⟩ | ⟨hnone, -⟩
    · exact ⟨hs, hc⟩
    · exact absurd hnone hprior
    · exact absurd hnone hprior
  · intro s' limit h later hsame hready t id' ht
    exact deferred_exact ho hmax hecho h hsame hready ht id'

/-! ## A store in memory -/

/-- The two outside calls, over the rows alone. -/
def inMemory : Outside where
  validate _ := .ok ()
  recent_replies rs now :=
    (rs.filter fun r => now - hour < r.time).insertionSort fun a b => a.time ≤ b.time

theorem inMemory_faithful : inMemory.Faithful where
  rows _ _ := List.perm_insertionSort _ _
  ascending _ _ := List.pairwise_insertionSort _ _

/-- At 3611 the hour holds the second owner reply and the human one, which is all a cap of two
allows. -/
def busyHour : List (ℚ × Op) :=
  [(0, .prepare true [1, 2, 3, 4]), (10, .reserve 1 .owner "r1"), (20, .reserve 2 .owner "r2"),
    (3610, .reserve 3 .human "r3")]

theorem reserve_caps_busyHour :
    reserve inMemory ⟨2, 1⟩ (run inMemory ⟨2, 1⟩ fresh busyHour) 4 .human 3611 "r4" =
        .ok (defer_reply (run inMemory ⟨2, 1⟩ fresh busyHour) 4 3620, .deferred 3620) ∧
      reserve inMemory ⟨2, 1⟩ (run inMemory ⟨2, 1⟩ fresh busyHour) 4 .human 3620 "r4" =
        .ok (reserve_reply (run inMemory ⟨2, 1⟩ fresh busyHour) "r4" 4 .human 3620, .reserved) := by
  have hdeferred : reserve inMemory ⟨2, 1⟩ (run inMemory ⟨2, 1⟩ fresh busyHour) 4 .human 3611 "r4" =
      .ok (defer_reply (run inMemory ⟨2, 1⟩ fresh busyHour) 4 3620, .deferred 3620) := by
    decide +kernel
  have hready : Ready inMemory ⟨2, 1⟩ (run inMemory ⟨2, 1⟩ fresh busyHour) 4 :=
    ready_of_ok hdeferred
  obtain ⟨-, -, -, hexact⟩ := @reserve_caps inMemory inMemory_faithful ⟨2, 1⟩ (by decide)
    (by decide) busyHour 4 .human 3611 "r4"
  exact ⟨hdeferred, (hexact _ _ hdeferred _ rfl hready 3620 "r4" (by norm_num)).1 le_rfl⟩

end Fridica.Attention
