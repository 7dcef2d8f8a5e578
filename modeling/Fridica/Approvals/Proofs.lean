import Fridica.Approvals.Spec

/-! # What a worker may be told -/

namespace Fridica.Approvals

variable {σ : Type} {a : Store σ} {o : Outside}

/-! ## The table -/

/-- A unit of work that settles pending rows and leaves the others. -/
def Settles (a : Store σ) (x : ApprovalSettlement) (before after : σ) : Prop :=
  ∀ k, a.approval after k = a.approval before k ∨ ∃ r r', a.approval before k = some r ∧
    r.pending ∧ a.approval after k = some r' ∧ r'.pending = false ∧
    (r'.verdict ≠ .deny → x = .decide r'.verdict)

theorem settles_closed {x : ApprovalSettlement} {before after : σ}
    (h : ∀ k, a.approval after k = a.approval before k ∨
      Closed (a.approval before k) (a.approval after k)) : Settles a x before after := by
  intro k
  rcases h k with hsame | ⟨r, r', hr, hp, hr', hp', hdeny⟩
  · exact .inl hsame
  · exact .inr ⟨r, r', hr, hp, hr', hp', fun hne => absurd hdeny hne⟩

/-- The rows of this daemon: a pending one was opened in this generation, and a granted one has the
owner's grant as its first settlement. -/
structure Table (a : Store σ) (s : State σ) : Prop where
  pending : ∀ id r, a.approval s.store id = some r → r.pending →
    s.begun id = some s.generation ∧ s.first id = none
  granted : ∀ id g r, s.begun id = some g → a.approval s.store id = some r → r.pending = false →
    r.verdict ≠ .deny → s.first id = some (.decide r.verdict)
  opened : ∀ id g, s.begun id = some g → (a.approval s.store id).isSome
  first_row : ∀ id x, s.first id = some x → (a.approval s.store id).isSome

theorem settled_by_mono {x y : ApprovalSettlement} {before after : String → Option Approval}
    {first : String → Option ApprovalSettlement} {id : String} (h : first id = some y) :
    settled_by x before after first id = some y := by
  simp [settled_by, h]

theorem settled_by_new {x : ApprovalSettlement} {before after : String → Option Approval}
    {first : String → Option ApprovalSettlement} {id : String} {r r' : Approval}
    (hfirst : first id = none) (hr : before id = some r) (hp : r.pending)
    (hr' : after id = some r') (hp' : r'.pending = false) :
    settled_by x before after first id = some x := by
  simp [settled_by, hfirst, hr, hp, hr', hp']

theorem settled_by_same {x : ApprovalSettlement} {before after : String → Option Approval}
    {first : String → Option ApprovalSettlement} {id : String} (h : after id = before id) :
    settled_by x before after first id = first id := by
  unfold settled_by
  rw [h]
  cases hfirst : first id with
  | some y => rfl
  | none =>
    cases before id with
    | none => rfl
    | some r => cases hp : r.pending <;> simp [hp]

theorem Table.wrote {s : State σ} (h : Table a s) {x : ApprovalSettlement} {store : σ}
    (hx : Settles a x s.store store) : Table a (s.wrote a x store) where
  pending id r hr hp := by
    rcases hx id with hsame | ⟨-, r', -, -, hr', hp', -⟩
    · have hr : a.approval s.store id = some r := hsame ▸ hr
      obtain ⟨hbegun, hfirst⟩ := h.pending id r hr hp
      exact ⟨hbegun, (settled_by_same hsame).trans hfirst⟩
    · have hr : a.approval store id = some r := hr
      rw [hr'] at hr
      cases hr
      rw [hp'] at hp
      cases hp
  granted id g r hbegun hr hp hne := by
    have hr : a.approval store id = some r := hr
    rcases hx id with hsame | ⟨r₀, r', hr₀, hp₀, hr', hp', hgrant⟩
    · have hgranted := h.granted id g r hbegun (hsame ▸ hr) hp hne
      exact settled_by_mono hgranted
    · rw [hr'] at hr
      cases hr
      have hfirst := (h.pending id r₀ hr₀ hp₀).2
      rw [← hgrant hne]
      exact settled_by_new hfirst hr₀ hp₀ hr' hp'
  opened id g hbegun := by
    show (a.approval store id).isSome
    rcases hx id with hsame | ⟨-, r', -, -, hr', -⟩
    · rw [hsame]
      exact h.opened id g hbegun
    · rw [hr']
      rfl
  first_row id y hy := by
    show (a.approval store id).isSome
    rcases hx id with hsame | ⟨-, r', -, -, hr', -⟩
    · have hy : settled_by x (a.approval s.store) (a.approval store) s.first id = some y := hy
      rw [settled_by_same hsame] at hy
      rw [hsame]
      exact h.first_row id y hy
    · rw [hr']
      rfl

theorem Settles.keeps {x : ApprovalSettlement} {before after : σ} (h : Settles a x before after)
    {id : String} {r : Approval} (hr : a.approval before id = some r) (hp : r.pending = false) :
    a.approval after id = some r := by
  rcases h id with hsame | ⟨r₀, -, hr₀, hp₀, -⟩
  · exact hsame.trans hr
  · rw [hr] at hr₀
    cases hr₀
    rw [hp] at hp₀
    cases hp₀

/-! ## The tasks -/

/-- Why a task may tell its worker `d`: the policy in force when it began says so, or the owner's
decision settled its row first. -/
def Allowed (o : Outside) (s : State σ) (t : Task) (d : ApprovalDecision) : Prop :=
  (∃ config policy, t.config = some config ∧ config.policy t.worker = some policy ∧
    automatic o policy t.worker t.request = some d) ∨
  ∃ id, t.row = some id ∧ s.first id = some (.decide d)

structure TaskInv (o : Outside) (s : State σ) (i : Nat) (t : Task) : Prop where
  beginning : ∀ n, t.phase = .beginning n → s.lock = some (.request i) ∧
    t.config = some s.config ∧ ∃ policy, s.config.policy t.worker = some policy ∧
      n.automatic = automatic o policy t.worker t.request
  row : ∀ id, (t.phase = .polling id ∨ t.phase = .reading id ∨ ∃ x, t.phase = .settling id x) →
    t.row = some id ∧ (s.begun id).isSome
  answer : ∀ d, t.answer = some d → d ≠ .deny → Allowed o s t d
  quiet : t.phase ≠ .done → t.answer = none

theorem TaskInv.mono {s s' : State σ} {i : Nat} {t : Task} (h : TaskInv o s i t)
    (hfirst : ∀ id x, s.first id = some x → s'.first id = some x)
    (hbegun : ∀ id, (s.begun id).isSome → (s'.begun id).isSome)
    (hlock : s.lock = some (.request i) → s'.lock = s.lock ∧ s'.config = s.config) :
    TaskInv o s' i t where
  beginning n hn := by
    obtain ⟨hl, hconfig, hpolicy⟩ := h.beginning n hn
    obtain ⟨hlock, hsame⟩ := hlock hl
    rw [hlock, hsame]
    exact ⟨hl, hconfig, hpolicy⟩
  row id hid := ⟨(h.row id hid).1, hbegun id (h.row id hid).2⟩
  answer d hd hne := (h.answer d hd hne).imp_right fun ⟨id, hrow, hx⟩ => ⟨id, hrow, hfirst id _ hx⟩
  quiet := h.quiet

structure Inv (a : Store σ) (o : Outside) (s : State σ) : Prop where
  table : Table a s
  /-- `reconfigure` is about to return. -/
  emptied : ∀ config, s.lock = some (.reconfigure config true) →
    ∀ id r, a.approval s.store id = some r → r.pending = false
  tasks : ∀ i t, s.tasks i = some t → TaskInv o s i t

theorem tasks_update {s s' : State σ} {i : Nat} {t' : Task}
    (htasks : s'.tasks = Function.update s.tasks i (some t')) (hnew : TaskInv o s' i t')
    (hold : ∀ j t, j ≠ i → s.tasks j = some t → TaskInv o s' j t) :
    ∀ j t, s'.tasks j = some t → TaskInv o s' j t := by
  intro j t hj
  rw [htasks] at hj
  by_cases hji : j = i
  · subst hji
    rw [Function.update_self, Option.some.injEq] at hj
    exact hj ▸ hnew
  · rw [Function.update_of_ne hji] at hj
    exact hold j t hji hj

theorem TaskInv.ended {s : State σ} {i : Nat} {t : Task} (hquiet : t.answer = none)
    {reply : Option ApprovalDecision}
    (hreply : ∀ d, reply = some d → d ≠ .deny → Allowed o s t d) :
    TaskInv o s i { t with
      phase := .done
      answer := if t.waiting then some (reply.getD .deny) else t.answer } where
  beginning n hn := by cases hn
  row id hid := by
    rcases hid with hid | hid | ⟨x, hid⟩ <;> cases hid
  answer d hd hne := by
    cases hwaiting : t.waiting with
    | false => simp [hwaiting, hquiet] at hd
    | true =>
      simp only [hwaiting, if_true, Option.some.injEq] at hd
      cases hr : reply with
      | none =>
        rw [hr] at hd
        exact absurd hd.symm hne
      | some d' =>
        rw [hr] at hd
        cases hd
        exact hreply d' hr hne
  quiet hne := absurd rfl hne

theorem TaskInv.moved {s : State σ} {i : Nat} {t : Task} (h : TaskInv o s i t) {id : String}
    {phase : Phase} (hrow : t.row = some id ∧ (s.begun id).isSome)
    (hphase : ∀ k, (phase = .polling k ∨ phase = .reading k ∨ ∃ x, phase = .settling k x) → k = id)
    (hbegin : ∀ n, phase ≠ .beginning n) (hopen : t.phase ≠ .done) :
    TaskInv o s i { t with phase } where
  beginning n hn := absurd hn (hbegin n)
  row k hk := by
    rw [hphase k hk]
    exact hrow
  answer := h.answer
  quiet _ := h.quiet hopen

/-! ## One step -/

theorem Inv.retask {s : State σ} (hs : Inv a o s) {i : Nat} {t' : Task} {free : Nat}
    (hnew : TaskInv o s i t') :
    Inv a o { s with free, tasks := Function.update s.tasks i (some t') } where
  table := ⟨hs.table.pending, hs.table.granted, hs.table.opened, hs.table.first_row⟩
  emptied := hs.emptied
  tasks := by
    refine tasks_update rfl ⟨hnew.beginning, hnew.row, hnew.answer, hnew.quiet⟩ ?_
    intro j t _ hj
    exact (hs.tasks j t hj).mono (fun _ _ h => h) (fun _ h => h) fun _ => ⟨rfl, rfl⟩

theorem Inv.wrote {s : State σ} (hs : Inv a o s) {x : ApprovalSettlement} {store : σ}
    (hx : Settles a x s.store store) : Inv a o (s.wrote a x store) where
  table := hs.table.wrote hx
  emptied config hlock id r hr := by
    rcases hx id with hsame | ⟨-, r', -, -, hr', hp', -⟩
    · exact hs.emptied config hlock id r (hsame ▸ hr)
    · have hr : a.approval store id = some r := hr
      rw [hr'] at hr
      cases hr
      exact hp'
  tasks j t hj := (hs.tasks j t hj).mono (fun _ _ h => settled_by_mono h) (fun _ h => h)
    fun _ => ⟨rfl, rfl⟩

theorem Inv.relock {s : State σ} (hs : Inv a o s) {lock : Option Holder}
    (hfree : ∀ i, s.lock ≠ some (.request i))
    (hempty : ∀ config, lock = some (.reconfigure config true) →
      ∀ id r, a.approval s.store id = some r → r.pending = false) :
    Inv a o { s with lock } where
  table := ⟨hs.table.pending, hs.table.granted, hs.table.opened, hs.table.first_row⟩
  emptied := hempty
  tasks j t hj := (hs.tasks j t hj).mono (fun _ _ h => h) (fun _ h => h)
    fun h => absurd h (hfree j)

theorem inv_immediate (ha : a.Contract) {s : State σ} (hs : Inv a o s) {i : Nat} {t : Task}
    {n : NewApproval} {d : ApprovalDecision} {store : σ} (ht : s.tasks i = some t)
    (hphase : t.phase = .beginning n)
    (hbegin : a.begin_approval s.store n = .ok (.immediate d, store)) :
    Inv a o { s.ended i t (some d) with store, lock := none } := by
  obtain ⟨hd, hold, hpending⟩ := ha.immediate hbegin
  obtain ⟨hlock, hconfig, policy, hpolicy, hauto⟩ := (hs.tasks i t ht).beginning n hphase
  have hrow : ∀ id, (a.approval s.store id).isSome → (a.approval store id).isSome := by
    intro id hid
    obtain ⟨r, hr⟩ := Option.isSome_iff_exists.mp hid
    exact Option.isSome_iff_exists.mpr ⟨r, hold id r hr⟩
  constructor
  · constructor
    · exact fun id r hr hp => hs.table.pending id r (hpending id r hr hp) hp
    · intro id g r hbegun hr hp hne
      obtain ⟨r₀, hr₀⟩ := Option.isSome_iff_exists.mp (hs.table.opened id g hbegun)
      have hr : a.approval store id = some r := hr
      rw [hold id r₀ hr₀] at hr
      cases hr
      exact hs.table.granted id g r hbegun hr₀ hp hne
    · exact fun id g hbegun => hrow id (hs.table.opened id g hbegun)
    · exact fun id x hx => hrow id (hs.table.first_row id x hx)
  · intro config hl
    cases hl
  · refine tasks_update rfl (TaskInv.ended ((hs.tasks i t ht).quiet (by rw [hphase]; simp)) ?_) ?_
    · rintro d' ⟨⟩ hne
      rcases hd with hd | hd
      · exact absurd hd hne
      · exact .inl ⟨s.config, policy, hconfig, hpolicy, hauto ▸ hd⟩
    · intro j t' hj ht'
      refine (hs.tasks j t' ht').mono (fun _ _ h => h) (fun _ h => h) fun hl => ?_
      rw [hlock] at hl
      cases hl
      exact absurd rfl hj

theorem inv_opened (ha : a.Contract) {s : State σ} (hs : Inv a o s) {i : Nat} {t : Task}
    {n : NewApproval} {store : σ} (ht : s.tasks i = some t) (hphase : t.phase = .beginning n)
    (hbegin : a.begin_approval s.store n = .ok (.pending, store)) :
    Inv a o { s.moved i { t with row := some n.id } (.polling n.id) with
      store
      lock := none
      begun := Function.update s.begun n.id (some s.generation) } := by
  obtain ⟨hnone, ⟨r, hr, hpending⟩, hsame⟩ := ha.opened hbegin
  obtain ⟨hlock, -⟩ := (hs.tasks i t ht).beginning n hphase
  have hfirst : s.first n.id = none := by
    by_contra hne
    obtain ⟨x, hx⟩ := Option.ne_none_iff_exists'.mp hne
    have := hs.table.first_row n.id x hx
    rw [hnone] at this
    cases this
  have hrow : ∀ id, (a.approval s.store id).isSome → (a.approval store id).isSome := by
    intro id hid
    by_cases hn : id = n.id
    · rw [hn, hr]
      rfl
    · rw [hsame id hn]
      exact hid
  constructor
  · constructor
    · intro id r' hr' hp'
      show Function.update s.begun n.id (some s.generation) id = some s.generation ∧ _
      by_cases hn : id = n.id
      · subst hn
        exact ⟨Function.update_self _ _ _, hfirst⟩
      · rw [Function.update_of_ne hn]
        exact hs.table.pending id r' ((hsame id hn).symm.trans hr') hp'
    · intro id g r' hbegun hr' hp' hne
      by_cases hn : id = n.id
      · subst hn
        have hr' : a.approval store n.id = some r' := hr'
        rw [hr] at hr'
        cases hr'
        rw [hpending] at hp'
        cases hp'
      · have hbegun : Function.update s.begun n.id (some s.generation) id = some g := hbegun
        rw [Function.update_of_ne hn] at hbegun
        exact hs.table.granted id g r' hbegun ((hsame id hn).symm.trans hr') hp' hne
    · intro id g hbegun
      show (a.approval store id).isSome
      by_cases hn : id = n.id
      · rw [hn, hr]
        rfl
      · have hbegun : Function.update s.begun n.id (some s.generation) id = some g := hbegun
        rw [Function.update_of_ne hn] at hbegun
        exact hrow id (hs.table.opened id g hbegun)
    · exact fun id x hx => hrow id (hs.table.first_row id x hx)
  · intro config hl
    cases hl
  · have hbegun : ∀ id, (s.begun id).isSome →
        (Function.update s.begun n.id (some s.generation) id).isSome := by
      intro id hid
      by_cases hn : id = n.id
      · rw [hn, Function.update_self]
        rfl
      · rw [Function.update_of_ne hn]
        exact hid
    have hquiet : t.answer = none := (hs.tasks i t ht).quiet (by rw [hphase]; simp)
    refine tasks_update rfl ?_ ?_
    · constructor
      · intro m hm
        cases hm
      · intro id hid
        have hid : id = n.id := by
          rcases hid with hid | hid | ⟨x, hid⟩ <;> cases hid
          rfl
        subst hid
        refine ⟨rfl, ?_⟩
        show (Function.update s.begun n.id (some s.generation) n.id).isSome
        rw [Function.update_self]
        rfl
      · intro d hd
        rw [show t.answer = some d from hd] at hquiet
        cases hquiet
      · exact fun _ => hquiet
    · intro j t' hj ht'
      refine (hs.tasks j t' ht').mono (fun _ _ h => h) hbegun fun hl => ?_
      rw [hlock] at hl
      cases hl
      exact absurd rfl hj

theorem inv_ended {s : State σ} (hs : Inv a o s) {i : Nat} {t : Task} (ht : s.tasks i = some t)
    (hopen : t.phase ≠ .done) {reply : Option ApprovalDecision}
    (hreply : ∀ d, reply = some d → d ≠ .deny → Allowed o s t d) : Inv a o (s.ended i t reply) :=
  hs.retask (TaskInv.ended ((hs.tasks i t ht).quiet hopen) hreply)

theorem inv_moved {s : State σ} (hs : Inv a o s) {i : Nat} {t : Task} (ht : s.tasks i = some t)
    {id : String} (hphase : t.phase = .polling id ∨ t.phase = .reading id ∨
      ∃ x, t.phase = .settling id x) {phase : Phase}
    (hnew : phase = .polling id ∨ phase = .reading id ∨ ∃ x, phase = .settling id x) :
    Inv a o (s.moved i t phase) := by
  have hopen : t.phase ≠ .done := by
    rcases hphase with h | h | ⟨x, h⟩ <;> rw [h] <;> simp
  refine hs.retask ((hs.tasks i t ht).moved ((hs.tasks i t ht).row id hphase) ?_ ?_ hopen)
  · intro k hk
    rcases hnew with rfl | rfl | ⟨x, rfl⟩ <;> rcases hk with hk | hk | ⟨y, hk⟩ <;> cases hk <;> rfl
  · intro n hn
    rcases hnew with rfl | rfl | ⟨x, rfl⟩ <;> cases hn

theorem inv_reconfigured {s : State σ} (hs : Inv a o s) {config : Config}
    (hlock : s.lock = some (.reconfigure config true)) :
    Inv a o { s with config, generation := s.generation + 1, lock := none } where
  table :=
    { pending := fun id r hr hp => by
        have hnone := hs.emptied config hlock id r hr
        rw [hp] at hnone
        cases hnone
      granted := hs.table.granted
      opened := hs.table.opened
      first_row := hs.table.first_row }
  emptied config' hl := by cases hl
  tasks j t hj := (hs.tasks j t hj).mono (fun _ _ h => h) (fun _ h => h) fun hl => by
    rw [hlock] at hl
    cases hl

theorem inv_step (ha : a.Contract) {s u : State σ} (hs : Inv a o s) (h : Step a o s u) :
    Inv a o u := by
  cases h with
  | ask hnone hfree =>
    refine hs.retask ⟨?_, ?_, ?_, fun _ => rfl⟩
    · intro n hn
      cases hn
    · rintro id (hid | hid | ⟨x, hid⟩) <;> cases hid
    · intro d hd
      cases hd
  | full hnone hfree =>
    refine hs.retask ⟨?_, ?_, ?_, fun hne => absurd rfl hne⟩
    · intro n hn
      cases hn
    · rintro id (hid | hid | ⟨x, hid⟩) <;> cases hid
    · rintro d ⟨⟩ hne
      exact absurd rfl hne
  | @drop i t ht hquiet =>
    have h := hs.tasks i t ht
    exact hs.retask ⟨h.beginning, h.row, h.answer, h.quiet⟩
  | refused ht hphase hlock hpolicy =>
    exact inv_ended hs ht (by rw [hphase]; simp) fun d hd => by cases hd
  | @acquired i t policy id now ht hphase hlock hpolicy htimer =>
    have hquiet := (hs.tasks i t ht).quiet (by rw [hphase]; simp)
    have hlocked : Inv a o { s with lock := some (.request i) } :=
      hs.relock (by simp [hlock]) (by simp)
    refine hlocked.retask ⟨?_, ?_, ?_, fun _ => hquiet⟩
    · rintro n ⟨⟩
      exact ⟨rfl, rfl, policy, hpolicy, rfl⟩
    · rintro id' (hid | hid | ⟨x, hid⟩) <;> cases hid
    · intro d hd
      rw [show t.answer = some d from hd] at hquiet
      cases hquiet
  | immediate ht hphase hbegin => exact inv_immediate ha hs ht hphase hbegin
  | opened ht hphase hbegin => exact inv_opened ha hs ht hphase hbegin
  | @unopened i t n e ht hphase hbegin =>
    obtain ⟨hlock, -⟩ := (hs.tasks i t ht).beginning n hphase
    constructor
    · exact ⟨hs.table.pending, hs.table.granted, hs.table.opened, hs.table.first_row⟩
    · intro config hl
      cases hl
    · refine tasks_update rfl (TaskInv.ended ((hs.tasks i t ht).quiet (by rw [hphase]; simp))
        (fun d hd => by cases hd)) ?_
      intro j t' hj ht'
      refine (hs.tasks j t' ht').mono (fun _ _ h => h) (fun _ h => h) fun hl => ?_
      rw [hlock] at hl
      cases hl
      exact absurd rfl hj
  | closed ht hphase _ => exact inv_moved hs ht (.inl hphase) (.inr (.inr ⟨_, rfl⟩))
  | polled ht hphase _ => exact inv_moved hs ht (.inl hphase) (.inr (.inl rfl))
  | unread ht hphase => exact inv_ended hs ht (by rw [hphase]; simp) fun d hd => by cases hd
  | @answered i t id r ht hphase hr hp =>
    refine inv_ended hs ht (by rw [hphase]; simp) ?_
    rintro d ⟨⟩ hne
    obtain ⟨hrow, hbegun⟩ := (hs.tasks i t ht).row id (.inr (.inl hphase))
    obtain ⟨g, hg⟩ := Option.isSome_iff_exists.mp hbegun
    exact .inr ⟨id, hrow, hs.table.granted id g r hg hr hp hne⟩
  | expired ht hphase hr hp _ => exact inv_moved hs ht (.inr (.inl hphase)) (.inr (.inr ⟨_, rfl⟩))
  | waited ht hphase hr hp => exact inv_moved hs ht (.inr (.inl hphase)) (.inl rfl)
  | @settled i t id actor x now b store ht hphase hsettle =>
    have hwrote : Inv a o (s.wrote a x store) := hs.wrote (ha.settled hsettle)
    split
    · exact inv_moved hwrote ht (.inr (.inr ⟨_, hphase⟩)) (.inl rfl)
    · exact inv_ended hwrote ht (by rw [hphase]; simp) fun d hd => by cases hd
  | unsettled ht hphase _ => exact inv_ended hs ht (by rw [hphase]; simp) fun d hd => by cases hd
  | decide _ hlock => exact hs.relock (by simp [hlock]) (by simp)
  | decided hlock hsettle =>
    exact (hs.wrote (ha.settled hsettle)).relock (by simp [State.wrote, hlock]) (by simp)
  | undecided hlock _ => exact hs.relock (by simp [hlock]) (by simp)
  | reconfigure hlock => exact hs.relock (by simp [hlock]) (by simp)
  | emptied hlock hcancel =>
    have hall := ha.cancelled_pending hcancel
    have hwrote := hs.wrote (settles_closed (x := .cancel) fun k => (hall k).1)
    refine hwrote.relock (by simp [State.wrote, hlock]) ?_
    exact fun _ _ id r hr => (hall id).2 r hr
  | unemptied hlock _ => exact hs.relock (by simp [hlock]) (by simp)
  | reconfigured hlock => exact inv_reconfigured hs hlock
  | cancel hcancel => exact hs.wrote (settles_closed (ha.cancelled_worker hcancel))
  | elsewhere hclosed => exact hs.wrote (settles_closed hclosed)

theorem inv_start {s : State σ} (h : Start a s) : Inv a o s := by
  obtain ⟨hgen, hlock, -, htasks, hbegun, hfirst, hrows⟩ := h
  constructor
  · constructor
    · intro id r hr hp
      rw [hrows id r hr] at hp
      cases hp
    · intro id g r hg
      rw [hbegun id] at hg
      cases hg
    · intro id g hg
      rw [hbegun id] at hg
      cases hg
    · intro id x hx
      rw [hfirst id] at hx
      cases hx
  · intro config hl
    rw [hlock] at hl
    cases hl
  · intro i t ht
    rw [htasks i] at ht
    cases ht

theorem reach_inv (ha : a.Contract) {s : State σ} (h : Reach a o s) : Inv a o s :=
  h.invariant (fun _ hs => inv_start hs) fun _ _ _ hs hst => inv_step ha hs hst

/-! ## Settled rows -/

/-- No step changes a settled row. -/
theorem step_keeps_settled (ha : a.Contract) {s u : State σ} (h : Step a o s u) {id : String}
    {r : Approval} (hr : a.approval s.store id = some r) (hp : r.pending = false) :
    a.approval u.store id = some r := by
  cases h with
  | immediate ht hphase hbegin => exact (ha.immediate hbegin).2.1 id r hr
  | @opened i t n store ht hphase hbegin =>
    obtain ⟨hnone, -, hsame⟩ := ha.opened hbegin
    have hne : id ≠ n.id := by
      rintro rfl
      rw [hnone] at hr
      cases hr
    exact (hsame id hne).trans hr
  | @settled i t id' actor x now b store ht hphase hsettle =>
    have hkept := Settles.keeps (ha.settled hsettle) hr hp
    split <;> exact hkept
  | decided hlock hsettle => exact Settles.keeps (ha.settled hsettle) hr hp
  | emptied hlock hcancel =>
    exact Settles.keeps (settles_closed (x := .cancel) fun k => (ha.cancelled_pending hcancel k).1)
      hr hp
  | cancel hcancel =>
    exact Settles.keeps (settles_closed (x := .cancel) (ha.cancelled_worker hcancel)) hr hp
  | elsewhere hclosed => exact Settles.keeps (settles_closed (x := .cancel) hclosed) hr hp
  | _ => exact hr

/-- **What a worker may be told, and what a settled request and a reconfiguration keep.** -/
theorem broker_safe (ha : a.Contract) {s : State σ} (h : Reach a o s) :
    (∀ i t d, s.tasks i = some t → t.answer = some d → d = .deny ∨ Allowed o s t d) ∧
    (∀ u, Later a o s u → ∀ id r, a.approval s.store id = some r → r.pending = false →
      a.approval u.store id = some r) ∧
    (∀ id r, a.approval s.store id = some r → r.pending → s.begun id = some s.generation) ∧
    (∀ id g, s.begun id = some g → g < s.generation → ∀ u, Later a o s u →
      ∀ r, a.approval u.store id = some r → r.pending = false ∧ a.approval s.store id = some r) := by
  have hinv := reach_inv ha h
  have hkept : ∀ u, Later a o s u → ∀ id r, a.approval s.store id = some r → r.pending = false →
      a.approval u.store id = some r := by
    intro u hu id r hr hp
    exact h.later hu (P := fun u => a.approval u.store id = some r)
      (fun _ _ _ hst hr => step_keeps_settled ha hst hr hp) hr
  refine ⟨?_, hkept, fun id r hr hp => (hinv.table.pending id r hr hp).1, ?_⟩
  · intro i t d ht hd
    by_cases hne : d = .deny
    · exact .inl hne
    · exact .inr ((hinv.tasks i t ht).answer d hd hne)
  · intro id g hg hlt u hu r hr
    obtain ⟨r₀, hr₀⟩ := Option.isSome_iff_exists.mp (hinv.table.opened id g hg)
    -- A pending row would be of this generation.
    have hp₀ : r₀.pending = false := by
      by_contra hp
      have hbegun := (hinv.table.pending id r₀ hr₀ (by simpa using hp)).1
      rw [hg] at hbegun
      cases hbegun
      omega
    have hkeep := hkept u hu id r₀ hr₀ hp₀
    rw [hkeep] at hr
    cases hr
    exact ⟨hp₀, hr₀⟩

/-! ## A table in memory -/

abbrev Rows := List (String × Approval)

def find (rows : Rows) (id : String) : Option Approval :=
  (rows.find? fun r => r.1 = id).map Prod.snd

/-- Settles the pending rows that `p` picks. -/
def close (p : String × Approval → Bool) (after : Approval → Approval) (rows : Rows) : Rows :=
  rows.map fun r => if r.2.pending && p r then (r.1, after r.2) else r

def granted_row (d : ApprovalDecision) (r : Approval) : Approval :=
  match d with
  | .once => { r with status := "approved", scope := "once" }
  | .session => { r with status := "approved", scope := "session" }
  | .deny => { r with status := "denied" }

def settled_row (x : ApprovalSettlement) (r : Approval) : Approval :=
  match x with
  | .decide d => granted_row d r
  | .cancel => { r with status := "cancelled" }
  | .expire => { r with status := "expired" }

def inMemory : Store Rows where
  approval := find
  begin_approval rows n :=
    match n.automatic with
    | some d => .ok (.immediate d, rows)
    | none =>
      if (find rows n.id).isSome then .error "duplicate approval"
      else .ok (.pending, rows ++ [(n.id, ⟨n.worker.id, "pending", "", n.expires_at⟩)])
  settle_approval rows id x _ _ :=
    .ok ((find rows id).any Approval.pending, close (fun r => r.1 = id) (settled_row x) rows)
  cancel_worker_approvals rows worker _ :=
    .ok (close (fun r => r.2.worker = worker) (settled_row .cancel) rows)
  cancel_pending_approvals rows _ := .ok (close (fun _ => true) (settled_row .cancel) rows)

theorem settled_row_closed (x : ApprovalSettlement) (r : Approval) :
    (settled_row x r).pending = false ∧
      ((settled_row x r).verdict ≠ .deny → x = .decide (settled_row x r).verdict) := by
  cases x with
  | decide d => cases d <;> simp [settled_row, granted_row, Approval.pending, Approval.verdict]
  | cancel => simp [settled_row, Approval.pending, Approval.verdict]
  | expire => simp [settled_row, Approval.pending, Approval.verdict]

theorem find_close (p : String × Approval → Bool) (after : Approval → Approval) (rows : Rows)
    (id : String) : find (close p after rows) id =
      (rows.find? fun r => r.1 = id).map fun r =>
        if r.2.pending && p r then after r.2 else r.2 := by
  have hfst : ((fun r : String × Approval => decide (r.1 = id)) ∘
      fun r => if r.2.pending && p r then (r.1, after r.2) else r) =
        fun r => decide (r.1 = id) := by
    funext r
    simp only [Function.comp]
    split <;> rfl
  rw [find, close, List.find?_map, hfst, Option.map_map]
  congr 1
  funext r
  simp only [Function.comp]
  split <;> rfl

theorem close_settles (p : String × Approval → Bool) (x : ApprovalSettlement) (rows : Rows) :
    Settles inMemory x rows (close p (settled_row x) rows) := by
  intro k
  simp only [inMemory, find_close]
  unfold find
  cases rows.find? fun r => r.1 = k with
  | none => exact .inl rfl
  | some r =>
    by_cases hp : (r.2.pending && p r) = true
    · obtain ⟨hpending, hverdict⟩ := settled_row_closed x r.2
      refine .inr ⟨r.2, settled_row x r.2, rfl, ?_, ?_, hpending, hverdict⟩
      · simp only [Bool.and_eq_true] at hp
        exact hp.1
      · rw [Option.map_some, if_pos hp]
    · exact .inl (by rw [Option.map_some, if_neg hp, Option.map_some])

theorem close_closed (p : String × Approval → Bool) (rows : Rows) (k : String) :
    find (close p (settled_row .cancel) rows) k = find rows k ∨
      Closed (find rows k) (find (close p (settled_row .cancel) rows) k) := by
  rcases close_settles p .cancel rows k with hsame | ⟨r, r', hr, hp, hr', hp', hverdict⟩
  · exact .inl hsame
  · refine .inr ⟨r, r', hr, hp, hr', hp', ?_⟩
    by_contra hne
    exact absurd (hverdict hne) (by simp)

theorem inMemory_contract : inMemory.Contract where
  immediate {s n d s'} h := by
    simp only [inMemory] at h ⊢
    split at h
    · rename_i d' hauto
      cases h
      exact ⟨.inr hauto, fun _ _ h => h, fun _ _ h _ => h⟩
    · split at h <;> cases h
  opened {s n s'} h := by
    simp only [inMemory] at h ⊢
    split at h
    · cases h
    · split at h
      · cases h
      · rename_i hfree
        cases h
        have hnone : find s n.id = none := by simpa using hfree
        have hold : s.find? (fun r => decide (r.1 = n.id)) = none := by
          simpa [find] using hnone
        refine ⟨hnone, ⟨⟨n.worker.id, "pending", "", n.expires_at⟩, ?_, rfl⟩, ?_⟩
        · simp [find, List.find?_append, hold]
        · intro id hne
          simp [find, List.find?_append, Ne.symm hne]
  settled {s id x actor now b s'} h := by
    cases h
    exact close_settles _ x s
  cancelled_worker {s worker now s'} h k := by
    cases h
    exact close_closed _ s k
  cancelled_pending {s now s'} h k := by
    cases h
    refine ⟨close_closed _ s k, ?_⟩
    intro r hr
    simp only [inMemory, find_close] at hr
    rw [Option.map_eq_some_iff] at hr
    obtain ⟨r₀, -, rfl⟩ := hr
    by_cases hp : r₀.2.pending = true
    · rw [if_pos (by simp [hp])]
      exact (settled_row_closed .cancel r₀.2).1
    · rw [if_neg (by simp [hp])]
      simpa using hp

section Example

def policy : Policy := ⟨"on-request", "ask", 1800, [], []⟩

def host : Config := ⟨"UOWNER", [⟨"gpu", [⟨"work", policy⟩]⟩]⟩

def asking : Outside := ⟨fun _ _ => none, fun _ => true⟩

def idle : State Rows where
  store := []
  config := host
  generation := 0
  lock := none
  free := CAPACITY
  tasks _ := none
  begun _ := none
  first _ := none

def worker : WorkerRecord := ⟨"w1", "gpu", "work", "codex"⟩

def make : ApprovalRequest := ⟨"command", "Build", "make"⟩

/-- The task of a request in this phase, once it opened this row. -/
def make_task (phase : Phase) (row : Option String) : Task :=
  ⟨worker, ⟨"j1", 1⟩, make, phase, true, none, some host, row⟩

def asked_task : Task := ⟨worker, ⟨"j1", 1⟩, make, .spawned, true, none, none, none⟩

def asked : State Rows :=
  { idle with free := 127, tasks := Function.update idle.tasks 0 (some asked_task) }

def begun : NewApproval := new_approval asking policy "approval-1" worker ⟨"j1", 1⟩ make 20

def locked : State Rows :=
  { asked.moved 0 (make_task .spawned none) (.beginning begun) with lock := some (.request 0) }

def pending_rows : Rows := [("approval-1", ⟨"w1", "pending", "", 1820⟩)]

def opened : State Rows :=
  { locked.moved 0 (make_task (.beginning begun) (some "approval-1")) (.polling "approval-1") with
    store := pending_rows
    lock := none
    begun := Function.update locked.begun "approval-1" (some 0) }

def deciding : State Rows := { opened with lock := some (.decide "approval-1" .once) }

def granted_rows : Rows := [("approval-1", ⟨"w1", "approved", "once", 1820⟩)]

def decided : State Rows :=
  { deciding.wrote inMemory (.decide .once) granted_rows with lock := none }

def polled : State Rows :=
  decided.moved 0 (make_task (.polling "approval-1") (some "approval-1")) (.reading "approval-1")

/-- The owner's grant of a pending request reached its worker. -/
def granted : State Rows :=
  polled.ended 0 (make_task (.reading "approval-1") (some "approval-1")) (some .once)

theorem granted_reach : Reach inMemory asking granted := by
  have hidle : Reach inMemory asking idle :=
    .start ⟨rfl, rfl, rfl, fun _ => rfl, fun _ => rfl, fun _ => rfl, fun _ _ h => by cases h⟩
  have hask : Step inMemory asking idle asked := .ask rfl (by decide)
  have hlock : Step inMemory asking asked locked :=
    @Step.acquired _ inMemory asking asked 0 asked_task policy "approval-1" 20 rfl rfl rfl
      (by decide) rfl
  have hbegin : inMemory.begin_approval [] begun = .ok (.pending, pending_rows) := by
    decide +kernel
  have hopen : Step inMemory asking locked opened :=
    @Step.opened _ inMemory asking locked 0 (make_task (.beginning begun) none) begun pending_rows
      rfl rfl hbegin
  have hdecide : Step inMemory asking opened deciding := .decide rfl rfl
  have hsettle : inMemory.settle_approval pending_rows "approval-1" (.decide .once) "UOWNER" 30 =
      .ok (true, granted_rows) := by decide +kernel
  have hdecided : Step inMemory asking deciding decided := .decided rfl hsettle
  have hpoll : Step inMemory asking decided polled := .polled rfl rfl rfl
  have hanswer : Step inMemory asking polled granted :=
    @Step.answered _ inMemory asking polled 0
      (make_task (.reading "approval-1") (some "approval-1")) "approval-1"
      ⟨"w1", "approved", "once", 1820⟩ rfl rfl (by decide +kernel) (by decide)
  exact ((((((hidle.step hask).step hlock).step hopen).step hdecide).step hdecided).step
    hpoll).step hanswer

theorem broker_safe_granted :
    Allowed asking granted
      { make_task .done (some "approval-1") with answer := some .once } .once ∧
    ∀ u, Later inMemory asking granted u →
      find u.store "approval-1" = some ⟨"w1", "approved", "once", 1820⟩ := by
  obtain ⟨hanswers, hsettled, -⟩ := broker_safe inMemory_contract granted_reach
  refine ⟨(hanswers 0 _ .once rfl rfl).resolve_left (by decide), fun u hu => ?_⟩
  exact hsettled u hu "approval-1" _ (by decide +kernel) (by decide)

end Example

end Fridica.Approvals
