import Fridica.Threads.Dispatcher.Spec

/-!
# What a pass over the outbox does

Every claim is finished, once. A pass makes no more claims than its limit, and no post reaches the
adapter with a text that breaks a rule.
-/

namespace Fridica.Threads.Dispatcher

open Fridica.Effect

/-! ## The log -/

section Log

def Event.claimed? : Event → Option ClaimedPost
  | .claimed post => some post
  | _ => none

def Event.handed? : Event → Option ClaimedPost
  | .handed post => some post
  | _ => none

def Event.finished? : Event → Option (ClaimedPost × PostOutcome)
  | .finished post outcome => some (post, outcome)
  | _ => none

def claims (log : List Event) : List ClaimedPost := log.filterMap Event.claimed?

def handed (log : List Event) : List ClaimedPost := log.filterMap Event.handed?

def finishes (log : List Event) : List (ClaimedPost × PostOutcome) :=
  log.filterMap Event.finished?

end Log

variable {σ Rules : Type} {out : Outside σ Rules} {owner : String} {w : World σ} {rules : Rules}
  {s : Counts} {limit : Nat} {log : List Event}

@[simp] theorem wp_call {α : Type} {f : σ → α × σ} {events : α → List Event}
    {Q : α → World σ → Prop} {E : Failure → World σ → Prop} :
    wp (call f events) Q E w ↔
      Q (f w.outside).1 ⟨(f w.outside).2, w.log ++ events (f w.outside).1⟩ := Iff.rfl

/-- No text of the post breaks a rule. -/
def Clean (out : Outside σ Rules) (rules : Rules) (post : ClaimedPost) : Prop :=
  ∀ text ∈ texts post, out.scan text rules = []

theorem check_eq_nil {post : ClaimedPost} : check out post rules = [] ↔ Clean out rules post := by
  unfold check Clean
  rw [List.destutter_eq_nil, ← List.length_eq_zero_iff, List.length_mergeSort,
    List.length_eq_zero_iff, List.flatMap_eq_nil_iff]

/-- Claims are finished in turn, and what was handed over was clean. -/
structure Sound (out : Outside σ Rules) (rules : Rules) (limit : Nat) (log : List Event) : Prop where
  finished : claims log = (finishes log).map (·.1)
  clean : ∀ post ∈ handed log, Clean out rules post
  few : (claims log).length ≤ limit

/-- What is counted during a pass. -/
structure Kept (out : Outside σ Rules) (rules : Rules) (s : Counts) (log : List Event) : Prop where
  finished : claims log = (finishes log).map (·.1)
  clean : ∀ post ∈ handed log, Clean out rules post
  attempted : (claims log).length = s.attempted
  sent : (finishes log).countP (·.2 = .sent) = s.sent
  fresh : ∀ f ∈ finishes log, f.2 ≠ .stale

theorem Kept.sound (h : Kept out rules s log) (hs : s.attempted ≤ limit) :
    Sound out rules limit log := ⟨h.finished, h.clean, h.attempted.trans_le hs⟩

/-- A claim with its finish, and what the adapter had of it in between. -/
def attempt_events (post : ClaimedPost) (sent : Bool) (outcome : PostOutcome) : List Event :=
  .claimed post :: ((if sent then [.handed post] else []) ++ [.finished post outcome])

theorem claims_attempt (post : ClaimedPost) (sent : Bool) (outcome : PostOutcome) :
    claims (log ++ attempt_events post sent outcome) = claims log ++ [post] := by
  unfold claims attempt_events
  rw [List.filterMap_append]
  cases sent <;> rfl

theorem finishes_attempt (post : ClaimedPost) (sent : Bool) (outcome : PostOutcome) :
    finishes (log ++ attempt_events post sent outcome) = finishes log ++ [(post, outcome)] := by
  unfold finishes attempt_events
  rw [List.filterMap_append]
  cases sent <;> rfl

theorem handed_attempt (post : ClaimedPost) (sent : Bool) (outcome : PostOutcome) :
    handed (log ++ attempt_events post sent outcome) =
      handed log ++ if sent then [post] else [] := by
  unfold handed attempt_events
  rw [List.filterMap_append]
  cases sent <;> rfl

section Attempt

variable {post : ClaimedPost} {sent : Bool} {outcome : PostOutcome}

theorem finished_attempt (h : Kept out rules s log) :
    claims (log ++ attempt_events post sent outcome) =
      (finishes (log ++ attempt_events post sent outcome)).map (·.1) := by
  rw [claims_attempt, finishes_attempt, h.finished, List.map_append]
  rfl

theorem clean_attempt (h : Kept out rules s log) (hclean : sent = true → Clean out rules post) :
    ∀ p ∈ handed (log ++ attempt_events post sent outcome), Clean out rules p := by
  intro p hp
  rw [handed_attempt, List.mem_append] at hp
  rcases hp with hp | hp
  · exact h.clean p hp
  · split at hp
    next hsent =>
      rw [List.mem_singleton.mp hp]
      exact hclean hsent
    next => cases hp

/-- The counts after one more attempt. -/
def counted (s : Counts) (outcome : PostOutcome) : Counts :=
  if outcome = .sent then ⟨s.sent + 1, s.attempted + 1, true⟩
  else { s with attempted := s.attempted + 1 }

theorem counted_attempted : (counted s outcome).attempted = s.attempted + 1 := by
  unfold counted
  split <;> rfl

theorem Kept.attempt (h : Kept out rules s log) (hclean : sent = true → Clean out rules post)
    (hfresh : outcome ≠ .stale) :
    Kept out rules (counted s outcome) (log ++ attempt_events post sent outcome) := by
  refine ⟨finished_attempt h, clean_attempt h hclean, ?_, ?_, ?_⟩
  · rw [claims_attempt, List.length_append, h.attempted, counted_attempted]
    rfl
  · rw [finishes_attempt, List.countP_append, h.sent]
    unfold counted
    by_cases hsent : outcome = .sent
    · simp [hsent]
    · simp [hsent]
  · rw [finishes_attempt]
    intro f hf
    rcases List.mem_append.mp hf with hf | hf
    · exact h.fresh f hf
    · rw [List.mem_singleton.mp hf]
      exact hfresh

theorem Kept.stale (h : Kept out rules s log) (hclean : sent = true → Clean out rules post)
    (hs : s.attempted < limit) :
    Sound out rules limit (log ++ attempt_events post sent outcome) := by
  refine ⟨finished_attempt h, clean_attempt h hclean, ?_⟩
  rw [claims_attempt, List.length_append, h.attempted]
  exact hs

end Attempt

/-! ## A pass -/

/-- A pass ends early when an outcome is stale. -/
def Stopped (out : Outside σ Rules) (rules : Rules) (limit : Nat) (e : Failure) (w : World σ) :
    Prop :=
  e = .stale ∧ Sound out rules limit w.log

theorem deliver_wp (post : ClaimedPost) {E : Failure → World σ → Prop}
    {Q : DeliveryOutcome → World σ → Prop}
    (h : ∀ result t (sent : Bool), (sent = true → Clean out rules post) →
      Q result ⟨t, w.log ++ if sent then [.handed post] else []⟩) :
    wp (deliver out rules post) Q E w := by
  unfold deliver send
  dsimp only
  rw [wp_ite]
  refine ⟨fun _ => ?_, fun hclean => ?_⟩
  · simpa using h (.rejected _) w.outside false
  · rw [wp_bind, wp_call, wp_pure]
    exact h _ _ true fun _ => check_eq_nil.mp (by simpa using hclean)

theorem attempt_wp (h : Kept out rules s w.log) (hs : s.attempted < limit) (id : Nat) :
    wp (attempt out owner rules s id) (fun s' w' => Kept out rules s' w'.log ∧
      s'.attempted ≤ s.attempted + 1 ∧ s.attempted ≤ s'.attempted ∧
      (s'.progressed → s.progressed ∨ s.attempted < s'.attempted)) (Stopped out rules limit) w := by
  unfold attempt now
  simp only [wp_bind, wp_call]
  split
  next hnone =>
    rw [wp_pure]
    simp only [hnone, Option.toList_none, List.map_nil, List.append_nil]
    exact ⟨h, Nat.le_succ _, Nat.le_refl _, .inl⟩
  next post hpost =>
    rw [wp_bind]
    refine deliver_wp post fun result t sent hclean => ?_
    simp only [wp_bind, wp_call, wp_ite, wp_throw, wp_pure, hpost]
    generalize (out.finish_delivery post result owner (out.now t).1 (out.now t).2).1 = outcome
    have hlog : w.log ++ [] ++ List.map Event.claimed (some post).toList ++
        (if sent = true then [Event.handed post] else []) ++ [] ++ [.finished post outcome] =
          w.log ++ attempt_events post sent outcome := by
      unfold attempt_events
      simp
    rw [hlog]
    refine ⟨fun hstale => ⟨rfl, h.stale hclean hs⟩,
      fun hfresh => ⟨fun hsent => ?_, fun hother => ?_⟩⟩
    · have hkept := h.attempt hclean hfresh
      rw [counted, if_pos hsent] at hkept
      exact ⟨hkept, Nat.le_refl _, Nat.le_succ _, fun _ => .inr (Nat.lt_succ_self _)⟩
    · have hkept := h.attempt hclean hfresh
      rw [counted, if_neg hother] at hkept
      exact ⟨hkept, Nat.le_refl _, Nat.le_succ _, .inl⟩

theorem batch_wp (h : Kept out rules s w.log) (batch : List Nat)
    (hroom : s.attempted + batch.length ≤ limit) (hstart : s.progressed = false) :
    wp (batch.foldlM (attempt out owner rules) s) (fun s' w' => Kept out rules s' w'.log ∧
      s'.attempted ≤ limit ∧ (s'.progressed → s.attempted < s'.attempted))
      (Stopped out rules limit) w := by
  let I (ids : List Nat) (s' : Counts) (w' : World σ) : Prop := Kept out rules s' w'.log ∧
    s'.attempted + ids.length ≤ limit ∧ s.attempted ≤ s'.attempted ∧
    (s'.progressed → s.attempted < s'.attempted)
  have hloop := wp_foldlM (f := attempt out owner rules) (I := I) (E := Stopped out rules limit)
    (fun post ids s' w' hI => ?_) batch (s := w)
    ⟨h, hroom, Nat.le_refl _, fun hp => by rw [hstart] at hp; cases hp⟩
  · exact wp_mono hloop (fun s' w' hI => ⟨hI.1, hI.2.1, hI.2.2.2⟩) fun _ _ => id
  · obtain ⟨hkept, hroom', hle, hprogress⟩ := hI
    rw [List.length_cons] at hroom'
    have hless : s'.attempted < limit := by omega
    refine wp_mono (attempt_wp hkept hless post) (fun s'' w'' hstep => ?_) fun _ _ => id
    obtain ⟨hkept', hmost, hleast, hmore⟩ := hstep
    refine ⟨hkept', by omega, by omega, fun hp => ?_⟩
    rcases hmore hp with hbefore | hnow
    · exact (hprogress hbefore).trans_le hleast
    · omega

/-- With a round for every claim that may be made, the batches end. -/
theorem batches_wp (hready : ∀ t n o, (out.ready_posts t n o).1.length ≤ n)
    {fuel sent attempted : Nat} (h : ∃ progressed, Kept out rules ⟨sent, attempted, progressed⟩ w.log)
    (hle : attempted ≤ limit) (hfuel : limit - attempted < fuel) :
    wp (batches out owner rules limit fuel sent attempted)
      (fun n w' => Sound out rules limit w'.log ∧
        (finishes w'.log).countP (·.2 = .sent) = n ∧ ∀ f ∈ finishes w'.log, f.2 ≠ .stale)
      (Stopped out rules limit) w := by
  induction fuel generalizing sent attempted w with
  | zero => omega
  | succ fuel ih =>
    obtain ⟨progressed, h⟩ := h
    have hdone : Sound out rules limit w.log ∧
        (finishes w.log).countP (·.2 = .sent) = sent ∧ ∀ f ∈ finishes w.log, f.2 ≠ .stale :=
      ⟨h.sound hle, h.sent, h.fresh⟩
    unfold batches now
    rw [wp_ite]
    refine ⟨fun hless => ?_, fun _ => hdone⟩
    simp only [wp_bind, wp_call, List.append_nil]
    have hbatch := hready (out.now w.outside).1 (min (limit - attempted) 20) (out.now w.outside).2
    generalize out.ready_posts (out.now w.outside).1 (min (limit - attempted) 20)
      (out.now w.outside).2 = ready at hbatch
    rw [wp_ite]
    refine ⟨fun _ => hdone, fun _ => ?_⟩
    rw [wp_bind]
    have hstart : Kept out rules ⟨sent, attempted, false⟩ w.log :=
      ⟨h.finished, h.clean, h.attempted, h.sent, h.fresh⟩
    have hroom : attempted + ready.1.length ≤ limit := by omega
    refine wp_mono (batch_wp (w := ⟨ready.2, w.log⟩) hstart _ hroom rfl)
      (fun s' w' hs' => ?_) fun _ _ => id
    obtain ⟨hkept, hlimit, hprogress⟩ := hs'
    rw [wp_ite]
    refine ⟨fun hp => ?_, fun _ => ?_⟩
    · have hmore : attempted < s'.attempted := hprogress hp
      exact ih ⟨_, hkept⟩ hlimit (by omega)
    · exact ⟨hkept.sound hlimit, hkept.sent, hkept.fresh⟩

/-- The rules in force: none without a list, else those that are read when the pass begins. -/
def in_force (out : Outside σ Rules) (deny : Option String) (o : σ) : Option Rules :=
  match deny with
  | none => some out.no_rules
  | some path => (out.deny_list path o).1

theorem rules_wp {deny : Option String} {Q : Option Rules → World σ → Prop}
    {E : Failure → World σ → Prop} (h : ∀ t, Q (in_force out deny w.outside) ⟨t, w.log⟩) :
    wp (Dispatcher.rules out deny) Q E w := by
  unfold Dispatcher.rules
  cases deny with
  | none => exact h w.outside
  | some path =>
    rw [wp_call, List.append_nil]
    exact h _

theorem kept_nil (out : Outside σ Rules) (rules : Rules) : Kept out rules ⟨0, 0, false⟩ [] :=
  ⟨rfl, List.forall_mem_nil _, rfl, rfl, List.forall_mem_nil _⟩

/-- How a pass ends, and what it did. -/
structure Drained (out : Outside σ Rules) (limit : Nat) (force : Option Rules)
    (result : Except Failure Nat) (log : List Event) : Prop where
  few : (claims log).length ≤ limit
  finished : claims log = (finishes log).map (·.1)
  clean : ∀ post ∈ handed log, ∃ rules, force = some rules ∧ Clean out rules post
  counted : ∀ n, result = .ok n → (finishes log).countP (·.2 = .sent) = n ∧
    ∀ f ∈ finishes log, f.2 ≠ .stale

theorem drain_wp (owner : String) (hready : ∀ t n o, (out.ready_posts t n o).1.length ≤ n)
    {fuel : Nat} (hfuel : limit < fuel) (deny : Option String) (o : σ) :
    wp (drain_checked out owner fuel false limit deny)
      (fun n w => Drained out limit (in_force out deny o) (.ok n) w.log ∧
        (in_force out deny o = none → n = 0 ∧ w.log = []))
      (fun e w => e = .stale ∧ Drained out limit (in_force out deny o) (.error e) w.log ∧
        in_force out deny o ≠ none) ⟨o, []⟩ := by
  unfold drain_checked
  rw [wp_ite]
  refine ⟨fun h => (by cases h), fun _ => ?_⟩
  rw [wp_bind]
  refine rules_wp fun t => ?_
  dsimp only
  cases hforce : in_force out deny o with
  | none =>
    refine ⟨⟨Nat.zero_le _, rfl, List.forall_mem_nil _, fun n hn => ?_⟩, fun _ => ⟨rfl, rfl⟩⟩
    rw [← Except.ok.inj hn]
    exact ⟨rfl, List.forall_mem_nil _⟩
  | some rules =>
    refine wp_mono (batches_wp hready ⟨false, kept_nil out rules⟩ (Nat.zero_le _) (by omega))
      (fun n w h => ?_) (fun e w h => ?_)
    · obtain ⟨hsound, hcount, hfresh⟩ := h
      refine ⟨⟨hsound.few, hsound.finished, fun post hpost => ⟨rules, rfl, hsound.clean post hpost⟩,
        fun m hm => ?_⟩, fun h => by cases h⟩
      rw [← Except.ok.inj hm]
      exact ⟨hcount, hfresh⟩
    · obtain ⟨rfl, hsound⟩ := h
      exact ⟨rfl, ⟨hsound.few, hsound.finished,
        fun post hpost => ⟨rules, rfl, hsound.clean post hpost⟩, fun m hm => by cases hm⟩,
        fun h => by cases h⟩

/-- A pass ends, with a count or with a stale outcome. It makes no more claims than its limit and
finishes each once; what it hands to the adapter is clean by the rules in force; it counts what was
sent. Without a list that can be read, and when it only observes, it claims and sends nothing. -/
theorem drain_spec (out : Outside σ Rules) (owner : String)
    (hready : ∀ t n o, (out.ready_posts t n o).1.length ≤ n) (limit : Nat) (deny : Option String)
    (o : σ) :
    (∃ n, ∀ fuel > n,
      let ended := outcome (drain_checked out owner fuel false limit deny) ⟨o, []⟩
      ended.1 ≠ .error .unfinished ∧
        Drained out limit (in_force out deny o) ended.1 ended.2.log ∧
        (in_force out deny o = none → ended.1 = .ok 0 ∧ ended.2.log = [])) ∧
    ∀ fuel, outcome (drain_checked out owner fuel true limit deny) ⟨o, []⟩ = (.ok 0, ⟨o, []⟩) := by
  refine ⟨⟨limit, fun fuel hfuel => ?_⟩, fun fuel => rfl⟩
  dsimp only
  rcases wp_cases (drain_wp owner hready hfuel deny o) with ⟨n, t, heq, h⟩ | ⟨e, t, heq, h⟩
  · rw [heq]
    refine ⟨fun h => (by cases h), h.1, fun hnone => ?_⟩
    obtain ⟨rfl, hlog⟩ := h.2 hnone
    exact ⟨rfl, hlog⟩
  · rw [heq]
    obtain ⟨rfl, hdrained, hforce⟩ := h
    exact ⟨fun h => (by cases h), hdrained, fun hnone => absurd hnone hforce⟩

/-- An outbox with a deny list. What is not refused was taken over by another attempt. -/
def outbox : Outside (List ClaimedPost) (List String) where
  now o := (0, o)
  deny_list _ o := (some ["secret"], o)
  no_rules := []
  scan text rules := rules.filter (· = text)
  note_unless_since _ _ _ _ o := o
  ready_posts _ n o := ((o.map (·.id)).take n, o)
  claim_post _ id o := (o.find? (·.id = id), o)
  send post o := (some (.sent (toString post.id)), o)
  finish_delivery post result _ _ o := match result with
    | .rejected _ => (.other, o.filter (·.id ≠ post.id))
    | _ => (.stale, o)

def denied : ClaimedPost := ⟨1, "secret", "", none⟩

def taken_over : ClaimedPost := ⟨2, "done", "", none⟩

def pass (fuel : Nat) : Except Failure Nat × World (List ClaimedPost) :=
  outcome (drain_checked outbox "U1" fuel false 5 (some "deny.txt")) ⟨[denied, taken_over], []⟩

theorem drain_outbox :
    (pass 6).1 = .error .stale ∧ claims (pass 6).2.log = [denied, taken_over] ∧
      handed (pass 6).2.log = [taken_over] ∧
    ∃ n, ∀ fuel > n, (pass fuel).1 ≠ .error .unfinished ∧
      Drained outbox 5 (some ["secret"]) (pass fuel).1 (pass fuel).2.log := by
  obtain ⟨n, h⟩ := (drain_spec outbox "U1" (fun _ n _ => List.length_take_le n _) 5
    (some "deny.txt") [denied, taken_over]).1
  exact ⟨by decide +kernel, by decide +kernel, by decide +kernel, n,
    fun fuel hfuel => ⟨(h fuel hfuel).1, (h fuel hfuel).2.1⟩⟩

end Fridica.Threads.Dispatcher
