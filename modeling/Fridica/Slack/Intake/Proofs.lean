import Fridica.Lib.Checked
import Fridica.Lib.Infix
import Fridica.Slack.Intake.Ledger

/-!
# Every message once

Over every run of envelopes, catch-ups and messages of the host, in any order and with any failures
between them.
-/

namespace Fridica.Slack.Intake

open Fridica.Effect
open Fridica.Json (Value)

variable {σ : Type}

/-! ## What is taken for granted -/

/-- The step leaves the ledger alone. -/
def Quiet {α : Type} (view : σ → Ledger) (m : Act σ String α) : Prop :=
  ∀ s, wp m (fun _ t => view t = view s) (fun _ _ => True) s

/-- The storage contract. What an archive holds of a thread counts as there: a message brings its
thread back before it is kept. -/
structure Lawful (store : Store σ) (view : σ → Ledger) : Prop where
  revive_or_note : ∀ session now, Quiet view (store.revive_or_note session now)
  thread_waiting : ∀ session, Quiet view (store.thread_waiting session)
  record : ∀ kind now entry, Quiet view (store.record kind now entry)
  note : ∀ kind event_id now, Quiet view (store.note kind event_id now)
  open_thread : ∀ session workspace channel root created,
    Quiet view (store.open_thread session workspace channel root created)
  record_links : ∀ workspace channel session text created,
    Quiet view (store.record_links workspace channel session text created)
  finish_pass : ∀ now, Quiet view (store.finish_pass now)
  /-- One row per event ID and per message. -/
  keep_message : ∀ k s, wp (store.keep_message k)
    (fun inserted t => (inserted = true → (view s).Fresh k ∧
        view t = { view s with kept := (view s).kept ++ [k] }) ∧
      (inserted = false → ¬ (view s).Fresh k ∧ view t = view s))
    (fun _ _ => True) s
  queue_message : ∀ session event_id now s, wp (store.queue_message session event_id now)
    (fun _ t => view t = { view s with queued := (view s).queued ++ [(session, event_id)] })
    (fun _ _ => True) s
  open_mention : ∀ m s, (∀ r ∈ (view s).mentions, r.dedup_key ≠ m.dedup_key) →
    wp (store.open_mention m)
      (fun _ t => view t = { view s with mentions := (view s).mentions ++ [m] })
      (fun _ _ => True) s

/-- A message is normalized with the workspace and the channel of its payload. -/
def Outside.Faithful (o : Outside) : Prop :=
  ∀ payload source m, o.normalize payload source = some m →
    (payload.field "team_id").as_str = some m.1.workspace ∧
      ((payload.field "event").field "channel").as_str = some m.1.channel

variable {o : Outside} {store : Store σ} {view : σ → Ledger} {config : Config} {s : σ}

/-! ## Texts that name a message -/

theorem slack_id_plain {text : String} {first : List Char} (h : slack_id text first = true)
    (hfirst : ':' ∉ first) : ':' ∉ text.toList := by
  unfold slack_id at h
  split at h
  · exact absurd h (by simp)
  next c rest heq =>
    simp only [Bool.and_eq_true, decide_eq_true_eq, List.all_eq_true] at h
    rw [heq, List.mem_cons, not_or]
    refine ⟨fun hc => hfirst (hc ▸ h.1.1), fun hc => ?_⟩
    exact absurd (h.2 ':' hc) (by decide)

theorem colon_inj {a b c d : String} (ha : ':' ∉ a.toList) (hc : ':' ∉ c.toList)
    (h : a ++ (":" ++ b) = c ++ (":" ++ d)) : a = c ∧ b = d := by
  have hl := congrArg String.toList h
  simp only [String.toList_append] at hl
  obtain ⟨h₁, h₂⟩ := Infix.cut ha hc hl
  exact ⟨String.toList_injective h₁, String.toList_injective h₂⟩

theorem dedup_key_inj {workspace channel ts workspace' channel' ts' : String}
    (hw : ':' ∉ workspace.toList) (hw' : ':' ∉ workspace'.toList)
    (hc : ':' ∉ channel.toList) (hc' : ':' ∉ channel'.toList)
    (h : dedup_key workspace channel ts = dedup_key workspace' channel' ts') :
    (workspace, channel, ts) = (workspace', channel', ts') := by
  unfold dedup_key at h
  simp only [String.append_assoc, String.append_right_inj] at h
  obtain ⟨hworkspace, h⟩ := colon_inj hw hw' h
  obtain ⟨hchannel, hts⟩ := colon_inj hc hc' h
  rw [hworkspace, hchannel, hts]

theorem Config.workspace_plain (config : Config) : ':' ∉ config.workspace.toList :=
  slack_id_plain config.workspace_id (by decide)

theorem Config.channel_plain (config : Config) {channel : String}
    (h : channel ∈ config.channels) : ':' ∉ channel.toList :=
  slack_id_plain (config.channel_ids channel h) (by decide)

namespace Ledger

theorem Exact.mention_fresh {L : Ledger} {k : ArrivedMessage} (h : Exact config L)
    (hfresh : L.Fresh k) (hscope : k.workspace = config.workspace ∧ k.channel ∈ config.channels) :
    ∀ r ∈ L.mentions, r.dedup_key ≠ k.dedup_key := by
  intro r hr heq
  have hdue : due r ∈ L.mentions.map due := List.mem_map_of_mem hr
  rw [h.mentions] at hdue
  obtain ⟨k', hk', heq'⟩ := List.mem_map.mp hdue
  have hk' := List.mem_of_mem_filter hk'
  have hkey : k'.dedup_key = k.dedup_key := (congrArg Due.dedup_key heq').trans heq
  obtain ⟨hw, hc⟩ := h.in_scope k' hk'
  refine (hfresh k' hk').2 (dedup_key_inj ?_ ?_ ?_ ?_ hkey)
  · exact hw ▸ config.workspace_plain
  · exact hscope.1 ▸ config.workspace_plain
  · exact config.channel_plain hc
  · exact config.channel_plain hscope.2

end Ledger

/-! ## The unit of work -/

theorem outcome_mk {α : Type} {f : σ → Except String α × σ} :
    outcome (ExceptT.mk f : Act σ String α) s = f s := rfl

theorem wp_transact {α : Type} {m : Act σ String α} {Q : α → σ → Prop} {E : String → σ → Prop} :
    wp (transact m) Q E s ↔ wp m Q (fun e _ => E e s) s := by
  unfold wp transact
  rw [outcome_mk]
  rcases outcome m s with ⟨_ | _, t⟩ <;> rfl

theorem Quiet.bind {α β : Type} {m : Act σ String α} (h : Quiet view m) {f : α → Act σ String β}
    {Q : β → σ → Prop} (hf : ∀ a t, view t = view s → wp (f a) Q (fun _ _ => True) t) :
    wp (m >>= f) Q (fun _ _ => True) s := by
  rw [wp_bind]
  exact wp_mono (h s) (fun a t ht => hf a t ht) (fun _ _ => id)

variable {msg : Message} {now grace : ℚ} {obligation : String} {work : Bool} {created : ℚ}
  {before : Option ℚ}

theorem worth_ok (hl : Lawful store view) (owner : String) :
    wp (worth o store msg owner now before)
      (fun r t => view t = view s ∧ (contains_mention owner msg.text = true → r.1 = true))
      (fun _ _ => True) s := by
  unfold worth
  cases before with
  | none => exact ⟨rfl, fun _ => rfl⟩
  | some cutoff =>
    dsimp only
    cases o.timestamp msg.ts with
    | none => trivial
    | some timestamp =>
      refine (hl.thread_waiting _).bind fun waiting t ht => ?_
      refine ⟨ht, fun hm => ?_⟩
      simp [hm]

theorem take_in_ok (hl : Lawful store view) {L : Ledger} {k : ArrivedMessage}
    (hk : k = arrived config.owner msg now)
    (hs : view s = { L with kept := L.kept ++ [k] })
    (hfresh : ∀ r ∈ L.mentions, r.dedup_key ≠ k.dedup_key) :
    wp (take_in store msg config.owner now grace obligation work created)
      (fun _ t => view t = L.take config.owner k (mention msg obligation now grace) work)
      (fun _ _ => True) s := by
  subst hk
  unfold take_in
  refine Quiet.bind (hl.open_thread _ _ _ _ _) fun _ t ht => ?_
  refine Quiet.bind (hl.record_links _ _ _ _ _) fun _ u hu => ?_
  rw [ht, hs] at hu
  rw [wp_ite]
  refine ⟨fun hc => hu.trans (Ledger.take_history hc).symm, fun hc => ?_⟩
  rw [wp_bind, Ledger.take_work hc]
  refine wp_mono (hl.queue_message _ _ _ u) (fun inbox v hv => ?_) (fun _ _ h => h)
  rw [hu] at hv
  rw [wp_ite]
  refine ⟨fun hm => ?_, fun hm => ?_⟩
  · have howed : Ledger.owed config.owner (arrived config.owner msg now) = true :=
      Ledger.owed_iff.mpr hm
    rw [wp_bind]
    have hopen := hl.open_mention (mention msg obligation now grace) v (by rw [hv]; exact hfresh)
    refine wp_mono hopen (fun _ w hw => ?_) (fun _ _ h => h)
    rw [wp_pure, hw, hv, if_pos howed]
    rfl
  · have howed : ¬ Ledger.owed config.owner (arrived config.owner msg now) = true :=
      fun ho => hm (Ledger.owed_iff.mp ho)
    rw [wp_pure, hv, if_neg howed]
    rfl

/-- One message, and one step of the ledger. -/
theorem intake_tx_step (hl : Lawful store view) (hs : Ledger.Exact config (view s))
    (hscope : msg.workspace = config.workspace ∧ msg.channel ∈ config.channels) :
    wp (intake_tx o store msg config.owner now config.mention_grace obligation before)
      (fun _ t => Ledger.Step config (arrived config.owner msg now) (view s) (view t))
      (fun _ _ => True) s := by
  unfold intake_tx
  rw [wp_ite]
  refine ⟨fun _ => trivial, fun _ => ?_⟩
  rw [wp_ite]
  refine ⟨fun _ => trivial, fun _ => ?_⟩
  refine Quiet.bind (hl.revive_or_note _ _) fun _ t ht => ?_
  rw [wp_bind]
  refine wp_mono (worth_ok hl config.owner) (fun r u hu => ?_) (fun _ _ h => h)
  obtain ⟨work, created⟩ := r
  obtain ⟨hu, hwork⟩ := hu
  refine Quiet.bind (hl.record _ _ _) fun _ v hv => ?_
  have hsv : view v = view s := hv.trans (hu.trans ht)
  rw [wp_bind]
  refine wp_mono (hl.keep_message _ v) (fun inserted w hw => ?_) (fun _ _ h => h)
  rw [hsv] at hw
  rw [wp_ite]
  refine ⟨fun hin => ?_, fun hin => ?_⟩
  · obtain ⟨hfresh, hkept⟩ := hw.1 hin
    have hmention := hs.mention_fresh hfresh hscope
    refine wp_mono (take_in_ok hl rfl hkept hmention) (fun _ x hx => ?_) (fun _ _ h => h)
    rw [hx]
    refine .taken _ work hfresh hscope rfl fun ho => hwork ?_
    exact (Ledger.owed_iff.mp ho).1
  · obtain ⟨hfresh, hkept⟩ := hw.2 (by simpa using hin)
    rw [wp_pure, hkept]
    exact .again hfresh

/-! ## The ways in -/

/-- What an arrival tells the daemon of. -/
def told (o : Outside) (config : Config) : Arrival → List ArrivedMessage
  | .socket bytes now _ =>
    match o.envelope bytes with
    | .error _ => []
    | .ok envelope =>
      if envelope.kind = "hello" ∨ envelope.kind = "disconnect" then []
      else ((enclosed o config envelope).map (arrived config.owner · now)).toList
  | .history payloads now =>
    match prepared o config payloads with
    | .error _ => []
    | .ok messages => messages.map fun m => arrived config.owner m.1 now
  | .host msg now _ => [arrived config.owner msg now]

theorem normalize_scoped (ho : o.Faithful) {payload : Value} {source : String}
    (hp : scoped_ config payload = true) (hm : normalize o payload source = some msg) :
    msg.workspace = config.workspace ∧ msg.channel ∈ config.channels := by
  obtain ⟨m, hraw, rfl⟩ := Option.map_eq_some_iff.mp hm
  obtain ⟨hw, hc⟩ := ho payload source m hraw
  unfold scoped_ at hp
  rw [hw, hc] at hp
  simpa using hp

theorem enclosed_scoped (ho : o.Faithful) {envelope : Envelope}
    (hm : enclosed o config envelope = some msg) :
    msg.workspace = config.workspace ∧ msg.channel ∈ config.channels := by
  unfold enclosed at hm
  split at hm
  next hfull =>
    unfold full at hfull
    exact normalize_scoped ho (Bool.and_eq_true _ _ ▸ hfull : _ ∧ _).2 hm
  next => exact absurd hm (by simp)

theorem prepared_scoped (ho : o.Faithful) {payloads : List (Value × String)}
    {messages : List (Message × String)} (h : prepared o config payloads = .ok messages) :
    ∀ m ∈ messages, m.1.workspace = config.workspace ∧ m.1.channel ∈ config.channels := by
  intro m hm
  unfold prepared at h
  cases hread : payloads.mapM (prepare o config) with
  | error e => rw [hread] at h; cases h
  | ok read =>
    rw [hread] at h
    cases h
    have hread' := List.mem_filterMap.mp hm
    obtain ⟨_, hmem, rfl⟩ := hread'
    obtain ⟨payload, -, hp⟩ := Checked.mapM_ok hread _ hmem
    unfold prepare at hp
    split at hp
    · cases hp
    next hscope =>
      split at hp
      · cases hp
      split at hp
      · obtain ⟨msg, hmsg, hpair⟩ := Option.map_eq_some_iff.mp (Except.ok.inj hp)
        rw [← hpair]
        exact normalize_scoped ho (by simpa using hscope) hmsg
      · cases hp

theorem commit_steps (hl : Lawful store view) (ho : o.Faithful)
    (hs : Ledger.Exact config (view s)) (envelope : Envelope) :
    wp (commit o store config envelope now obligation)
      (fun _ t => Ledger.Steps config
        ((enclosed o config envelope).map (arrived config.owner · now)).toList (view s) (view t))
      (fun _ _ => True) s := by
  unfold commit
  refine Quiet.bind (hl.record _ _ _) fun _ t ht => ?_
  have hnote : ∀ u ks, Ledger.Steps config ks (view s) (view u) →
      wp (if (full config envelope && dropped_mention config (envelope.value.field "payload")
          (enclosed o config envelope)) = true then
          store.note "slack_dropped_mention" ((envelope.value.field "payload").field "event_id") now
        else pure ())
        (fun _ t => Ledger.Steps config ks (view s) (view t)) (fun _ _ => True) u := by
    intro u ks hu
    rw [wp_ite]
    refine ⟨fun _ => ?_, fun _ => hu⟩
    exact wp_mono (hl.note _ _ _ u) (fun _ v hv => by rwa [hv]) (fun _ _ h => h)
  cases hm : enclosed o config envelope with
  | none =>
    rw [hm] at hnote
    exact hnote t [] (ht ▸ .nil _)
  | some msg =>
    rw [hm] at hnote
    dsimp only
    rw [wp_bind]
    refine wp_mono (intake_tx_step hl (ht ▸ hs) (enclosed_scoped ho hm)) (fun _ u hu => ?_)
      (fun _ _ h => h)
    exact hnote u _ ((Ledger.Steps.nil _).snoc (ht ▸ hu))

theorem receive_steps (hl : Lawful store view) (ho : o.Faithful)
    (hs : Ledger.Exact config (view s)) (bytes : List UInt8) :
    wp (receive o store config bytes now obligation)
      (fun _ t => Ledger.Steps config (told o config (.socket bytes now obligation))
        (view s) (view t))
      (fun _ t => t = s) s := by
  unfold receive told
  dsimp only
  cases o.envelope bytes with
  | error e => exact rfl
  | ok envelope =>
    dsimp only
    rw [wp_ite]
    refine ⟨fun hc => ?_, fun hc => ?_⟩
    · rw [if_pos hc]
      exact .nil _
    · rw [if_neg hc, wp_bind, wp_transact]
      exact wp_mono (commit_steps hl ho hs envelope) (fun _ t ht => ht) (fun _ _ _ => rfl)

theorem catch_up_steps (hl : Lawful store view) (ho : o.Faithful)
    (hs : Ledger.Exact config (view s)) (payloads : List (Value × String)) :
    wp (catch_up o store config payloads now)
      (fun _ t => Ledger.Steps config (told o config (.history payloads now)) (view s) (view t))
      (fun _ t => t = s) s := by
  unfold catch_up told
  dsimp only
  cases hread : prepared o config payloads with
  | error e => exact rfl
  | ok messages =>
    dsimp only
    have hscope := prepared_scoped ho hread
    -- The messages so far, and those still to come.
    let I (rest : List (Message × String)) (_ : Unit) (t : σ) : Prop := ∃ done,
      messages = done ++ rest ∧
      Ledger.Steps config (done.map fun m => arrived config.owner m.1 now) (view s) (view t)
    rw [wp_transact, wp_bind]
    refine wp_mono (wp_foldlM (I := I) (E := fun _ _ => True) ?_ messages ⟨[], rfl, .nil _⟩)
      (fun _ t ht => ?_) (fun _ _ _ => rfl)
    · rintro m rest _ t ⟨done, rfl, hsteps⟩
      rw [wp_bind]
      have hm := hscope m (by simp)
      refine wp_mono (intake_tx_step hl (hsteps.exact hs) hm) (fun _ u hu => ?_) (fun _ _ h => h)
      refine ⟨done ++ [m], by simp, ?_⟩
      rw [List.map_append]
      exact .snoc hsteps hu
    · obtain ⟨done, hdone, hsteps⟩ := ht
      rw [List.append_nil] at hdone
      subst hdone
      exact wp_mono (hl.finish_pass _ t) (fun _ u hu => by rwa [hu]) (fun _ _ _ => rfl)

/-- An arrival takes all of its messages in, or it fails and nothing is changed. -/
theorem perform_steps (hl : Lawful store view) (ho : o.Faithful)
    (hs : Ledger.Exact config (view s)) (a : Arrival) :
    wp (perform o store config a)
      (fun _ t => Ledger.Steps config (told o config a) (view s) (view t))
      (fun _ t => t = s) s := by
  cases a with
  | socket bytes now obligation =>
    unfold perform
    rw [wp_bind]
    exact receive_steps hl ho hs bytes
  | history payloads now => exact catch_up_steps hl ho hs payloads
  | host msg now obligation =>
    unfold perform intake
    rw [wp_bind, wp_ite]
    refine ⟨fun _ => rfl, fun hc => ?_⟩
    rw [not_or, not_not, not_not] at hc
    rw [wp_transact]
    refine wp_mono (intake_tx_step hl hs hc) (fun _ t ht => ?_) (fun _ _ _ => rfl)
    exact (Ledger.Steps.nil _).snoc ht

/-! ## Runs -/

theorem run_append (as bs : List Arrival) :
    run o store config s (as ++ bs) = run o store config (run o store config s as) bs :=
  List.foldl_append

theorem run_exact (hl : Lawful store view) (ho : o.Faithful) (as : List Arrival)
    (hs : Ledger.Exact config (view s)) :
    Ledger.Exact config (view (run o store config s as)) ∧
      (view s).kept <+: (view (run o store config s as)).kept := by
  induction as generalizing s with
  | nil => exact ⟨hs, List.prefix_rfl⟩
  | cons a as ih =>
    have hstep : Ledger.Exact config (view (after (perform o store config a) s)) ∧
        (view s).kept <+: (view (after (perform o store config a) s)).kept := by
      apply wp_after (P := fun t => Ledger.Exact config (view t) ∧ (view s).kept <+: (view t).kept)
      refine wp_mono (perform_steps hl ho hs a) (fun _ t ht => ⟨ht.exact hs, ht.kept⟩) ?_
      rintro _ _ rfl
      exact ⟨hs, List.prefix_rfl⟩
    obtain ⟨hexact, hkept⟩ := ih hstep.1
    exact ⟨hexact, hstep.2.trans hkept⟩

/-- Over every run from a state where each message is there once, it stays so: what is queued and
what an answer is owed for are read off the messages. An arrival that is not refused, such as an
envelope that is acknowledged, has its messages there to the end, and one that is refused changes
nothing. -/
theorem taken_once (hl : Lawful store view) (ho : o.Faithful)
    (hs : Ledger.Exact config (view s)) (as : List Arrival) :
    Ledger.Exact config (view (run o store config s as)) ∧
      (view s).kept <+: (view (run o store config s as)).kept ∧
      ∀ before a rest, as = before ++ a :: rest →
        ((outcome (perform o store config a) (run o store config s before)).1 = .ok () →
          ∀ k ∈ told o config a, ∃ r ∈ (view (run o store config s as)).kept,
            r.event_id = k.event_id ∨ r.key = k.key) ∧
        (∀ e, (outcome (perform o store config a) (run o store config s before)).1 = .error e →
          run o store config s (before ++ [a]) = run o store config s before) := by
  obtain ⟨hexact, hkept⟩ := run_exact hl ho as hs
  refine ⟨hexact, hkept, ?_⟩
  rintro before a rest rfl
  have hbefore := (run_exact hl ho before hs).1
  have hdone := perform_steps hl ho hbefore a
  have hafter : run o store config s (before ++ [a]) =
      after (perform o store config a) (run o store config s before) := run_append before [a]
  have hsplit : run o store config s (before ++ a :: rest) =
      run o store config (run o store config s (before ++ [a])) rest := by
    rw [← run_append, List.append_assoc]
    rfl
  constructor
  · intro hok k hk
    -- The message is there after its arrival, and what is there stays there.
    have hsteps : Ledger.Steps config (told o config a) (view (run o store config s before))
        (view (run o store config s (before ++ [a]))) := by
      have hout : outcome (perform o store config a) (run o store config s before) =
          (.ok (), run o store config s (before ++ [a])) := Prod.ext hok hafter.symm
      exact (wp_ok hdone hout :)
    have hstay := (run_exact hl ho rest (hsteps.exact hbefore)).2
    rw [← hsplit] at hstay
    by_contra hnone
    refine Ledger.stays hstay (hsteps.there hk) fun r hr => ?_
    exact ⟨fun h => hnone ⟨r, hr, .inl h⟩, fun h => hnone ⟨r, hr, .inr h⟩⟩
  · intro e he
    have hout : outcome (perform o store config a) (run o store config s before) =
        (.error e, run o store config s (before ++ [a])) := Prod.ext he hafter.symm
    exact (wp_error hdone hout :)

/-! ## A store in memory -/

instance (L : Ledger) (k : ArrivedMessage) : Decidable (L.Fresh k) :=
  inferInstanceAs (Decidable (∀ r ∈ L.kept, r.event_id ≠ k.event_id ∧ r.key ≠ k.key))

def memory : Store Ledger where
  revive_or_note _ _ := pure ()
  thread_waiting _ := pure false
  record _ _ _ := pure ()
  note _ _ _ := pure ()
  keep_message k := do
    let L ← get
    if L.Fresh k then
      set { L with kept := L.kept ++ [k] }
      return true
    else return false
  open_thread _ _ _ _ _ := pure ()
  record_links _ _ _ _ _ := pure ()
  queue_message session event_id _ := do
    modify fun L => { L with queued := L.queued ++ [(session, event_id)] }
    return 1
  open_mention m := modify fun L => { L with mentions := L.mentions ++ [m] }
  finish_pass _ := pure ()

theorem memory_lawful : Lawful memory id where
  revive_or_note _ _ _ := rfl
  thread_waiting _ _ := rfl
  record _ _ _ _ := rfl
  note _ _ _ _ := rfl
  open_thread _ _ _ _ _ _ := rfl
  record_links _ _ _ _ _ _ := rfl
  finish_pass _ _ := rfl
  keep_message k L := by
    simp only [memory, wp_bind, wp_get, wp_ite]
    constructor
    · intro hfresh
      exact ⟨fun _ => ⟨hfresh, rfl⟩, fun h => absurd h (by simp)⟩
    · intro hfresh
      exact ⟨fun h => absurd h (by simp), fun _ => ⟨hfresh, rfl⟩⟩
  queue_message _ _ _ _ := rfl
  open_mention _ _ _ := rfl

/-- A mention of the owner, as the socket and the history have it. -/
def hello : Value := .object [("team_id", .string "T1"), ("event_id", .string "Ev1"),
  ("event", .object [("type", .string "message"), ("channel", .string "C1"),
    ("user", .string "U2"), ("ts", .string "100.1"), ("text", .string "<@U1> hello")])]

def reader : Outside where
  envelope _ := .ok ⟨"events_api", "E1", .object [("payload", hello)]⟩
  normalize payload source := do
    let event := payload.field "event"
    let event_id ← (payload.field "event_id").as_str
    let workspace ← (payload.field "team_id").as_str
    let channel ← (event.field "channel").as_str
    let ts ← (event.field "ts").as_str
    let user ← (event.field "user").as_str
    let text ← (event.field "text").as_str
    return (⟨event_id, workspace, channel, ts, none, user, text, [], source, none, []⟩, .null)
  thread_id _ := true
  number _ := true
  timestamp _ := some 100

theorem reader_faithful : reader.Faithful := by
  intro payload source m hm
  simp only [reader, Option.bind_eq_bind, Option.bind_eq_some_iff, Option.pure_def,
    Option.some.injEq] at hm
  obtain ⟨_, -, workspace, hw, channel, hc, _, -, _, -, _, -, rfl⟩ := hm
  exact ⟨hw, hc⟩

def room : Config where
  workspace := "T1"
  channels := ["C1"]
  owner := "U1"
  mention_grace := 900
  workspace_id := by decide
  channel_ids := by decide

/-- The socket brings a message, the catch-up brings it again, and it is there once. -/
theorem taken_once_again : Ledger.Exact room
    (run reader memory room ⟨[], [], []⟩ [.socket [] 101 "O1", .history [(hello, "O2")] 102]) :=
  (taken_once memory_lawful reader_faithful Ledger.exact_empty _).1

end Fridica.Slack.Intake
