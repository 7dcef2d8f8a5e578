import Fridica.Slack.Intake.Spec
import Mathlib.Data.List.Nodup

/-!
# A ledger of messages

What the intake is for: however often a message comes, it is kept once, queued at most once, and the
owner is owed one answer where it mentions them.
-/

namespace Fridica.Slack.Intake

open Fridica.Effect

structure Ledger where
  kept : List ArrivedMessage
  /-- The session and the event of a message that is work. -/
  queued : List (String × String)
  mentions : List Mention

abbrev Key := String × String × String

def ArrivedMessage.key (k : ArrivedMessage) : Key := (k.workspace, k.channel, k.ts)

def ArrivedMessage.session (k : ArrivedMessage) : String :=
  session_of k.workspace k.channel k.root_ts

def ArrivedMessage.dedup_key (k : ArrivedMessage) : String :=
  Intake.dedup_key k.workspace k.channel k.ts

namespace Ledger

/-- No row has its event ID, and none is the same message. -/
def Fresh (L : Ledger) (k : ArrivedMessage) : Prop :=
  ∀ r ∈ L.kept, r.event_id ≠ k.event_id ∧ r.key ≠ k.key

/-- The owner is mentioned by somebody else. -/
def owed (owner : String) (k : ArrivedMessage) : Bool := k.mentions_owner && k.sender ≠ owner

theorem owed_iff {owner : String} {k : ArrivedMessage} :
    owed owner k = true ↔ k.mentions_owner = true ∧ k.sender ≠ owner := by
  simp [owed]

/-- A message that was not there, and the mention that it would open. -/
def take (L : Ledger) (owner : String) (k : ArrivedMessage) (m : Mention) (work : Bool) : Ledger :=
  let L := { L with kept := L.kept ++ [k] }
  if k.source = "self" ∨ ¬ work then L
  else
    { L with
      queued := L.queued ++ [(k.session, k.event_id)]
      mentions := if owed owner k then L.mentions ++ [m] else L.mentions }

/-- What a message is owed: an answer in its thread, so long after it came. -/
structure Due where
  session : String
  dedup_key : String
  event_id : String
  created : ℚ
  due : ℚ

def due_of (grace : ℚ) (k : ArrivedMessage) : Due :=
  ⟨k.session, k.dedup_key, k.event_id, k.received_at, k.received_at + grace⟩

def due (m : Mention) : Due := ⟨m.session, m.dedup_key, m.event_id, m.created, m.due⟩

/-- Each message once. -/
structure Exact (config : Config) (L : Ledger) : Prop where
  in_scope : ∀ k ∈ L.kept, k.workspace = config.workspace ∧ k.channel ∈ config.channels
  events : (L.kept.map ArrivedMessage.event_id).Nodup
  messages : (L.kept.map ArrivedMessage.key).Nodup
  /-- What is queued is kept, is not the daemon's own, and is queued once. -/
  queued : L.queued.Sublist
    ((L.kept.filter fun k => k.source ≠ "self").map fun k => (k.session, k.event_id))
  /-- One answer is owed for each mention of the owner by somebody else. -/
  mentions : L.mentions.map due = (L.kept.filter fun k =>
    k.source ≠ "self" && owed config.owner k).map (due_of config.mention_grace)
  /-- A message that an answer is owed for is queued. -/
  work : ∀ k ∈ L.kept, k.source ≠ "self" → owed config.owner k = true →
    (k.session, k.event_id) ∈ L.queued

variable {config : Config} {L : Ledger} {k : ArrivedMessage} {m : Mention} {work : Bool}

theorem exact_empty : Exact config ⟨[], [], []⟩ :=
  ⟨by simp, .nil, .nil, .slnil, rfl, by simp⟩

theorem take_history (hk : k.source = "self" ∨ ¬ work) :
    L.take config.owner k m work = { L with kept := L.kept ++ [k] } := if_pos hk

theorem take_work (hk : ¬ (k.source = "self" ∨ ¬ work)) : L.take config.owner k m work =
    ⟨L.kept ++ [k], L.queued ++ [(k.session, k.event_id)],
      if owed config.owner k then L.mentions ++ [m] else L.mentions⟩ := if_neg hk

theorem Exact.take (h : Exact config L) (hfresh : L.Fresh k)
    (hscope : k.workspace = config.workspace ∧ k.channel ∈ config.channels)
    (hdue : due m = due_of config.mention_grace k)
    (hwork : owed config.owner k = true → work = true) :
    Exact config (L.take config.owner k m work) := by
  have hevents : ((L.kept ++ [k]).map ArrivedMessage.event_id).Nodup := by
    rw [List.map_append, List.nodup_append]
    refine ⟨h.events, List.nodup_singleton _, ?_⟩
    rintro x hx y hy rfl
    obtain ⟨r, hr, hrx⟩ := List.mem_map.mp hx
    exact (hfresh r hr).1 (hrx.trans (List.mem_singleton.mp hy))
  have hkeys : ((L.kept ++ [k]).map ArrivedMessage.key).Nodup := by
    rw [List.map_append, List.nodup_append]
    refine ⟨h.messages, List.nodup_singleton _, ?_⟩
    rintro x hx y hy rfl
    obtain ⟨r, hr, hrx⟩ := List.mem_map.mp hx
    exact (hfresh r hr).2 (hrx.trans (List.mem_singleton.mp hy))
  have hin : ∀ r ∈ L.kept ++ [k],
      r.workspace = config.workspace ∧ r.channel ∈ config.channels := by
    intro r hr
    rcases List.mem_append.mp hr with hr | hr
    · exact h.in_scope r hr
    · rwa [List.mem_singleton.mp hr]
  by_cases hself : k.source = "self"
  · -- The daemon's own words are kept, and nothing more.
    rw [take_history (.inl hself)]
    refine ⟨hin, hevents, hkeys, ?_, ?_, ?_⟩
    · simpa [hself] using h.queued
    · simpa [hself] using h.mentions
    · intro r hr hr' ho
      rcases List.mem_append.mp hr with hr | hr
      · exact h.work r hr hr' ho
      · exact absurd (List.mem_singleton.mp hr ▸ hself) hr'
  by_cases hw : work = true
  · rw [take_work (by simp [hself, hw])]
    refine ⟨hin, hevents, hkeys, ?_, ?_, ?_⟩
    · rw [List.filter_append, List.map_append]
      exact h.queued.append (by simp [hself])
    · rw [List.filter_append, List.map_append, ← h.mentions]
      by_cases ho : owed config.owner k = true
      · simp [ho, hself, hdue]
      · simp [ho]
    · intro r hr hr' ho
      rcases List.mem_append.mp hr with hr | hr
      · exact List.mem_append_left _ (h.work r hr hr' ho)
      · rw [List.mem_singleton.mp hr]
        exact List.mem_append_right _ (List.mem_singleton_self _)
  · -- An old message is history, which is owed nothing.
    have ho : owed config.owner k = false := by
      rw [Bool.eq_false_iff]
      exact fun ho => hw (hwork ho)
    rw [take_history (.inr hw)]
    refine ⟨hin, hevents, hkeys, ?_, ?_, ?_⟩
    · rw [List.filter_append, List.map_append]
      exact h.queued.trans (List.sublist_append_left _ _)
    · rw [List.filter_append, List.map_append, ← h.mentions]
      simp [ho]
    · intro r hr hr' hr''
      rcases List.mem_append.mp hr with hr | hr
      · exact h.work r hr hr' hr''
      · rw [List.mem_singleton.mp hr, ho] at hr''
        exact absurd hr'' (by simp)

/-! ## Steps -/

/-- A message comes in. -/
inductive Step (config : Config) (k : ArrivedMessage) (L : Ledger) : Ledger → Prop
  | again : ¬ L.Fresh k → Step config k L L
  | taken (m : Mention) (work : Bool) : L.Fresh k →
      k.workspace = config.workspace ∧ k.channel ∈ config.channels →
      due m = due_of config.mention_grace k → (owed config.owner k = true → work = true) →
      Step config k L (L.take config.owner k m work)

/-- Messages come in, one after the other. -/
inductive Steps (config : Config) : List ArrivedMessage → Ledger → Ledger → Prop
  | nil (L : Ledger) : Steps config [] L L
  | snoc {ks : List ArrivedMessage} {k : ArrivedMessage} {L M N : Ledger} :
      Steps config ks L M → Step config k M N → Steps config (ks ++ [k]) L N

variable {M N : Ledger} {ks ks' : List ArrivedMessage}

theorem take_kept : (L.take config.owner k m work).kept = L.kept ++ [k] := by
  unfold Ledger.take
  split <;> rfl

theorem Step.exact (h : Step config k L M) (hL : Exact config L) : Exact config M := by
  cases h with
  | again => exact hL
  | taken m work hfresh hscope hdue hwork => exact hL.take hfresh hscope hdue hwork

theorem Step.kept (h : Step config k L M) : L.kept <+: M.kept := by
  cases h with
  | again => exact List.prefix_rfl
  | taken m work => rw [take_kept]; exact List.prefix_append _ _

theorem Step.there (h : Step config k L M) : ¬ M.Fresh k := by
  cases h with
  | again h => exact h
  | taken m work =>
    intro hfresh
    exact (hfresh k (by rw [take_kept]; simp)).1 rfl

/-- What is there stays there. -/
theorem stays (h : L.kept <+: M.kept) (hk : ¬ L.Fresh k) : ¬ M.Fresh k :=
  fun hfresh => hk fun r hr => hfresh r (h.subset hr)

theorem Steps.exact (h : Steps config ks L M) (hL : Exact config L) : Exact config M := by
  induction h with
  | nil => exact hL
  | snoc _ hstep ih => exact hstep.exact (ih hL)

theorem Steps.kept (h : Steps config ks L M) : L.kept <+: M.kept := by
  induction h with
  | nil => exact List.prefix_rfl
  | snoc _ hstep ih => exact ih.trans hstep.kept

theorem Steps.there (h : Steps config ks L M) (hk : k ∈ ks) : ¬ M.Fresh k := by
  induction h with
  | nil => exact absurd hk (by simp)
  | snoc _ hstep ih =>
    rcases List.mem_append.mp hk with hk | hk
    · exact stays hstep.kept (ih hk)
    · rw [List.mem_singleton.mp hk]
      exact hstep.there

end Ledger

end Fridica.Slack.Intake
