import Fridica.Slack.Metadata.Spec
import Fridica.Threads.Commit.Spec

/-!
# What is written is read back

Metadata within the bounds of the wire survives a post, and whatever is read is within them, but
for a session that nobody named.
-/

namespace Fridica.Slack

open Fridica.Json

/-- The bounds of what is read: a session that nobody named is empty. -/
structure Bounded (m : External.Meta) : Prop where
  owner : m.owner.toList.length ≤ 32
  session : m.session.toList.length ≤ 128
  turn : 0 ≤ m.turn ∧ m.turn ≤ 10000
  status : known_status m.status = true ∨ m.status = ""
  kind : m.kind ≠ "" ∧ m.kind.toList.length ≤ 32
  worker : m.worker.toList.length ≤ 64
  version : m.v = 1 ∨ m.v = 2

theorem Within.bounded {m : External.Meta} (h : Within m) : Bounded m :=
  ⟨h.owner, h.session.2, h.turn, h.status, h.kind, h.worker, h.version⟩

/-! ## The fields that were written -/

/-- What a payload says, when it was written by `metadata`. -/
structure Says (m : External.Meta) (data : Value) : Prop where
  owner : (data.field "owner").as_str = some m.owner
  session : (data.field "session").as_str = some m.session
  task_id : (data.field "task_id").as_str = some m.session
  turn : (data.field "turn").as_u64 = some m.turn.toNat
  status : (data.field "status").as_str = some m.status
  kind : (data.field "kind").as_str = some m.kind
  worker : (data.field "worker").as_str = some m.worker
  v : (data.field "v").as_u64 = some m.v

theorem payload_metadata (v : Value) (key : String) :
    ((metadata v).field "event_payload").field key =
      ([("worker", string_or "" (v.field "worker")), ("kind", string_or "reply" (v.field "kind")),
        ("status", string_or "" (v.field "status")), ("turn", number_or 0 (v.field "turn")),
        ("task_id", string_or "" (v.field "session")),
        ("session", string_or "" (v.field "session")), ("owner", string_or "" (v.field "owner")),
        ("v", number_or 2 (v.field "v"))].lookup key).getD .null := by
  unfold metadata
  rw [Value.field_of_fields]
  simp only [List.reverse_cons, List.reverse_nil, List.nil_append, List.cons_append,
    List.lookup_cons, beq_self_eq_true, Option.getD_some]
  rw [Value.field_of_fields]
  rfl

theorem event_type_metadata (v : Value) :
    ((metadata v).field "event_type").as_str = some "fridica_message" := by
  unfold metadata
  rw [Value.field_of_fields]
  simp [List.lookup_cons, Value.as_str]

theorem field_meta_value (m : External.Meta) (key : String) :
    (meta_value m).field key =
      ([("v", .number (.unsigned m.v)), ("worker", .string m.worker), ("kind", .string m.kind),
        ("status", .string m.status), ("turn", .int m.turn), ("session", .string m.session),
        ("owner", .string m.owner)].lookup key).getD .null := by
  unfold meta_value
  rw [Value.field_of_fields]
  rfl

theorem says_metadata {m : External.Meta} (hturn : 0 ≤ m.turn) :
    Says m ((metadata (meta_value m)).field "event_payload") := by
  constructor
  all_goals
    rw [payload_metadata]
    simp [List.lookup_cons, field_meta_value, string_or, number_or, Value.as_str, Value.as_u64,
      Value.int, hturn]

theorem text_within {data : Value} {key s : String} {limit : Nat}
    (h : (data.field key).as_str = some s) (hlen : s.toList.length ≤ limit) :
    text data key limit = s := by
  unfold text
  rw [h, Option.getD_some, List.take_of_length_le hlen, String.ofList_toList]

/-! ## Reading -/

theorem length_text (data : Value) (key : String) (limit : Nat) :
    (text data key limit).toList.length ≤ limit := by
  unfold text
  rw [String.toList_ofList]
  exact List.length_take_le ..

theorem read_meta_bounded (data : Value) : Bounded (read_meta data) := by
  refine ⟨length_text .., ?_, ?_, ?_, ?_, length_text .., ?_⟩
  · unfold read_meta
    dsimp only
    split
    · exact length_text ..
    · exact length_text ..
  · unfold read_meta
    dsimp only
    omega
  · unfold read_meta
    dsimp only
    cases hfilter : (data.field "status").as_str.filter known_status with
    | none => exact .inr rfl
    | some status =>
      left
      rw [Option.getD_some]
      exact (Option.filter_eq_some_iff.mp hfilter).2
  · unfold read_meta
    dsimp only
    split
    next => decide +kernel
    next hkind => exact ⟨hkind, length_text ..⟩
  · unfold read_meta
    dsimp only
    split
    · exact .inr rfl
    · exact .inl rfl

theorem read_meta_says {m : External.Meta} {data : Value} (h : Says m data) (hm : Bounded m) :
    read_meta data = m := by
  obtain ⟨owner, session, turn, status, kind, worker, v⟩ := m
  have howner := text_within h.owner hm.owner
  have hsession := text_within h.session hm.session
  have htask := text_within h.task_id hm.session
  have hkind := text_within h.kind hm.kind.2
  have hworker := text_within h.worker hm.worker
  have hturn := hm.turn
  dsimp only at howner hsession htask hkind hworker hturn
  unfold read_meta
  dsimp only
  rw [howner, hsession, htask, hkind, hworker, h.turn, h.status, h.v, if_neg hm.kind.1,
    Option.getD_some]
  congr 1
  · split
    next hempty => exact hempty.symm ▸ rfl
    · rfl
  · dsimp only
    omega
  · rcases hm.status with hknown | hempty
    · rw [Option.filter_some, if_pos hknown, Option.getD_some]
    · dsimp only at hempty
      subst hempty
      rfl
  · rcases hm.version with hv | hv <;> dsimp only at hv <;> subst hv <;> rfl

theorem parse_written {m : External.Meta} (h : Bounded m) :
    parse_metadata (metadata (meta_value m)) = some (meta_value m) := by
  unfold parse_metadata
  rw [if_neg (fun hne => hne (event_type_metadata _)), read_meta_says (says_metadata h.turn.1) h]

/-- **Metadata is read back as it was written**, and what was read once is read again. -/
theorem metadata_read_back :
    (∀ m, Within m → parse_metadata (metadata (meta_value m)) = some (meta_value m)) ∧
    ∀ value m, parse_metadata value = some m → parse_metadata (metadata m) = some m := by
  constructor
  · exact fun m h => parse_written h.bounded
  · intro value m h
    unfold parse_metadata at h
    split at h
    · cases h
    · rw [← Option.some.inj h]
      exact parse_written (read_meta_bounded _)

theorem metadata_read_back_waiting :
    parse_metadata (metadata (meta_value ⟨"UOWNER", "T:C:1.1", 3, "waiting", "reply", "", 2⟩)) =
      some (meta_value ⟨"UOWNER", "T:C:1.1", 3, "waiting", "reply", "", 2⟩) :=
  metadata_read_back.1 _ ⟨by decide +kernel, by decide +kernel, by decide, .inl (by decide +kernel),
    by decide +kernel, by decide +kernel, .inr rfl⟩

/-! ## What a commit writes -/

theorem length_report_workers (rows : List Threads.ResultRow) :
    (Threads.report_workers rows).toList.length ≤ 64 := by
  unfold Threads.report_workers
  dsimp only
  rw [String.toList_ofList]
  exact List.length_take_le ..

theorem known_as_str (s : Threads.ReplyStatus) : known_status s.as_str = true := by
  cases s <;> decide +kernel

/-- What a commit labels its posts with is read back. -/
theorem label_read_back (t : Threads.Turn) (reply : Threads.Reply) (post : Int)
    (howner : t.owner.toList.length ≤ 32)
    (hsession : t.session ≠ "" ∧ t.session.toList.length ≤ 128)
    (hturn : t.turn ≤ 10000) :
    ∃ m event report, Threads.label t reply post = .label_post post m event report ∧
      parse_metadata (metadata (meta_value m)) = some (meta_value m) := by
  refine ⟨_, _, _, rfl, parse_written (Within.bounded ⟨howner, hsession,
    ⟨Int.natCast_nonneg _, Int.ofNat_le.mpr hturn⟩, .inl (known_as_str reply.status), ?_, ?_,
    .inr rfl⟩)⟩
  · dsimp only
    split <;> decide +kernel
  · dsimp only
    split
    · exact length_report_workers _
    · decide +kernel

end Fridica.Slack
