import Fridica.Control.Pages.Spec
import Fridica.Lib.Cursor

/-!
# The pages give every record once

Following the cursor gives the events of the records after it, in order, whatever the limits are.
-/

namespace Fridica.Control.Pages

open Fridica.Json Fridica.Cursor

/-- The storage contract, of a ledger that stays as it is. -/
structure Reads (u : Unit) (ledger : List Event) : Prop where
  sorted : ledger.Pairwise fun x y => x.seq < y.seq
  after : ∀ seq limit, u.events_after seq limit = some ((unread Event.seq ledger seq).take limit)

variable {core : Core} {u : Unit} {names : Feed.Names} {ledger : List Event}

/-- How many records a page scans at most. -/
def clamp (limit : Nat) : Nat := max 1 (min limit Feed.MAX_LIMIT)

theorem clamp_pos (limit : Nat) : 0 < clamp limit := by
  unfold clamp
  omega

theorem clamp_of_le {limit : Nat} (h : 1 ≤ limit) (h' : limit ≤ 1000) : clamp limit = limit := by
  unfold clamp Feed.MAX_LIMIT
  omega

/-- What a page says. -/
structure Says (page : Value) (events : List Value) (next : Int64) (scanned : Nat) : Prop where
  events : (page.field "events").as_array = some events
  next : (page.field "next").as_i64 = some next
  scanned : (page.field "scanned").as_u64 = some scanned

theorem says_page (events : List Value) (next : Int64) (scanned : Nat) :
    Says (.of_fields [("v", number VERSION), ("events", .array events), ("next", .int next.toInt),
      ("scanned", number scanned)]) events next scanned := by
  have hfields : Value.extend [] [("v", number VERSION), ("events", .array events),
      ("next", .int next.toInt), ("scanned", number scanned)] =
      [("events", .array events), ("next", .int next.toInt), ("scanned", number scanned),
        ("v", number VERSION)] := by
    have hevents : "events" < "v" := by decide
    have hnext : ¬ "next" < "events" ∧ "next" < "v" := by decide
    have hscanned : ¬ "scanned" < "events" ∧ ¬ "scanned" < "next" ∧ "scanned" < "v" := by decide
    simp [Value.extend, Value.insert, hevents, hnext, hscanned]
  unfold Value.of_fields
  rw [hfields]
  exact ⟨rfl, Value.as_i64_int next, rfl⟩

/-- The records of one page. -/
def page_rows (ledger : List Event) (after : Int64) (limit : Nat) : List Event :=
  (unread Event.seq ledger after).take (clamp limit)

theorem read_ok (h : Reads u ledger) (core : Core) (names : Feed.Names) (after : Int64)
    (limit : Nat) :
    ∃ page, read core u names after limit = some page ∧
      Says page ((page_rows ledger after limit).flatMap (events_of core (lookup_of u names)))
        (last Event.seq after (page_rows ledger after limit))
        (page_rows ledger after limit).length := by
  refine ⟨_, ?_, says_page ..⟩
  unfold read
  dsimp only
  rw [h.after]
  rfl

theorem unread_page (h : Reads u ledger) (after : Int64) (limit : Nat) :
    unread Event.seq ledger after = page_rows ledger after limit ++
      unread Event.seq ledger (last Event.seq after (page_rows ledger after limit)) := by
  unfold page_rows
  rw [unread_last h.sorted after (clamp_pos limit), List.take_append_drop]

theorem length_unread_page (h : Reads u ledger) (after : Int64) (limit : Nat) :
    (unread Event.seq ledger (last Event.seq after (page_rows ledger after limit))).length =
      (unread Event.seq ledger after).length - clamp limit := by
  unfold page_rows
  rw [unread_last h.sorted after (clamp_pos limit), List.length_drop]

theorem follow_cons (h : Reads u ledger) (after : Int64) (limit : Nat) (limits : List Nat) :
    follow core u names after (limit :: limits) =
      (follow core u names (last Event.seq after (page_rows ledger after limit)) limits).map
        fun (pages, next) =>
          ((page_rows ledger after limit).flatMap (events_of core (lookup_of u names)) :: pages,
            next) := by
  obtain ⟨page, hread, hsays⟩ := read_ok h core names after limit
  rw [follow, hread]
  simp only [Option.bind_eq_bind, Option.bind_some, hsays.events, hsays.next]
  cases follow core u names (last Event.seq after (page_rows ledger after limit)) limits <;> rfl

/-- The pages split the records after the cursor, and as many pages as there are records take them
all. -/
theorem follow_splits (h : Reads u ledger) (after : Int64) (limits : List Nat) :
    ∃ (rows : List (List Event)) (next : Int64),
      follow core u names after limits =
        some (rows.map fun page => page.flatMap (events_of core (lookup_of u names)), next) ∧
      rows.length = limits.length ∧
      unread Event.seq ledger after = rows.flatten ++ unread Event.seq ledger next ∧
      ((unread Event.seq ledger after).length ≤ limits.length →
        unread Event.seq ledger next = []) := by
  induction limits generalizing after with
  | nil =>
    refine ⟨[], after, rfl, rfl, rfl, fun hlen => ?_⟩
    exact List.eq_nil_of_length_eq_zero (Nat.le_zero.mp hlen)
  | cons limit limits ih =>
    have hpage := unread_page h after limit
    have hlength := length_unread_page h after limit
    have hpos := clamp_pos limit
    obtain ⟨rows, next, hfollow, hrows, hsplit, hall⟩ :=
      ih (last Event.seq after (page_rows ledger after limit))
    refine ⟨page_rows ledger after limit :: rows, next, ?_, ?_, ?_, ?_⟩
    · rw [follow_cons h, hfollow]
      rfl
    · rw [List.length_cons, hrows, List.length_cons]
    · rw [List.flatten_cons, List.append_assoc, ← hsplit]
      exact hpage
    · intro hlen
      rw [List.length_cons] at hlen
      apply hall
      omega

/-! ## The command -/

theorem le_last (ledger : List Event) (after : Int64) (limit : Nat) :
    after ≤ last Event.seq after (page_rows ledger after limit) := by
  rcases List.eq_nil_or_concat (page_rows ledger after limit) with hnil | ⟨init, e, hlast⟩
  · rw [hnil]
    exact Int64.le_refl after
  · have hmem : e ∈ unread Event.seq ledger after := by
      apply List.take_subset (clamp limit)
      unfold page_rows at hlast
      rw [hlast]
      simp
    rw [hlast, List.concat_eq_append, last_concat]
    apply Int64.le_of_lt
    simpa [unread] using (List.mem_filter.mp hmem).2

theorem request_ok {limit : Nat} (hlow : 1 ≤ limit) (hhigh : limit ≤ 1000) {cursor : Int64}
    (hcursor : 0 ≤ cursor) : request core u names cursor limit = read core u names cursor limit :=
  if_pos ⟨hlow, hhigh, hcursor⟩

theorem events_loop_ends (h : Reads u ledger) {limit : Nat} (hlow : 1 ≤ limit)
    (hhigh : limit ≤ 1000) {cursor : Int64} (hcursor : 0 ≤ cursor) {fuel : Nat}
    (hfuel : (unread Event.seq ledger cursor).length / limit < fuel) :
    events_loop core u names false limit fuel cursor =
      some ⟨(unread Event.seq ledger cursor).flatMap (events_of core (lookup_of u names)),
        (unread Event.seq ledger cursor).length / limit + 1⟩ := by
  induction fuel generalizing cursor with
  | zero => exact absurd hfuel (Nat.not_lt_zero _)
  | succ fuel ih =>
    have hclamp := clamp_of_le hlow hhigh
    have hscanned : (page_rows ledger cursor limit).length =
        min limit (unread Event.seq ledger cursor).length := by
      unfold page_rows
      rw [List.length_take, hclamp]
    have hsplit := unread_page h cursor limit
    have hlength := length_unread_page h cursor limit
    obtain ⟨page, hread, hsays⟩ := read_ok h core names cursor limit
    rw [events_loop, request_ok hlow hhigh hcursor, hread]
    simp only [Option.bind_eq_bind, Option.bind_some, hsays.events, hsays.next, hsays.scanned,
      Option.getD_some, Option.all_some, decide_eq_true_eq]
    rw [hclamp] at hlength
    by_cases hfull : (unread Event.seq ledger cursor).length < limit
    · have hrest : unread Event.seq ledger
          (last Event.seq cursor (page_rows ledger cursor limit)) = [] := by
        apply List.eq_nil_of_length_eq_zero
        omega
      rw [hrest, List.append_nil] at hsplit
      rw [if_pos ⟨by omega, by decide⟩, Nat.div_eq_of_lt hfull, ← hsplit]
      rfl
    · have hdiv := Nat.div_eq_sub_div hlow (Nat.not_lt.mp hfull)
      have hnext := ih (Int64.le_trans hcursor (le_last ledger cursor limit)) (by
        rw [hlength]
        omega)
      rw [if_neg (fun hstop => by omega), hnext, hlength]
      have hlines : (unread Event.seq ledger cursor).flatMap (events_of core (lookup_of u names)) =
          (page_rows ledger cursor limit).flatMap (events_of core (lookup_of u names)) ++
            (unread Event.seq ledger (last Event.seq cursor (page_rows ledger cursor limit))).flatMap
              (events_of core (lookup_of u names)) := by
        conv_lhs => rw [hsplit, List.flatMap_append]
      rw [hlines, hdiv]
      rfl

/-- **Whatever the limits are, the pages split the records after the cursor**, each page says the
events of its records, and the command reads them all. -/
theorem pages_complete (h : Reads u ledger) (core : Core) (names : Feed.Names) (after : Int64) :
    (∀ limits, ∃ (rows : List (List Event)) (next : Int64),
      follow core u names after limits =
        some (rows.map fun page => page.flatMap (events_of core (lookup_of u names)), next) ∧
      rows.length = limits.length ∧
      unread Event.seq ledger after = rows.flatten ++ unread Event.seq ledger next ∧
      ((unread Event.seq ledger after).length ≤ limits.length →
        unread Event.seq ledger next = [])) ∧
    ∀ limit fuel, 1 ≤ limit → limit ≤ 1000 → 0 ≤ after →
      (unread Event.seq ledger after).length / limit < fuel →
      events_loop core u names false limit fuel after =
        some ⟨(unread Event.seq ledger after).flatMap (events_of core (lookup_of u names)),
          (unread Event.seq ledger after).length / limit + 1⟩ :=
  ⟨fun limits => follow_splits h after limits,
    fun _ _ hlow hhigh hafter hfuel => events_loop_ends h hlow hhigh hafter hfuel⟩

/-! ## A ledger in memory -/

def memory (ledger : List Event) : Unit where
  events_after seq limit := some ((unread Event.seq ledger seq).take limit)
  outbox_post _ := some none
  job_session _ := some none
  feed_job _ := some none
  message_received_at _ := some none
  has_recent_intake _ _ _ := some false

theorem memory_reads {ledger : List Event} (h : ledger.Pairwise fun x y => x.seq < y.seq) :
    Reads (memory ledger) ledger := ⟨h, fun _ _ => rfl⟩

/-- Payloads that are no JSON but for one, and no thread IDs. -/
def plain : Core where
  from_str s := if s = "\x7b\x7d" then some (.object []) else none
  thread_id _ := none

/-- A record that is not read, a completion with its two events, and a record of another kind. -/
def three : List Event :=
  [⟨4, "intake", 1, "?"⟩, ⟨7, "worker_completion", 2, "\x7b\x7d"⟩,
    ⟨9, "control_request", 3, "\x7b\x7d"⟩]

theorem pages_complete_three :
    (events_loop plain (memory three) ⟨fun _ => none, fun _ => none⟩ false 3 2 0).map
      (fun printed => (printed.lines.length, printed.requests)) = some (2, 2) := by
  rw [(pages_complete (memory_reads (by decide)) plain ⟨fun _ => none, fun _ => none⟩ 0).2 3 2
    (by decide) (by decide) (by decide) (by decide)]
  rfl

end Fridica.Control.Pages
