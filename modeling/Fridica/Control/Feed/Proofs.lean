import Fridica.Control.Feed.Spec
import Fridica.Lib.Cursor
import Mathlib.Data.List.Induction
import Mathlib.Data.List.Nodup
import Mathlib.Data.List.Pairwise
import Mathlib.Data.List.Perm.Subperm

/-!
# One event per message

A client of the feed sees one `message` event for each message that arrives under one event id. A
message that the socket and the catch-up both bring in is shown once for each of its arrivals by
the later route.
-/

namespace Fridica.Control.Feed

variable {a : Store}

/-! ## The pages give every record once -/

theorem filter_after {l : List Event} (hl : l.Pairwise (·.seq < ·.seq)) {after n : Nat} {e : Event}
    (he : ((l.filter (after < ·.seq)).take n).getLast? = some e) :
    l.filter (e.seq < ·.seq) = (l.filter (after < ·.seq)).drop n := by
  have hn : 0 < n := by
    apply Nat.pos_of_ne_zero
    rintro rfl
    simp at he
  have hrest := Cursor.unread_last hl after hn
  have hlast : Cursor.last Event.seq after ((Cursor.unread Event.seq l after).take n) = e.seq :=
    Cursor.last_of_getLast? he
  rw [hlast] at hrest
  exact hrest

theorem follow_from (h : a.Contract) (names : Names) {s : State}
    (hs : s.ledger.Pairwise (·.seq < ·.seq)) (limit : Nat) {fuel after : Nat}
    (hfuel : (s.ledger.filter (after < ·.seq)).length < fuel) :
    follow a names s limit fuel after =
      (s.ledger.filter (after < ·.seq)).filterMap (project a names s) := by
  induction fuel generalizing after with
  | zero => omega
  | succ fuel ih =>
    unfold follow read
    simp only [h.after]
    generalize hn : max 1 (min limit MAX_LIMIT) = n
    have hpos : 0 < n := by omega
    cases hlast : ((s.ledger.filter (after < ·.seq)).take n).getLast? with
    | none =>
      have hnil : s.ledger.filter (after < ·.seq) = [] := by
        rw [List.getLast?_eq_none_iff, List.take_eq_nil_iff] at hlast
        exact hlast.resolve_left (by omega)
      simp [hnil]
    | some e =>
      have hrest := filter_after hs hlast
      have hne : ((s.ledger.filter (after < ·.seq)).take n).length ≠ 0 := by
        intro hzero
        rw [List.length_eq_zero_iff.mp hzero] at hlast
        simp at hlast
      rw [if_neg hne, Option.map_some, Option.getD_some]
      have hshort : (s.ledger.filter (e.seq < ·.seq)).length < fuel := by
        rw [hrest, List.length_drop]
        rw [List.length_take] at hne
        omega
      rw [ih hshort, hrest, ← List.filterMap_append, List.take_append_drop]

/-! ## What the ledger and the rows say of each other -/

def Event.arrival (e : Event) : Option Message :=
  match e.payload with
  | .intake m _ => some m
  | .other => none

theorem takes_iff {e : Event} {event_id : String} :
    e.takes event_id ↔ ∃ m, e.arrival = some m ∧ m.event_id = event_id := by
  unfold Event.takes Event.arrival
  cases e.payload with
  | intake m owner => simp
  | other => simp

/-- An event id names one message. -/
def Identifies (ledger : List Event) : Prop :=
  ∀ e ∈ ledger, ∀ e' ∈ ledger, ∀ m m', e.arrival = some m → e'.arrival = some m' →
    m.event_id = m'.event_id → m.key = m'.key

/-- The record `e` is the first arrival of `m`. -/
structure FirstOf (ledger : List Event) (e : Event) (m : Message) : Prop where
  mem : e ∈ ledger
  arrival : e.arrival = some m
  least : ∀ e' ∈ ledger, ∀ m', e'.arrival = some m' → m'.key = m.key → e.seq ≤ e'.seq

structure Inv (s : State) : Prop where
  sorted : s.ledger.Pairwise (·.seq < ·.seq)
  bound : ∀ e ∈ s.ledger, e.seq ≤ s.ledger.length
  ids : (s.messages.map (·.event_id)).Nodup
  row : ∀ r ∈ s.messages, ∃ e m, FirstOf s.ledger e m ∧ m.event_id = r.event_id ∧
    m.key = r.key ∧ e.time = r.received_at
  kept : ∀ e ∈ s.ledger, ∀ m, e.arrival = some m → ∃ r ∈ s.messages, r.key = m.key

theorem FirstOf.append {ledger : List Event} {e x : Event} {m : Message} (h : FirstOf ledger e m)
    (hx : e.seq ≤ x.seq) : FirstOf (ledger ++ [x]) e m := by
  refine ⟨List.mem_append_left _ h.mem, h.arrival, ?_⟩
  intro e' he' m' ha hk
  rcases List.mem_append.mp he' with he' | he'
  · exact h.least e' he' m' ha hk
  · rw [List.mem_singleton.mp he']
    exact hx

theorem sorted_record {s : State} (h : Inv s) (payload : Payload) (now : ℚ) :
    (record payload now s).ledger.Pairwise (·.seq < ·.seq) ∧
      ∀ e ∈ (record payload now s).ledger, e.seq ≤ (record payload now s).ledger.length := by
  unfold record
  constructor
  · rw [List.pairwise_append]
    refine ⟨h.sorted, List.pairwise_singleton _ _, ?_⟩
    intro e he x hx
    rw [List.mem_singleton.mp hx]
    have := h.bound e he
    dsimp only
    omega
  · intro e he
    rw [List.length_append, List.length_singleton]
    rcases List.mem_append.mp he with he | he
    · have := h.bound e he
      omega
    · rw [List.mem_singleton.mp he]

theorem inv_other {s : State} (h : Inv s) (now : ℚ) : Inv (record .other now s) := by
  obtain ⟨hsorted, hbound⟩ := sorted_record h .other now
  refine ⟨hsorted, hbound, h.ids, ?_, ?_⟩
  · intro r hr
    obtain ⟨e, m, hf, hrest⟩ := h.row r hr
    refine ⟨e, m, hf.append ?_, hrest⟩
    exact (h.bound e hf.mem).trans (Nat.le_succ _)
  · intro e he m ha
    rcases List.mem_append.mp he with he | he
    · exact h.kept e he m ha
    · rw [List.mem_singleton.mp he] at ha
      cases ha

theorem inv_intake (hc : a.Contract) {s : State} {owner : String} {now : ℚ} {msg : Message}
    (hids : Identifies (intake_tx a owner now s msg).ledger) (h : Inv s) :
    Inv (intake_tx a owner now s msg) := by
  obtain ⟨hsorted, hbound⟩ := sorted_record h (.intake msg owner) now
  let row : ArrivedMessage := ⟨msg.event_id, msg.workspace, msg.channel, msg.ts, now⟩
  let e₀ : Event := ⟨s.ledger.length + 1, now, .intake msg owner⟩
  have hold : ∀ r ∈ s.messages, ∃ e m, FirstOf (s.ledger ++ [e₀]) e m ∧
      m.event_id = r.event_id ∧ m.key = r.key ∧ e.time = r.received_at := by
    intro r hr
    obtain ⟨e, m, hf, hrest⟩ := h.row r hr
    exact ⟨e, m, hf.append ((h.bound e hf.mem).trans (Nat.le_succ _)), hrest⟩
  cases hin : (a.keep_message row s.messages).1 with
  | true =>
    have hfresh := (hc.inserted row s.messages).mp hin
    have hrows : (intake_tx a owner now s msg).messages = s.messages ++ [row] :=
      hc.row_inserted row s.messages hin
    refine ⟨hsorted, hbound, ?_, ?_, ?_⟩
    · rw [hrows, List.map_append, List.nodup_append]
      refine ⟨h.ids, List.nodup_singleton _, ?_⟩
      rintro x hx y hy rfl
      obtain ⟨r, hr, hrx⟩ := List.mem_map.mp hx
      exact (hfresh r hr).1 (hrx.trans (List.mem_singleton.mp hy))
    · intro r hr
      rw [hrows] at hr
      rcases List.mem_append.mp hr with hr | hr
      · exact hold r hr
      · -- No earlier record is of this message, or it would have a row.
        rw [List.mem_singleton.mp hr]
        refine ⟨e₀, msg, ⟨List.mem_append_right _ (List.mem_singleton_self _), rfl, ?_⟩,
          rfl, rfl, rfl⟩
        intro e' he' m' ha hk
        rcases List.mem_append.mp he' with he' | he'
        · obtain ⟨r', hr', hk'⟩ := h.kept e' he' m' ha
          exact absurd (hk'.trans hk) (hfresh r' hr').2
        · rw [List.mem_singleton.mp he']
    · intro e he m ha
      rw [hrows]
      rcases List.mem_append.mp he with he | he
      · obtain ⟨r, hr, hk⟩ := h.kept e he m ha
        exact ⟨r, List.mem_append_left _ hr, hk⟩
      · rw [List.mem_singleton.mp he] at ha
        obtain rfl : msg = m := Option.some_inj.mp ha
        exact ⟨row, by simp, rfl⟩
  | false =>
    have hrows : (intake_tx a owner now s msg).messages = s.messages :=
      hc.row_kept row s.messages hin
    refine ⟨hsorted, hbound, hrows ▸ h.ids, ?_, ?_⟩
    · intro r hr
      rw [hrows] at hr
      exact hold r hr
    · intro e he m ha
      rw [hrows]
      rcases List.mem_append.mp he with he | he
      · exact h.kept e he m ha
      · rw [List.mem_singleton.mp he] at ha
        obtain rfl : msg = m := Option.some_inj.mp ha
        -- The row that stands in the way is of this message.
        have hclash : ¬ ∀ r ∈ s.messages, r.event_id ≠ row.event_id ∧ r.key ≠ row.key := by
          rw [← hc.inserted, hin]
          simp
        push Not at hclash
        obtain ⟨r, hr, himp⟩ := hclash
        refine ⟨r, hr, ?_⟩
        by_cases hid : r.event_id = row.event_id
        · obtain ⟨f, mf, hf, hfid, hfkey, -⟩ := h.row r hr
          rw [← hfkey]
          exact hids f (List.mem_append_left _ hf.mem) e₀
            (List.mem_append_right _ (List.mem_singleton_self _)) mf msg hf.arrival rfl
            (hfid.trans hid)
        · exact himp hid

/-! ## Runs -/

theorem Identifies.left {l l' : List Event} (h : Identifies (l ++ l')) : Identifies l :=
  fun e he e' he' => h e (List.mem_append_left _ he) e' (List.mem_append_left _ he')

theorem intakes_inv (hc : a.Contract) {owner : String} {now : ℚ} {msgs : List Message} {s : State}
    (hids : Identifies (msgs.foldl (intake_tx a owner now) s).ledger) (h : Inv s) :
    Inv (msgs.foldl (intake_tx a owner now) s) := by
  induction msgs generalizing s with
  | nil => exact h
  | cons msg msgs ih =>
    have hgrow : ∀ (msgs : List Message) (t : State), ∃ l,
        (msgs.foldl (intake_tx a owner now) t).ledger = t.ledger ++ l := by
      intro msgs
      induction msgs with
      | nil => exact fun t => ⟨[], by simp⟩
      | cons m msgs ih =>
        intro t
        obtain ⟨l, hl⟩ := ih (intake_tx a owner now t m)
        exact ⟨_ :: l, by rw [List.foldl_cons, hl]; exact List.append_assoc _ _ _⟩
    rw [List.foldl_cons] at hids ⊢
    obtain ⟨l, hl⟩ := hgrow msgs (intake_tx a owner now s msg)
    exact ih hids (inv_intake hc (Identifies.left (hl ▸ hids)) h)

theorem commit_inv (hc : a.Contract) {s : State} {t : Transaction}
    (hids : Identifies (commit a s t).ledger) (h : Inv s) : Inv (commit a s t) := by
  cases t with
  | receive message owner now => exact intakes_inv hc hids (inv_other h now)
  | catch_up messages owner now => exact intakes_inv hc hids h
  | other now => exact inv_other h now

theorem intakes_arrivals {owner : String} {now : ℚ} (msgs : List Message) (s : State) :
    (msgs.foldl (intake_tx a owner now) s).ledger.filterMap Event.arrival =
      s.ledger.filterMap Event.arrival ++ msgs := by
  induction msgs generalizing s with
  | nil => simp
  | cons msg msgs ih =>
    rw [List.foldl_cons, ih]
    unfold intake_tx record
    rw [List.filterMap_append]
    simp [Event.arrival]

theorem commit_arrivals (s : State) (t : Transaction) :
    (commit a s t).ledger.filterMap Event.arrival =
      s.ledger.filterMap Event.arrival ++ t.messages := by
  have hother : ∀ now, (record .other now s).ledger.filterMap Event.arrival =
      s.ledger.filterMap Event.arrival := by
    intro now
    unfold record
    rw [List.filterMap_append]
    simp [Event.arrival]
  cases t with
  | receive message owner now =>
    refine (intakes_arrivals _ _).trans ?_
    rw [hother]
    rfl
  | catch_up messages owner now => exact intakes_arrivals _ _
  | other now => exact (hother now).trans (List.append_nil _).symm

theorem run_arrivals (ts : List Transaction) :
    (run a ts).ledger.filterMap Event.arrival = arrivals ts := by
  induction ts using List.reverseRecOn with
  | nil => rfl
  | append_singleton ts t ih =>
    unfold run arrivals at *
    rw [List.foldl_append, List.flatMap_append, ← ih]
    exact (commit_arrivals _ t).trans (by simp)

theorem identifies_iff {l : List Event} : Identifies l ↔ ∀ m ∈ l.filterMap Event.arrival,
    ∀ m' ∈ l.filterMap Event.arrival, m.event_id = m'.event_id → m.key = m'.key := by
  constructor
  · intro h m hm m' hm'
    obtain ⟨e, he, hem⟩ := List.mem_filterMap.mp hm
    obtain ⟨e', he', hem'⟩ := List.mem_filterMap.mp hm'
    exact h e he e' he' m m' hem hem'
  · intro h e he e' he' m m' ha ha'
    exact h m (List.mem_filterMap.mpr ⟨e, he, ha⟩) m' (List.mem_filterMap.mpr ⟨e', he', ha'⟩)

theorem run_inv (hc : a.Contract) {ts : List Transaction}
    (hids : Identifies (run a ts).ledger) : Inv (run a ts) := by
  induction ts using List.reverseRecOn with
  | nil => exact ⟨List.Pairwise.nil, by simp [run, empty], by simp [run, empty],
      by simp [run, empty], by simp [run, empty]⟩
  | append_singleton ts t ih =>
    have hbefore : Identifies (run a ts).ledger := by
      rw [identifies_iff, run_arrivals] at hids ⊢
      unfold arrivals at hids
      rw [List.flatMap_append] at hids
      exact fun m hm m' hm' => hids m (List.mem_append_left _ hm) m' (List.mem_append_left _ hm')
    unfold run at *
    rw [List.foldl_append] at *
    exact commit_inv hc hids (ih hbefore)

theorem run_pos (ts : List Transaction) : ∀ e ∈ (run a ts).ledger, 0 < e.seq := by
  have hrecord : ∀ {payload now} {s : State}, (∀ e ∈ s.ledger, 0 < e.seq) →
      ∀ e ∈ (record payload now s).ledger, 0 < e.seq := by
    intro payload now s hs e he
    rcases List.mem_append.mp he with he | he
    · exact hs e he
    · rw [List.mem_singleton.mp he]
      exact Nat.succ_pos _
  have hintakes : ∀ {owner now} (msgs : List Message) {s : State}, (∀ e ∈ s.ledger, 0 < e.seq) →
      ∀ e ∈ (msgs.foldl (intake_tx a owner now) s).ledger, 0 < e.seq := by
    intro owner now msgs
    induction msgs with
    | nil => exact fun hs => hs
    | cons m msgs ih => exact fun hs => ih (hrecord hs)
  induction ts using List.reverseRecOn with
  | nil => simp [run, empty]
  | append_singleton ts t ih =>
    unfold run at *
    rw [List.foldl_append]
    cases t with
    | receive message owner now => exact hintakes _ (hrecord ih)
    | catch_up messages owner now => exact hintakes _ ih
    | other now => exact hrecord ih

/-! ## Which records are shown -/

theorem Inv.same {s : State} (h : Inv s) {e f : Event} (he : e ∈ s.ledger) (hf : f ∈ s.ledger)
    (hseq : e.seq = f.seq) : e = f := by
  have hnodup : (s.ledger.map (·.seq)).Nodup :=
    List.pairwise_map.mpr (h.sorted.imp fun hlt => hlt.ne)
  exact List.inj_on_of_nodup_map hnodup he hf hseq

theorem FirstOf.same {s : State} (h : Inv s) {e f : Event} {m m' : Message}
    (he : FirstOf s.ledger e m) (hf : FirstOf s.ledger f m') (hk : m.key = m'.key) :
    e = f ∧ m = m' := by
  have hseq : e.seq = f.seq :=
    le_antisymm (he.least f hf.mem m' hf.arrival hk.symm) (hf.least e he.mem m he.arrival hk)
  obtain rfl := h.same he.mem hf.mem hseq
  exact ⟨rfl, Option.some_inj.mp (he.arrival.symm.trans hf.arrival)⟩

/-- A record is shown when it is the first arrival of its message, or comes under an event id that
the message is not kept under. -/
theorem first_iff (hc : a.Contract) {s : State} (hids : Identifies s.ledger) (h : Inv s)
    {e f : Event} {m mf : Message} (he : e ∈ s.ledger) (ha : e.arrival = some m)
    (hf : FirstOf s.ledger f mf) (hk : mf.key = m.key) :
    first a s m.event_id e.seq e.time = true ↔ e = f ∨ m.event_id ≠ mf.event_id := by
  have hrow : ∃ r ∈ s.messages, r.key = m.key ∧ r.event_id = mf.event_id ∧
      r.received_at = f.time := by
    obtain ⟨r, hr, hrk⟩ := h.kept e he m ha
    obtain ⟨g, mg, hg, hgid, hgk, hgt⟩ := h.row r hr
    obtain ⟨rfl, rfl⟩ := hg.same h hf (by rw [hk, hgk, hrk])
    exact ⟨r, hr, hrk, hgid.symm, hgt.symm⟩
  obtain ⟨r, hr, hrk, hrid, hrt⟩ := hrow
  unfold first
  by_cases hid : m.event_id = mf.event_id
  · rw [hid, ← hrid, hc.received s.messages h.ids r hr, hrt]
    simp only [ne_eq, hrid, not_true_eq_false, or_false]
    constructor
    · intro hfirst
      by_contra hne
      split at hfirst
      · cases hfirst
      next htime =>
        have hlt : f.seq < e.seq := by
          refine lt_of_le_of_ne (hf.least e he m ha hk.symm) fun hseq => hne ?_
          exact h.same he hf.mem hseq.symm
        have hrecent := (hc.recent s.ledger mf.event_id e.seq e.time).mpr
          ⟨f, hf.mem, takes_iff.mpr ⟨mf, hf.arrival, rfl⟩, by simpa using htime, hlt⟩
        rw [hrecent] at hfirst
        cases hfirst
    · rintro rfl
      rw [if_neg (by simp), Bool.not_eq_true']
      by_contra hrecent
      obtain ⟨g, hg, htakes, -, hlt⟩ := (hc.recent _ _ _ _).mp (by simpa using hrecent)
      obtain ⟨mg, hga, hgid⟩ := takes_iff.mp htakes
      have hgk : mg.key = mf.key := hids g hg e hf.mem mg mf hga hf.arrival hgid
      have := hf.least g hg mg hga hgk
      omega
  · -- No row is kept under this event id, since the id names this message only.
    rw [hc.not_received s.messages m.event_id]
    · simp [hid]
    · intro x hx hxid
      obtain ⟨g, mg, hg, hgid, hgk, -⟩ := h.row x hx
      have hmk : mg.key = m.key := hids g hg.mem e he mg m hg.arrival ha (hgid.trans hxid)
      have hxr : x.key = r.key := by rw [← hgk, hmk, hrk]
      obtain ⟨g', mg', hg', hgid', hgk', -⟩ := h.row r hr
      obtain ⟨rfl, rfl⟩ := hg.same h hg' (by rw [hgk', hgk, hxr])
      exact hid (by rw [← hxid, ← hgid, hgid', hrid])

/-! ## The events of one message -/

theorem countP_eq_one_iff {l : List Event} (hl : l.Nodup) {p : Event → Bool} {f : Event}
    (hf : f ∈ l) (hp : p f = true) : l.countP p = 1 ↔ ∀ e ∈ l, p e = true → e = f := by
  rw [List.countP_eq_length_filter]
  have hmem : f ∈ l.filter p := List.mem_filter.mpr ⟨hf, hp⟩
  constructor
  · intro hone e he hpe
    obtain ⟨x, hx⟩ := List.length_eq_one_iff.mp hone
    have he' : e ∈ l.filter p := List.mem_filter.mpr ⟨he, hpe⟩
    rw [hx, List.mem_singleton] at he' hmem
    rw [he', hmem]
  · intro hall
    refine Nat.le_antisymm ?_ (List.length_pos_of_mem hmem)
    have hsub : l.filter p ⊆ [f] := fun e he => by
      rw [List.mem_singleton]
      exact hall e (List.mem_filter.mp he).1 (List.mem_filter.mp he).2
    exact (List.subperm_of_subset (hl.filter p) hsub).length_le

/-- The record is of the message `k` and is shown. -/
def shows (a : Store) (s : State) (k : Key) (e : Event) : Bool :=
  match e.arrival with
  | some m => decide (m.key = k) && first a s m.event_id e.seq e.time
  | none => false

theorem countP_project (names : Names) (s : State) (k : Key) (l : List Event) :
    (l.filterMap (project a names s)).countP (·.key = k) = l.countP (shows a s k) := by
  rw [List.countP_filterMap]
  refine List.countP_congr fun e _ => ?_
  unfold project shows Event.arrival
  cases e.payload with
  | other => simp
  | intake m owner =>
    dsimp only
    cases hf : first a s m.event_id e.seq e.time with
    | true =>
      simp [MessageEvent.key, Message.key]
      rfl
    | false => simp

theorem exists_firstOf {s : State} (h : Inv s) {e : Event} {m : Message} (he : e ∈ s.ledger)
    (ha : e.arrival = some m) : ∃ f mf, FirstOf s.ledger f mf ∧ mf.key = m.key := by
  obtain ⟨r, hr, hrk⟩ := h.kept e he m ha
  obtain ⟨f, mf, hf, -, hfk, -⟩ := h.row r hr
  exact ⟨f, mf, hf, hfk.trans hrk⟩

theorem count_shows_iff (hc : a.Contract) {s : State} (hids : Identifies s.ledger) (h : Inv s)
    {f : Event} {mf : Message} (hf : FirstOf s.ledger f mf) :
    s.ledger.countP (shows a s mf.key) = 1 ↔
      ∀ e ∈ s.ledger, ∀ m, e.arrival = some m → m.key = mf.key → m.event_id = mf.event_id := by
  have hnodup : s.ledger.Nodup := h.sorted.imp fun hlt heq => absurd (heq ▸ hlt) (lt_irrefl _)
  have hshow : ∀ e ∈ s.ledger, ∀ m, e.arrival = some m → m.key = mf.key →
      (shows a s mf.key e = true ↔ e = f ∨ m.event_id ≠ mf.event_id) := by
    intro e he m ha hk
    unfold shows
    rw [ha]
    simpa [hk] using first_iff hc hids h he ha hf hk.symm
  rw [countP_eq_one_iff hnodup hf.mem ((hshow f hf.mem mf hf.arrival rfl).mpr (.inl rfl))]
  constructor
  · intro hone e he m ha hk
    by_contra hid
    obtain rfl := hone e he ((hshow e he m ha hk).mpr (.inr hid))
    exact hid (congrArg _ (Option.some_inj.mp (ha.symm.trans hf.arrival)))
  · intro hsame e he hshown
    unfold shows at hshown
    split at hshown
    next m ha =>
      have hk : m.key = mf.key := by simp at hshown; exact hshown.1
      have hshown : shows a s mf.key e = true := by unfold shows; rw [ha]; exact hshown
      exact ((hshow e he m ha hk).mp hshown).resolve_right (not_not_intro (hsame e he m ha hk))
    next => cases hshown

/-- **Each message has one event exactly when it arrives under one event id.** The ids themselves
name one message each, as the delivery of an envelope repeats its message. -/
theorem one_event_iff (hc : a.Contract) (names : Names) (ts : List Transaction) (limit : Nat)
    (hids : ∀ m ∈ arrivals ts, ∀ m' ∈ arrivals ts, m.event_id = m'.event_id → m.key = m'.key) :
    (∀ k ∈ (arrivals ts).map Message.key,
        (follow a names (run a ts) limit ((run a ts).ledger.length + 1) 0).countP
          (·.key = k) = 1) ↔
      ∀ m ∈ arrivals ts, ∀ m' ∈ arrivals ts, m.key = m'.key → m.event_id = m'.event_id := by
  have hids' : Identifies (run a ts).ledger := by rwa [identifies_iff, run_arrivals]
  have h := run_inv hc hids'
  have hall : (run a ts).ledger.filter (0 < ·.seq) = (run a ts).ledger :=
    List.filter_eq_self.mpr fun e he => by simpa using run_pos ts e he
  have hcount : ∀ k, (follow a names (run a ts) limit ((run a ts).ledger.length + 1) 0).countP
      (·.key = k) = (run a ts).ledger.countP (shows a (run a ts) k) := by
    intro k
    rw [follow_from hc names h.sorted limit (by rw [hall]; omega), hall, countP_project]
  simp only [hcount]
  constructor
  · intro hone m hm m' hm' hk
    rw [← run_arrivals (a := a)] at hm hm'
    obtain ⟨e, he, hem⟩ := List.mem_filterMap.mp hm
    obtain ⟨e', he', hem'⟩ := List.mem_filterMap.mp hm'
    obtain ⟨f, mf, hf, hfk⟩ := exists_firstOf h he hem
    have hmk : m.key ∈ (arrivals ts).map Message.key :=
      List.mem_map_of_mem (run_arrivals (a := a) ts ▸ hm)
    have hsame := (count_shows_iff hc hids' h hf).mp (hfk ▸ hone _ hmk)
    rw [hsame e he m hem hfk.symm, hsame e' he' m' hem' (by rw [hfk, hk])]
  · intro hsame k hk
    obtain ⟨m, hm, rfl⟩ := List.mem_map.mp hk
    rw [← run_arrivals (a := a)] at hm
    obtain ⟨e, he, hem⟩ := List.mem_filterMap.mp hm
    obtain ⟨f, mf, hf, hfk⟩ := exists_firstOf h he hem
    rw [← hfk, count_shows_iff hc hids' h hf]
    intro x hx mx hax hkx
    have harr : ∀ {y my}, y ∈ (run a ts).ledger → y.arrival = some my → my ∈ arrivals ts :=
      fun hy hay => run_arrivals (a := a) ts ▸ List.mem_filterMap.mpr ⟨_, hy, hay⟩
    exact hsame mx (harr hx hax) mf (harr hf.mem hf.arrival) hkx

/-! ## A store in memory -/

def memory : Store where
  keep_message m rows :=
    if rows.all fun r => r.event_id != m.event_id && r.key != m.key then (true, rows ++ [m])
    else (false, rows)
  message_received_at rows event_id :=
    (rows.find? (·.event_id == event_id)).map (·.received_at)
  has_recent_intake ledger event_id seq time :=
    ledger.any fun e => decide (e.takes event_id) && decide (e.time = time) && decide (e.seq < seq)
  events_after ledger seq limit := (ledger.filter (seq < ·.seq)).take limit

theorem memory_contract : memory.Contract where
  inserted m rows := by
    unfold memory
    dsimp only
    split <;> simp_all
  row_inserted m rows := by
    unfold memory
    dsimp only
    split <;> simp
  row_kept m rows := by
    unfold memory
    dsimp only
    split <;> simp
  received rows hnodup r hr := by
    have hfind : rows.find? (·.event_id == r.event_id) = some r := by
      cases hf : rows.find? (·.event_id == r.event_id) with
      | none => simpa using List.find?_eq_none.mp hf r hr
      | some x =>
        have hid : x.event_id = r.event_id := by simpa using List.find?_some hf
        rw [List.inj_on_of_nodup_map hnodup (List.mem_of_find?_eq_some hf) hr hid]
    unfold memory
    dsimp only
    rw [hfind]
    rfl
  not_received rows event_id hnone := by
    have hfind : rows.find? (·.event_id == event_id) = none :=
      List.find?_eq_none.mpr fun r hr => by simpa using hnone r hr
    unfold memory
    dsimp only
    rw [hfind]
    rfl
  recent ledger event_id seq time := by
    unfold memory
    simp [and_assoc]
  after ledger seq limit := rfl

def hello (event_id source : String) : Message :=
  ⟨event_id, "T", "C", "1.0", none, "U", "hello", 0, source, none⟩

def nameless : Names := ⟨fun _ => none, fun _ => none⟩

/-- The catch-up reads once more what the socket brought. -/
def reread : List Transaction :=
  [.receive (some (hello "Ev1" "socket")) "U0" 10,
    .catch_up [hello "catchup:C:1.0" "catchup"] "U0" 20]

theorem one_event_iff_reread : ¬ ∀ k ∈ (arrivals reread).map Message.key,
    (follow memory nameless (run memory reread) 1000 ((run memory reread).ledger.length + 1)
      0).countP (·.key = k) = 1 := by
  rw [one_event_iff memory_contract nameless reread 1000 (by decide)]
  decide

theorem reread_two_events :
    memory.Contract ∧ ("T", "C", "1.0") ∈ (arrivals reread).map Message.key ∧
      (follow memory nameless (run memory reread) 1000 ((run memory reread).ledger.length + 1)
        0).countP (·.key = ("T", "C", "1.0")) = 2 :=
  ⟨memory_contract, by decide, by decide +kernel⟩

end Fridica.Control.Feed
