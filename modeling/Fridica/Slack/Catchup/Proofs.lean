import Fridica.Slack.Catchup.Spec

/-! # No message falls behind the watermark -/

open Fridica.Checked

namespace Fridica.Slack.Catchup

variable {o : Outside} {config : Config} {messages : Set String}

/-! ## Pages -/

theorem pages_succ {history : History} {channel : String} {oldest : ℚ} {root : Option String}
    {fuel : Nat} {cursor : Option String} {items : List Item} {size : Nat} {p : Pages}
    (h : pages history channel oldest root (fuel + 1) cursor items size = .ok p) :
    (∃ code, history ⟨channel, oldest, root, cursor⟩ = .ok (.error code) ∧ root.isSome = true ∧
      p.items = items) ∨
    ∃ r messages, history ⟨channel, oldest, root, cursor⟩ = .ok (.ok r) ∧
      r.messages = some messages ∧
      (cursor_of r.next_cursor = .ok none ∧
          p.items = items ++ messages.filter (fun v => v.ts.isSome) ∧
          p.complete = !r.has_more ∨
        ∃ c size, cursor_of r.next_cursor = .ok (some c) ∧
          pages history channel oldest root fuel (some c)
            (items ++ messages.filter fun v => v.ts.isSome) size = .ok p) := by
  simp only [pages, bind_ok] at h
  obtain ⟨page, hpage, h⟩ := h
  cases page with
  | error code =>
    dsimp only at h
    split at h
    next hroot =>
      rw [pure_ok] at h
      subst h
      exact .inl ⟨code, hpage, hroot, rfl⟩
    next => cases h
  | ok response =>
    simp only [bind_ok, refuse_ok] at h
    obtain ⟨-, -, h⟩ := h
    cases hmessages : response.messages with
    | none => simp [hmessages] at h
    | some messages =>
      simp only [hmessages, bind_ok] at h
      obtain ⟨next, hnext, h⟩ := h
      refine .inr ⟨response, messages, hpage, hmessages, ?_⟩
      cases next with
      | none =>
        simp only [pure_ok] at h
        subst h
        exact .inl ⟨hnext, rfl, rfl⟩
      | some c => exact .inr ⟨c, _, hnext, h⟩

theorem pages_prefix {history : History} {channel : String} {oldest : ℚ}
    {rest : Option String → List Item}
    (hpages : ∀ cursor r messages, history ⟨channel, oldest, none, cursor⟩ = .ok (.ok r) →
      r.messages = some messages → ∃ more, rest cursor = messages ++ more ∧
        (∀ c, cursor_of r.next_cursor = .ok (some c) → rest (some c) = more) ∧
        (cursor_of r.next_cursor = .ok none → r.has_more = false → more = []))
    {fuel : Nat} {cursor : Option String} {items : List Item} {size : Nat} {p : Pages}
    (h : pages history channel oldest none fuel cursor items size = .ok p) :
    ∃ read more, rest cursor = read ++ more ∧
      p.items = items ++ read.filter (fun v => v.ts.isSome) ∧ (p.complete → more = []) := by
  induction fuel generalizing cursor items size with
  | zero =>
    simp only [pages, pure_ok] at h
    subst h
    exact ⟨[], rest cursor, rfl, by simp, by simp⟩
  | succ fuel ih =>
    rcases pages_succ h with ⟨-, -, hroot, -⟩ | ⟨r, messages, hpage, hmessages, hnext⟩
    · cases hroot
    · obtain ⟨more, hrest, hcursor, hlast⟩ := hpages cursor r messages hpage hmessages
      rcases hnext with ⟨hnone, hitems, hwhole⟩ | ⟨c, size, hsome, h⟩
      · refine ⟨messages, more, hrest, hitems, fun hcomplete => hlast hnone ?_⟩
        rw [hwhole] at hcomplete
        simpa using hcomplete
      · obtain ⟨read, more', hmore, hitems, hcomplete⟩ := ih h
        rw [hcursor c hsome] at hmore
        refine ⟨messages ++ read, more', ?_, ?_, hcomplete⟩
        · rw [hrest, hmore, List.append_assoc]
        · rw [hitems, List.filter_append, List.append_assoc]

/-! ## One reading -/

/-- Every entry has the timestamp of an item. -/
def From (found : Found) (items : List Item) : Prop :=
  ∀ f ∈ found, ∃ item ∈ items, item.ts = some f.1

theorem From.mono {found : Found} {items more : List Item} (h : From found items) :
    From found (items ++ more) := by
  intro f hf
  obtain ⟨item, hitem, hts⟩ := h f hf
  exact ⟨item, List.mem_append_left _ hitem, hts⟩

theorem insert_from {found : Found} {items : List Item} (h : From found items) (item : Item) :
    From (found.insert item) (items ++ [item]) := by
  unfold Found.insert
  cases hts : item.ts with
  | none => exact h.mono
  | some ts =>
    intro f hf
    rcases List.mem_append.mp hf with hf | hf
    · exact h.mono f (List.mem_filter.mp hf).1
    · rw [List.mem_singleton.mp hf]
      exact ⟨item, by simp, hts⟩

theorem or_insert_from {found : Found} {items : List Item} (h : From found items) (root : String)
    (item : Item) : From (found.or_insert root item) (items ++ [item]) := by
  unfold Found.or_insert
  cases hts : item.ts with
  | none => exact h.mono
  | some ts =>
    simp only
    split
    · intro f hf
      rcases List.mem_append.mp hf with hf | hf
      · exact h.mono f hf
      · rw [List.mem_singleton.mp hf]
        exact ⟨item, by simp, hts⟩
    · exact h.mono

theorem foldl_from {add : Found → Item → Found}
    (hadd : ∀ found items item, From found items → From (add found item) (items ++ [item]))
    (new : List Item) {found : Found} {items : List Item} (h : From found items) :
    From (new.foldl add found) (items ++ new) := by
  induction new generalizing found items with
  | nil => simpa using h
  | cons item new ih =>
    rw [List.foldl_cons, List.append_cons]
    exact ih (hadd found items item h)

theorem read_thread_keeps {history : History} {channel root : String} {oldest : ℚ}
    {top : List Item} {whole : Bool} {t u : Threads}
    (ht : (t.complete → whole) ∧ From t.found (top ++ t.items))
    (h : read_thread o history channel oldest t root = .ok u) :
    (u.complete → whole) ∧ From u.found (top ++ u.items) := by
  unfold read_thread at h
  split at h
  · simp only [pure_ok] at h
    exact h ▸ ht
  · simp only [bind_ok, pure_ok] at h
    obtain ⟨p, -, rfl⟩ := h
    refine ⟨fun hc => ht.1 ?_, ?_⟩
    · simp only [Bool.and_eq_true] at hc
      exact hc.1
    · rw [← List.append_assoc]
      exact foldl_from (fun _ _ item h => or_insert_from h root item) p.items ht.2

theorem recent_ok {history : History} {channel : String} {s : Start} {r : Recent}
    (h : recent o history channel s = .ok r) :
    ∃ top, pages history channel s.oldest none PAGES none [] 0 = .ok top ∧
      r.history_items = top.items ∧ (r.complete → top.complete) ∧
      ∀ f ∈ r.kept, (∃ v, o.timestamp f.1 = some v ∧ s.oldest ≤ v) ∧
        ∃ item ∈ r.history_items ++ r.reply_items, item.ts = some f.1 := by
  unfold recent at h
  simp only [bind_ok, pure_ok] at h
  obtain ⟨top, htop, t, ht, rfl⟩ := h
  have hfound : From (top.items.foldl Found.insert []) ([] ++ top.items) :=
    foldl_from (fun _ _ item h => insert_from h item) top.items fun _ hf => by cases hf
  rw [List.nil_append] at hfound
  obtain ⟨hcomplete, hfrom⟩ := foldlM_keeps
    (fun t : Threads => (t.complete → top.complete) ∧ From t.found (top.items ++ t.items))
    (fun t root u hkeep hread => read_thread_keeps hkeep hread)
    ⟨fun hc => hc, by simpa using hfound⟩ ht
  refine ⟨top, htop, rfl, hcomplete, ?_⟩
  intro f hf
  rw [List.mem_insertionSort, List.mem_filter] at hf
  obtain ⟨hmem, hts⟩ := hf
  rw [Option.any_eq_true] at hts
  obtain ⟨v, hv, hle⟩ := hts
  exact ⟨⟨v, hv, by simpa using hle⟩, hfrom f hmem⟩

theorem lt_foldl_min (l : List ℚ) (a v : ℚ) : v < l.foldl min a ↔ v < a ∧ ∀ w ∈ l, v < w := by
  induction l generalizing a with
  | nil => simp
  | cons x l ih =>
    rw [List.foldl_cons, ih, lt_min_iff]
    simp [and_assoc]

/-! ## One pass -/

theorem run_ok {w : Watermark} {p : Pass} {c : Committed} (h : run o config w p = .ok c) :
    ∃ r, recent o p.history config.channel (start w p) = .ok r ∧
      c = commit o config w p (start w p) r := by
  unfold run at h
  simp only [bind_ok, pure_ok] at h
  obtain ⟨-, -, r, hr, -, -, rfl⟩ := h
  exact ⟨r, hr, rfl⟩

/-- A pass returns a message from its start on, or was cut short among newer ones. -/
theorem returned_or_older {w : Watermark} {p : Pass} {c : Committed}
    {rest : Option String → List Item} (h : run o config w p = .ok c)
    (hslack : Honest o config.channel messages p c.oldest rest) {ts : String} (hts : ts ∈ messages)
    {v : ℚ} (hv : o.timestamp ts = some v) (hle : c.oldest ≤ v) (hnow : v ≤ p.now) :
    (∃ item ∈ c.read.history_items, item.ts = some ts) ∨
      (c.complete = false ∧ ∀ item ∈ c.read.history_items, ∀ t u, item.ts = some t →
        o.timestamp t = some u → v < u) := by
  obtain ⟨r, hr, rfl⟩ := run_ok h
  obtain ⟨top, htop, hitems, hcomplete, -⟩ := recent_ok hr
  obtain ⟨read, more, hrest, htopitems, hwhole⟩ := pages_prefix hslack.pages htop
  rw [List.nil_append] at htopitems
  obtain ⟨item, hitem, hitemts⟩ := hslack.all ts hts v hv hle hnow
  rw [hrest] at hitem
  rcases List.mem_append.mp hitem with hread | hmore
  · refine .inl ⟨item, ?_, hitemts⟩
    show item ∈ r.history_items
    rw [hitems, htopitems, List.mem_filter]
    exact ⟨hread, by rw [hitemts]; rfl⟩
  · refine .inr ⟨?_, ?_⟩
    · show r.complete = false
      by_contra hc
      rw [hwhole (hcomplete (by simpa using hc))] at hmore
      cases hmore
    · intro newer hnewer t u ht hu
      have hnewer : newer ∈ r.history_items := hnewer
      rw [hitems, htopitems, List.mem_filter] at hnewer
      have horder := hslack.newest_first
      rw [hrest, List.pairwise_append] at horder
      exact horder.2.2 newer hnewer.1 item hmore t ts u v ht hitemts hu hv

theorem lt_before {w : Watermark} {p : Pass} {c : Committed} (h : run o config w p = .ok c)
    (hreplies : RepliesNewer o c) {v : ℚ} (hnow : v < p.now)
    (hnewer : ∀ item ∈ c.read.history_items, ∀ t u, item.ts = some t → o.timestamp t = some u →
      v < u) : v < first_read o p.now c.read.kept := by
  obtain ⟨r, hr, rfl⟩ := run_ok h
  obtain ⟨-, -, -, -, hkept⟩ := recent_ok hr
  unfold first_read
  rw [lt_foldl_min]
  refine ⟨hnow, ?_⟩
  intro u hu
  obtain ⟨f, hf, hfu⟩ := List.mem_filterMap.mp hu
  obtain ⟨⟨u', hu', hle⟩, item, hitem, hts⟩ := hkept f hf
  rw [hfu] at hu'
  cases hu'
  rcases List.mem_append.mp hitem with hitem | hitem
  · exact hnewer item hitem f.1 u hts hfu
  · obtain ⟨top, htop, t, u', ht, hu', hle'⟩ := hreplies item hitem f.1 u hts hfu hle
    exact (hnewer top htop t u' ht hu').trans_le hle'

/-- What a committed pass does to the watermark: it goes to the clock when everything was read, and
at the second truncated pass, which leaves a gap note; the first one leaves it where it is. -/
theorem commit_cases {w : Watermark} {p : Pass} {c : Committed} (h : run o config w p = .ok c) :
    c.oldest = (start w p).oldest ∧
    ((c.complete ∧ c.watermark = ⟨some p.now, some 0⟩ ∧ c.gap = none) ∨
      (c.complete = false ∧ w.truncated_passes.getD 0 = 0 ∧
        c.watermark = ⟨some (w.mark.getD (c.oldest + OVERLAP)), some 1⟩ ∧ c.gap = none) ∨
      (c.complete = false ∧ 0 < w.truncated_passes.getD 0 ∧
        c.watermark = ⟨some p.now, some 0⟩ ∧
        ∃ n, c.gap = some ⟨c.oldest, first_read o p.now c.read.kept, n⟩)) := by
  obtain ⟨r, -, rfl⟩ := run_ok h
  refine ⟨rfl, ?_⟩
  cases hcomplete : r.complete with
  | true => exact .inl ⟨hcomplete, by simp [commit, hcomplete], by simp [commit, hcomplete]⟩
  | false =>
    rcases Nat.eq_zero_or_pos (w.truncated_passes.getD 0) with hruns | hruns
    · exact .inr (.inl ⟨hcomplete, hruns, by simp [commit, hcomplete, hruns],
        by simp [commit, hcomplete, hruns]⟩)
    · have htwo : 1 < w.truncated_passes.getD 0 + 1 := by omega
      have htwo' : ¬ w.truncated_passes.getD 0 + 1 < 2 := by omega
      refine .inr (.inr ⟨hcomplete, hruns, ?_, w.truncated_passes.getD 0 + 1, ?_⟩)
      · simp [commit, hcomplete, htwo', show 2 ≤ w.truncated_passes.getD 0 + 1 by omega]
      · simp [commit, hcomplete, show 2 ≤ w.truncated_passes.getD 0 + 1 by omega]

theorem start_oldest_le (bound : ℚ) {w : Watermark} {p : Pass} {mark : ℚ}
    (hmark : w.mark = some mark)
    (hpast : p.now - MAX_WINDOW ≤ bound) (hback : mark - OVERLAP ≤ bound) :
    (start w p).oldest ≤ bound := by
  unfold start
  rw [hmark, Option.some_or]
  exact max_le ((min_le_right _ _).trans hback) hpast

/-! ## Sequences of passes -/

structure Inv (o : Outside) (messages : Set String) (s : State) : Prop where
  fresh : s.passes = 0 → s.watermark = ⟨none, none⟩
  marked : 0 < s.passes → ∃ mark, s.watermark.mark = some mark
  pin : s.pinned → s.watermark.mark = some (s.first + OVERLAP)
  none_lost : 0 < s.passes → ¬ s.pinned → NoneLost o messages s

theorem Covered.after {s : State} {ts : String} {v : ℚ} (h : Covered s ts v) (c : Committed) :
    Covered (s.after c) ts v := by
  rcases h with ⟨item, hitem, hts⟩ | ⟨g, hg, hrange⟩
  · refine .inl ⟨item, ?_, hts⟩
    simp only [State.after, List.mem_append]
    exact .inl (.inl hitem)
  · exact .inr ⟨g, List.mem_append_left _ hg, hrange⟩

/-- A pass that moves the watermark to its clock covers everything from its own start. -/
theorem covered_by {s : State} {p : Pass} {c : Committed} {rest : Option String → List Item}
    (h : run o config s.watermark p = .ok c)
    (hslack : Honest o config.channel messages p c.oldest rest) (hregular : Regular o s p c)
    (hmoved : c.complete ∨ ∃ n, c.gap = some ⟨c.oldest, first_read o p.now c.read.kept, n⟩)
    {ts : String} (hts : ts ∈ messages) {v : ℚ} (hv : o.timestamp ts = some v)
    (hle : c.oldest ≤ v) (hnow : v < p.now) : Covered (s.after c) ts v := by
  rcases returned_or_older h hslack hts hv hle hnow.le with ⟨item, hitem, hitemts⟩ | ⟨hcut, hnewer⟩
  · refine .inl ⟨item, ?_, hitemts⟩
    simp only [State.after, List.mem_append]
    exact .inl (.inr hitem)
  · rcases hmoved with hcomplete | ⟨n, hgap⟩
    · rw [hcut] at hcomplete
      cases hcomplete
    · have hreplies := hregular.2 (by rw [hgap]; rfl)
      have hbefore := lt_before h hreplies hnow hnewer
      refine .inr ⟨⟨c.oldest, first_read o p.now c.read.kept, n⟩, ?_, hle, hbefore⟩
      simp [State.after, hgap]

theorem inv_pass {s : State} {p : Pass} {c : Committed} {rest : Option String → List Item}
    (hs : Inv o messages s) (h : run o config s.watermark p = .ok c)
    (hslack : Honest o config.channel messages p c.oldest rest) (hregular : Regular o s p c) :
    Inv o messages (s.after c) := by
  obtain ⟨holdest, hcases⟩ := commit_cases h
  have hcovered := fun hmoved ts (hts : ts ∈ messages) v hv =>
    covered_by h hslack hregular hmoved hts (v := v) hv
  refine ⟨fun h0 => absurd h0 (Nat.succ_ne_zero _), fun _ => ?_, ?_, fun _ hpin => ?_⟩
  · rcases hcases with ⟨-, hw, -⟩ | ⟨-, -, hw, -⟩ | ⟨-, -, hw, -⟩ <;>
      exact ⟨_, by rw [State.after, hw]⟩
  · -- Only a first pass pins the watermark to its own start.
    rintro ⟨hone, htruncated⟩
    have hzero : s.passes = 0 := by
      simpa [State.after] using hone
    have hfresh := hs.fresh hzero
    rcases hcases with ⟨-, hw, -⟩ | ⟨-, -, hw, -⟩ | ⟨-, hruns, -⟩
    · simp [State.after, hw] at htruncated
    · simp [State.after, hw, hfresh, hzero]
    · simp [hfresh] at hruns
  · intro ts hts v mark hv hmark hfirst hlt
    rcases Nat.eq_zero_or_pos s.passes with hzero | hpos
    · -- The first pass: it is complete, or it is the pin.
      rcases hcases with ⟨hcomplete, hw, -⟩ | ⟨-, -, hw, -⟩ | ⟨-, hruns, -⟩
      · simp only [State.after, hw, Option.some.injEq] at hmark
        simp only [State.after, hzero, if_true] at hfirst
        exact hcovered (.inl hcomplete) ts hts v hv hfirst (hmark ▸ hlt)
      · exact absurd ⟨by simp [State.after, hzero], by simp [State.after, hw]⟩ hpin
      · simp [hs.fresh hzero] at hruns
    · obtain ⟨old, hold⟩ := hs.marked hpos
      have hfirst : s.first ≤ v := by
        simpa [State.after, Nat.pos_iff_ne_zero.mp hpos] using hfirst
      obtain ⟨hpast, hpast'⟩ := hregular.1 old hold
      -- Everything below the old watermark is covered, or read again from the first start.
      have hbelow : Covered s ts v ∨ c.oldest ≤ v := by
        by_cases hpinned : s.pinned
        · have hback := hs.pin hpinned
          rw [hold, Option.some.injEq] at hback
          have hle := start_oldest_le (old - OVERLAP) hold (hpast' hpinned) le_rfl
          right
          rw [holdest]
          linarith
        · by_cases hvold : v < old
          · exact .inl (hs.none_lost hpos hpinned ts hts v old hv hold hfirst hvold)
          · have hoverlap : old - OVERLAP ≤ old := by
              unfold OVERLAP
              linarith
            have hle := start_oldest_le old hold hpast hoverlap
            right
            rw [holdest]
            exact hle.trans (not_lt.mp hvold)
      rcases hbelow with hcov | hle
      · exact hcov.after c
      · rcases hcases with ⟨hcomplete, hw, -⟩ | ⟨-, hruns, hw, -⟩ | ⟨-, -, hw, hgap⟩
        · simp only [State.after, hw, Option.some.injEq] at hmark
          exact hcovered (.inl hcomplete) ts hts v hv hle (hmark ▸ hlt)
        · -- A first truncation leaves the watermark where it was.
          simp only [State.after, hw, hold, Option.getD_some, Option.some.injEq] at hmark
          have hfree : ¬ s.pinned := fun hp => by simp [hp.2] at hruns
          exact (hs.none_lost hpos hfree ts hts v old hv hold hfirst (hmark ▸ hlt)).after c
        · simp only [State.after, hw, Option.some.injEq] at hmark
          exact hcovered (.inr hgap) ts hts v hv hle (hmark ▸ hlt)

theorem reach_inv {s : State} (h : Reach o config messages (Regular o) s) : Inv o messages s := by
  refine h.invariant ?_ ?_
  · rintro _ rfl
    refine ⟨fun _ => rfl, fun h => absurd h (lt_irrefl 0), ?_, fun h => absurd h (lt_irrefl 0)⟩
    rintro ⟨h, -⟩
    cases h
  · rintro s t _ hs ⟨hrun, hslack, hregular⟩
    exact inv_pass hs hrun hslack hregular

/-- **Nothing is lost behind the watermark**, once it is no longer the pin of a truncated first
pass. -/
theorem watermark_covers {s : State} (h : Reach o config messages (Regular o) s) (hpin : ¬ s.pinned) :
    NoneLost o messages s := by
  rcases Nat.eq_zero_or_pos s.passes with hzero | hpos
  · intro ts hts v mark hv hmark
    rw [(reach_inv h).fresh hzero] at hmark
    cases hmark
  · exact (reach_inv h).none_lost hpos hpin

section Example

def room : Config := ⟨"CROOM", "UOWNER"⟩

def early : Item := ⟨some "6430.000000", 0, "First"⟩

def late : Item := ⟨some "9000.000000", 0, "Second"⟩

def stamps : Outside where
  timestamp s :=
    if s = "6430.000000" then some 6430 else if s = "9000.000000" then some 9000 else none
  normalize _ := true

def written : Set String := {"6430.000000", "9000.000000"}

def reading (now : ℚ) (whole : Bool) : Pass where
  now := now
  window := 3600
  latest := none
  recent_thread_roots _ := []
  history _ := .ok (.ok ⟨some (if whole then [late, early] else [late]), .null, !whole, 100⟩)

theorem reading_honest (now : ℚ) (whole : Bool) (oldest : ℚ) :
    Honest stamps "CROOM" written (reading now whole) oldest fun _ => [late, early] where
  all ts hts _ _ _ _ := by
    rcases hts with rfl | rfl
    · exact ⟨early, by simp, rfl⟩
    · exact ⟨late, by simp, rfl⟩
  newest_first := by
    rw [List.pairwise_pair]
    rintro s t v w ⟨⟩ ⟨⟩ hv hw
    have hv' : stamps.timestamp "9000.000000" = some 9000 := by decide +kernel
    have hw' : stamps.timestamp "6430.000000" = some 6430 := by decide +kernel
    rw [hv'] at hv
    rw [hw'] at hw
    cases hv
    cases hw
    norm_num
  pages cursor r ms hr hms := by
    cases hr
    cases hms
    cases whole with
    | true => exact ⟨[], by simp, fun c hc => (by cases hc), fun _ _ => rfl⟩
    | false => exact ⟨[early], by simp, fun c hc => (by cases hc), fun _ hmore => by cases hmore⟩

/-- What a pass reads and leaves, as far as the example needs it. -/
def seen (w : Watermark) (p : Pass) : Option (Watermark × ℚ × List Item × List Item × Bool) :=
  (run stamps room w p).toOption.map fun c =>
    (c.watermark, c.oldest, c.read.history_items, c.read.reply_items, c.gap.isNone)

theorem run_of_seen {w : Watermark} {p : Pass}
    {x : Watermark × ℚ × List Item × List Item × Bool} (h : seen w p = some x) :
    ∃ c, run stamps room w p = .ok c ∧
      (c.watermark, c.oldest, c.read.history_items, c.read.reply_items, c.gap.isNone) = x := by
  unfold seen at h
  obtain ⟨c, hc, rfl⟩ := Option.map_eq_some_iff.mp h
  cases hrun : run stamps room w p with
  | error e => rw [hrun] at hc; cases hc
  | ok c' =>
    rw [hrun] at hc
    cases hc
    exact ⟨c, rfl, rfl⟩

theorem seen_first : seen fresh.watermark (reading 10000 false) =
    some (⟨some 6460, some 1⟩, 6400, [late], [], true) := by
  decide +kernel

/-- A truncated first pass leaves its pin `OVERLAP` past its start, above a message it did not
return. -/
theorem pin_broken : ∃ s, Reach stamps room written
    (fun s p c => Recently s p ∧ RepliesNewer stamps c) s ∧ s.first = 6400 ∧
      s.watermark.mark = some 6460 ∧ s.gaps = [] ∧ s.returned = [late] ∧
      ¬ NoneLost stamps written s := by
  obtain ⟨c, hrun, hseen⟩ := run_of_seen seen_first
  simp only [Prod.mk.injEq, Option.isNone_iff_eq_none] at hseen
  obtain ⟨hw, holdest, hitems, hreplies, hgap⟩ := hseen
  have hreturned : (fresh.after c).returned = [late] := by
    simp [State.after, fresh, hitems, hreplies]
  have hgaps : (fresh.after c).gaps = [] := by simp [State.after, fresh, hgap]
  refine ⟨fresh.after c, .step (.start rfl) (.pass hrun (reading_honest _ _ _) ⟨?_, ?_⟩),
    holdest, by rw [State.after, hw], hgaps, hreturned, ?_⟩
  · intro mark hmark
    cases hmark
  · intro item hitem
    rw [hreplies] at hitem
    cases hitem
  · intro hnone
    rcases hnone "6430.000000" (.inl rfl) 6430 6460 (by decide +kernel)
        (by rw [State.after, hw]) (by rw [State.after, holdest]; norm_num [fresh]) (by norm_num)
      with ⟨item, hitem, hts⟩ | ⟨g, hg, -⟩
    · rw [hreturned, List.mem_singleton] at hitem
      subst hitem
      revert hts
      decide
    · rw [hgaps] at hg
      cases hg

theorem seen_second : seen ⟨some 6460, some 1⟩ (reading 10600 true) =
    some (⟨some 10600, some 0⟩, 6400, [late, early], [], true) := by
  decide +kernel

/-- The pass after the pinned one reads on from the same start. -/
theorem watermark_covers_second : ∃ s, s.watermark.mark = some 10600 ∧ s.first = 6400 ∧
    NoneLost stamps written s := by
  obtain ⟨c, hrun, hseen⟩ := run_of_seen seen_first
  simp only [Prod.mk.injEq, Option.isNone_iff_eq_none] at hseen
  obtain ⟨hw, holdest, -, hreplies, hgap⟩ := hseen
  have hfirst : Reach stamps room written (Regular stamps) (fresh.after c) :=
    .step (.start rfl) (.pass hrun (reading_honest _ _ _)
      ⟨fun mark hmark => (by cases hmark), fun h => by simp [hgap] at h⟩)
  obtain ⟨c', hrun', hseen'⟩ := run_of_seen seen_second
  simp only [Prod.mk.injEq, Option.isNone_iff_eq_none] at hseen'
  obtain ⟨hw', -, -, -, hgap'⟩ := hseen'
  have hshort : Short (fresh.after c) (reading 10600 true) := by
    intro mark hmark
    rw [State.after, hw] at hmark
    cases hmark
    exact ⟨by norm_num [reading, MAX_WINDOW], fun _ => by norm_num [reading, MAX_WINDOW, OVERLAP]⟩
  have hsecond : Reach stamps room written (Regular stamps) ((fresh.after c).after c') :=
    hfirst.step (.pass (by rw [State.after, hw]; exact hrun') (reading_honest _ _ _)
      ⟨hshort, fun h => by simp [hgap'] at h⟩)
  refine ⟨_, by rw [State.after, hw'], ?_, watermark_covers hsecond ?_⟩
  · simp [State.after, fresh, holdest]
  · rintro ⟨-, htruncated⟩
    simp [State.after, hw'] at htruncated

end Example

end Fridica.Slack.Catchup
