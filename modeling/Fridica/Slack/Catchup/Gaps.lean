import Fridica.Slack.Catchup.Proofs

/-!
# The range of a gap note

A gap note ends at the oldest message that its pass read, of the channel and its threads together.
The channel is read from its newest message down and a thread from its oldest up, so the range can
miss what either leaves unread.
-/

open Fridica.Checked

namespace Fridica.Slack.Catchup

/-! ## What Slack answers -/

/-- The items of the pages that are asked for, with the number of pages still allowed. -/
def answered (history : History) (channel : String) (oldest : ℚ) (root : Option String) :
    Nat → Option String → List Item
  | 0, _ => []
  | fuel + 1, cursor =>
    match history ⟨channel, oldest, root, cursor⟩ with
    | .ok (.ok r) =>
      match r.messages with
      | none => []
      | some messages =>
        (messages.filter fun v => v.ts.isSome) ++
          match cursor_of r.next_cursor with
          | .ok (some c) => answered history channel oldest root fuel (some c)
          | _ => []
    | _ => []

def top_level (history : History) (channel : String) (oldest : ℚ) : List Item :=
  answered history channel oldest none PAGES none

def thread (history : History) (channel : String) (oldest : ℚ) (root : String) : List Item :=
  answered history channel oldest (some root) PAGES none

/-- The threads that are asked for: the recorded ones, and those that the channel shows. -/
def asked (o : Outside) (history : History) (channel : String) (s : Start) : List String :=
  (s.roots ++ (((top_level history channel s.oldest).foldl Found.insert []).filter
    fun f => f.2.reply_count > 0).map Prod.fst).filter fun root => (o.timestamp root).isSome

variable {o : Outside} {history : History} {channel : String} {oldest : ℚ}

theorem pages_items {root : Option String} {fuel : Nat} {cursor : Option String}
    {items : List Item} {size : Nat} {p : Pages}
    (h : pages history channel oldest root fuel cursor items size = .ok p) :
    p.items = items ++ answered history channel oldest root fuel cursor := by
  induction fuel generalizing cursor items size with
  | zero =>
    simp only [pages, pure_ok] at h
    subst h
    exact (List.append_nil _).symm
  | succ fuel ih =>
    rcases pages_succ h with ⟨code, hpage, -, hitems⟩ | ⟨r, messages, hpage, hmessages, hnext⟩
    · rw [answered, hpage, hitems]
      exact (List.append_nil _).symm
    · rw [answered, hpage]
      dsimp only
      rw [hmessages]
      dsimp only
      rcases hnext with ⟨hnone, hitems, -⟩ | ⟨c, size, hsome, h⟩
      · rw [hnone, hitems, List.append_nil]
      · rw [hsome, ih h, List.append_assoc]

/-! ## What a pass keeps -/

def Found.has (found : Found) (ts : String) : Prop := ∃ f ∈ found, f.1 = ts

theorem has_insert (found : Found) (item : Item) (ts : String) :
    (found.insert item).has ts ↔ found.has ts ∨ item.ts = some ts := by
  unfold Found.insert Found.has
  cases hts : item.ts with
  | none => simp
  | some t =>
    simp only [List.mem_append, List.mem_filter, List.mem_singleton, Option.some.injEq,
      decide_eq_true_eq]
    constructor
    · rintro ⟨f, ⟨hf, -⟩ | rfl, rfl⟩
      · exact .inl ⟨f, hf, rfl⟩
      · exact .inr rfl
    · rintro (⟨f, hf, rfl⟩ | rfl)
      · by_cases hne : f.1 = t
        · exact ⟨(t, item), .inr rfl, hne.symm⟩
        · exact ⟨f, .inl ⟨hf, hne⟩, rfl⟩
      · exact ⟨(t, item), .inr rfl, rfl⟩

theorem has_or_insert (found : Found) (root : String) (item : Item) (ts : String) :
    (found.or_insert root item).has ts ↔ found.has ts ∨ item.ts = some ts ∧ ts ≠ root := by
  unfold Found.or_insert Found.has
  cases hts : item.ts with
  | none => simp
  | some t =>
    simp only [Option.some.injEq]
    split
    next hnew =>
      simp only [List.mem_append, List.mem_singleton]
      constructor
      · rintro ⟨f, hf | rfl, rfl⟩
        · exact .inl ⟨f, hf, rfl⟩
        · exact .inr ⟨rfl, hnew.1⟩
      · rintro (⟨f, hf, rfl⟩ | ⟨rfl, -⟩)
        · exact ⟨f, .inl hf, rfl⟩
        · exact ⟨(t, item), .inr rfl, rfl⟩
    next hold =>
      constructor
      · exact .inl
      · rintro (hf | ⟨rfl, hroot⟩)
        · exact hf
        · by_contra hnone
          exact hold ⟨hroot, fun f hf hft => hnone ⟨f, hf, hft⟩⟩

theorem has_foldl {add : Found → Item → Found} {P : Item → String → Prop}
    (hadd : ∀ found item ts, (add found item).has ts ↔ found.has ts ∨ P item ts)
    (items : List Item) (found : Found) (ts : String) :
    (items.foldl add found).has ts ↔ found.has ts ∨ ∃ item ∈ items, P item ts := by
  induction items generalizing found with
  | nil => simp
  | cons item items ih =>
    rw [List.foldl_cons, ih, hadd]
    simp [or_assoc]

/-- A reply that a thread gives, other than its root. -/
def Gives (o : Outside) (history : History) (channel : String) (oldest : ℚ) (root ts : String) :
    Prop :=
  (o.timestamp root).isSome ∧ ts ≠ root ∧ ∃ item ∈ thread history channel oldest root,
    item.ts = some ts

theorem has_read_thread {t u : Threads} {root : String}
    (h : read_thread o history channel oldest t root = .ok u) (ts : String) :
    u.found.has ts ↔ t.found.has ts ∨ Gives o history channel oldest root ts := by
  unfold read_thread at h
  unfold Gives
  split at h
  next hnone =>
    rw [pure_ok] at h
    subst h
    simp_all
  next hsome =>
    simp only [bind_ok, pure_ok] at h
    obtain ⟨p, hp, rfl⟩ := h
    have hitems := pages_items hp
    rw [List.nil_append] at hitems
    rw [has_foldl (P := fun item ts => item.ts = some ts ∧ ts ≠ root)
      (fun found item ts => has_or_insert found root item ts), hitems]
    have hroot : (o.timestamp root).isSome = true := by
      cases hts : o.timestamp root <;> simp_all
    constructor
    · rintro (hf | ⟨item, hitem, hts, hne⟩)
      · exact .inl hf
      · exact .inr ⟨hroot, hne, item, hitem, hts⟩
    · rintro (hf | ⟨-, hne, item, hitem, hts⟩)
      · exact .inl hf
      · exact .inr ⟨item, hitem, hts, hne⟩

theorem has_foldlM {roots : List String} {t u : Threads}
    (h : roots.foldlM (read_thread o history channel oldest) t = .ok u) (ts : String) :
    u.found.has ts ↔ t.found.has ts ∨ ∃ root ∈ roots, Gives o history channel oldest root ts := by
  induction roots generalizing t with
  | nil =>
    rw [List.foldlM_nil, pure_ok] at h
    subst h
    simp
  | cons root roots ih =>
    rw [List.foldlM_cons, bind_ok] at h
    obtain ⟨t', ht', hrest⟩ := h
    rw [ih hrest, has_read_thread ht']
    simp [or_assoc]

theorem has_kept {s : Start} {r : Recent} (h : recent o history channel s = .ok r) (ts : String) :
    r.kept.has ts ↔ (∃ v, o.timestamp ts = some v ∧ s.oldest ≤ v) ∧
      ((∃ item ∈ top_level history channel s.oldest, item.ts = some ts) ∨
        ∃ root ∈ asked o history channel s, Gives o history channel s.oldest root ts) := by
  unfold recent at h
  simp only [bind_ok, pure_ok] at h
  obtain ⟨top, htop, t, ht, rfl⟩ := h
  have hitems := pages_items htop
  rw [List.nil_append] at hitems
  have hfound := has_foldlM ht ts
  rw [has_foldl (P := fun item ts => item.ts = some ts) has_insert, hitems] at hfound
  have hkept : ∀ kept : Found,
      Found.has (kept.insertionSort fun a b => a.1 ≤ b.1) ts ↔ Found.has kept ts := by
    intro kept
    unfold Found.has
    simp only [List.mem_insertionSort]
  have hfilter : Found.has (t.found.filter fun f => (o.timestamp f.1).any fun v => s.oldest ≤ v) ts ↔
      (∃ v, o.timestamp ts = some v ∧ s.oldest ≤ v) ∧ t.found.has ts := by
    unfold Found.has
    simp only [List.mem_filter, Option.any_eq_true, decide_eq_true_eq]
    constructor
    · rintro ⟨f, ⟨hf, hv⟩, rfl⟩
      exact ⟨hv, f, hf, rfl⟩
    · rintro ⟨hv, f, hf, rfl⟩
      exact ⟨f, ⟨hf, hv⟩, rfl⟩
  rw [hkept, hfilter, hfound]
  have hempty : ¬ Found.has [] ts := by
    rintro ⟨_, hf, -⟩
    cases hf
  have hroots : ∀ root, root ∈ asked o history channel s ∧
      Gives o history channel s.oldest root ts ↔
      root ∈ s.roots ++ (((top_level history channel s.oldest).foldl Found.insert []).filter
        fun f => f.2.reply_count > 0).map Prod.fst ∧
      Gives o history channel s.oldest root ts := by
    intro root
    unfold asked
    rw [List.mem_filter]
    exact ⟨fun h => ⟨h.1.1, h.2⟩, fun h => ⟨⟨h.1, h.2.1⟩, h.2⟩⟩
  simp only [hempty, false_or, List.mem_insertionSort, List.mem_dedup, hroots]
  rfl

/-! ## When the range has what was not read -/

/-- Slack's listing of a thread: its replies, the oldest first, given out page by page. Its root may
come anywhere. -/
structure HonestThread (o : Outside) (channel root : String) (replies : Set String) (p : Pass)
    (oldest : ℚ) (rest : Option String → List Item) : Prop where
  apart : root ∉ replies
  all : ∀ ts ∈ replies, ∀ v, o.timestamp ts = some v → oldest ≤ v → v ≤ p.now →
    ∃ item ∈ rest none, item.ts = some ts
  oldest_first : (rest none).Pairwise fun a b => ∀ s t v w, a.ts = some s → b.ts = some t →
    s ≠ root → t ≠ root → o.timestamp s = some v → o.timestamp t = some w → v < w
  pages : ∀ cursor r messages, p.history ⟨channel, oldest, some root, cursor⟩ = .ok (.ok r) →
    r.messages = some messages → ∃ more, rest cursor = messages ++ more ∧
      ∀ c, cursor_of r.next_cursor = .ok (some c) → rest (some c) = more

theorem answered_prefix {root : Option String} {rest : Option String → List Item}
    (hpages : ∀ cursor r messages, history ⟨channel, oldest, root, cursor⟩ = .ok (.ok r) →
      r.messages = some messages → ∃ more, rest cursor = messages ++ more ∧
        ∀ c, cursor_of r.next_cursor = .ok (some c) → rest (some c) = more)
    (fuel : Nat) (cursor : Option String) :
    ∃ read more, rest cursor = read ++ more ∧
      answered history channel oldest root fuel cursor = read.filter fun v => v.ts.isSome := by
  induction fuel generalizing cursor with
  | zero => exact ⟨[], rest cursor, rfl, rfl⟩
  | succ fuel ih =>
    rw [answered]
    split
    next r hr =>
      cases hmessages : r.messages with
      | none => exact ⟨[], rest cursor, rfl, rfl⟩
      | some messages =>
        obtain ⟨more, hrest, hcursor⟩ := hpages cursor r messages hr hmessages
        dsimp only
        split
        next c hc =>
          obtain ⟨read, more', hmore, hread⟩ := ih (some c)
          rw [hcursor c hc] at hmore
          refine ⟨messages ++ read, more', ?_, ?_⟩
          · rw [hrest, hmore, List.append_assoc]
          · rw [hread, List.filter_append]
        · exact ⟨messages, more, hrest, List.append_nil _⟩
    · exact ⟨[], rest cursor, rfl, rfl⟩

section Range

variable (o : Outside) (p : Pass) (channel : String) (s : Start)

/-- No page of the pass returned it. -/
def Unread (ts : String) : Prop :=
  (∀ item ∈ top_level p.history channel s.oldest, item.ts ≠ some ts) ∧
    ∀ root ∈ asked o p.history channel s, ∀ item ∈ thread p.history channel s.oldest root,
      item.ts ≠ some ts

/-- It lies in the window of the pass, and was left unread. -/
def Left (ts : String) (v : ℚ) : Prop :=
  o.timestamp ts = some v ∧ s.oldest ≤ v ∧ v < p.now ∧ Unread o p channel s ts

/-- A reply of the thread that the pass reads and keeps. -/
def ReadsReply (root ts : String) (v : ℚ) : Prop :=
  root ∈ asked o p.history channel s ∧ Gives o p.history channel s.oldest root ts ∧
    o.timestamp ts = some v ∧ s.oldest ≤ v

/-- A message of the channel or of a thread that the pass reads and keeps. -/
def Reads (ts : String) (v : ℚ) : Prop :=
  (o.timestamp ts = some v ∧ s.oldest ≤ v ∧
    ∃ item ∈ top_level p.history channel s.oldest, item.ts = some ts) ∨
  ∃ root, ReadsReply o p channel s root ts v

/-- Every message that was left unread lies in the range. -/
def RangeCovers (messages : Set String) (replies : String → Set String) (g : Gap) : Prop :=
  ∀ ts v, (ts ∈ messages ∨ ∃ root, ts ∈ replies root) → Left o p channel s ts v →
    g.oldest ≤ v ∧ v < g.before

/-- What the pass reads lies above what it leaves. -/
structure Fits (messages : Set String) (replies : String → Set String) : Prop where
  newer : ∀ ts v, ts ∈ messages → Left o p channel s ts v →
    ∀ root t u, ReadsReply o p channel s root t u → v < u
  whole : ∀ root ts v, ts ∈ replies root → Left o p channel s ts v →
    ∀ t u, ¬ ReadsReply o p channel s root t u
  apart : ∀ root ts v, ts ∈ replies root → Left o p channel s ts v →
    (∀ t u, ¬ ReadsReply o p channel s root t u) → ∀ t u, Reads o p channel s t u → v < u

end Range

variable {config : Config} {w : Watermark} {p : Pass} {c : Committed} {g : Gap}
  {messages : Set String} {replies : String → Set String}

theorem lt_before_iff (h : run o config w p = .ok c) (hg : c.gap = some g) {v : ℚ}
    (hnow : v < p.now) :
    v < g.before ↔ ∀ t u, Reads o p config.channel (start w p) t u → v < u := by
  obtain ⟨r, hr, rfl⟩ := run_ok h
  have hbefore : g.before = first_read o p.now r.kept := by
    unfold commit at hg
    dsimp only at hg
    split at hg
    · rw [← Option.some.inj hg]
    · cases hg
  rw [hbefore, first_read, lt_foldl_min]
  have hreads : ∀ t u, Reads o p config.channel (start w p) t u ↔
      r.kept.has t ∧ o.timestamp t = some u := by
    intro t u
    rw [has_kept hr]
    unfold Reads ReadsReply
    constructor
    · rintro (⟨hu, hle, htop⟩ | ⟨root, hroot, hgives, hu, hle⟩)
      · exact ⟨⟨⟨u, hu, hle⟩, .inl htop⟩, hu⟩
      · exact ⟨⟨⟨u, hu, hle⟩, .inr ⟨root, hroot, hgives⟩⟩, hu⟩
    · rintro ⟨⟨⟨u', hu', hle⟩, hsource⟩, hu⟩
      rw [hu] at hu'
      obtain rfl := Option.some.inj hu'
      rcases hsource with htop | ⟨root, hroot, hgives⟩
      · exact .inl ⟨hu, hle, htop⟩
      · exact .inr ⟨root, hroot, hgives, hu, hle⟩
  constructor
  · rintro ⟨-, hall⟩ t u hread
    obtain ⟨⟨f, hf, rfl⟩, hu⟩ := (hreads t u).mp hread
    exact hall u (List.mem_filterMap.mpr ⟨f, hf, hu⟩)
  · intro hall
    refine ⟨hnow, fun u hu => ?_⟩
    obtain ⟨f, hf, hu⟩ := List.mem_filterMap.mp hu
    exact hall f.1 u ((hreads f.1 u).mpr ⟨⟨f, hf, rfl⟩, hu⟩)

theorem top_newer {rest : Option String → List Item}
    (hslack : Honest o config.channel messages p (start w p).oldest rest) {ts t : String} {v u : ℚ}
    (hts : ts ∈ messages) (hleft : Left o p config.channel (start w p) ts v)
    (hu : o.timestamp t = some u)
    (ht : ∃ item ∈ top_level p.history config.channel (start w p).oldest, item.ts = some t) :
    v < u := by
  obtain ⟨hv, hle, hnow, hunread, -⟩ := hleft
  obtain ⟨read, more, hrest, hread⟩ := answered_prefix
    (fun cursor r ms hr hms => by
      obtain ⟨more, h1, h2, -⟩ := hslack.pages cursor r ms hr hms
      exact ⟨more, h1, h2⟩) PAGES none
  obtain ⟨item, hitem, hitemts⟩ := hslack.all ts hts v hv hle hnow.le
  obtain ⟨newer, hnewer, hnewerts⟩ := ht
  unfold top_level at hunread hnewer
  rw [hread] at hunread hnewer
  rw [hrest] at hitem
  rcases List.mem_append.mp hitem with hfront | hback
  · exact absurd hitemts
      (hunread item (List.mem_filter.mpr ⟨hfront, by rw [hitemts]; rfl⟩))
  · have horder := hslack.newest_first
    rw [hrest, List.pairwise_append] at horder
    exact horder.2.2 newer (List.mem_filter.mp hnewer).1 item hback t ts u v hnewerts hitemts hu hv

theorem thread_older {root : String} {rest : Option String → List Item}
    (hslack : HonestThread o config.channel root (replies root) p (start w p).oldest rest)
    {ts t : String} {v u : ℚ} (hts : ts ∈ replies root)
    (hleft : Left o p config.channel (start w p) ts v)
    (hread : ReadsReply o p config.channel (start w p) root t u) : u < v := by
  obtain ⟨hv, hle, hnow, -, hunread⟩ := hleft
  obtain ⟨hroot, ⟨-, hne, older, holder, holderts⟩, hu, -⟩ := hread
  have hunread := hunread root hroot
  obtain ⟨read, more, hrest, hanswered⟩ := answered_prefix hslack.pages PAGES none
  obtain ⟨item, hitem, hitemts⟩ := hslack.all ts hts v hv hle hnow.le
  unfold thread at hunread holder
  rw [hanswered] at hunread holder
  rw [hrest] at hitem
  rcases List.mem_append.mp hitem with hfront | hback
  · exact absurd hitemts
      (hunread item (List.mem_filter.mpr ⟨hfront, by rw [hitemts]; rfl⟩))
  · have horder := hslack.oldest_first
    rw [hrest, List.pairwise_append] at horder
    have htsroot : ts ≠ root := by
      rintro rfl
      exact hslack.apart hts
    exact horder.2.2 older (List.mem_filter.mp holder).1 item hback t ts u v holderts hitemts hne
      htsroot hu hv

/-- **A gap note's range has everything that its pass left unread exactly when** no reply that was
read is as old as a channel message that was not, and no thread is cut off among newer replies. -/
theorem gap_covers_iff {rest : Option String → List Item}
    {rests : String → Option String → List Item} (h : run o config w p = .ok c)
    (hg : c.gap = some g)
    (hslack : Honest o config.channel messages p (start w p).oldest rest)
    (hthreads : ∀ root, HonestThread o config.channel root (replies root) p (start w p).oldest
      (rests root)) :
    RangeCovers o p config.channel (start w p) messages replies g ↔
      Fits o p config.channel (start w p) messages replies := by
  have holdest : g.oldest = (start w p).oldest := by
    obtain ⟨r, -, rfl⟩ := run_ok h
    unfold commit at hg
    dsimp only at hg
    split at hg
    · rw [← Option.some.inj hg]
    · cases hg
  constructor
  · intro hcovers
    have hbelow : ∀ ts v, (ts ∈ messages ∨ ∃ root, ts ∈ replies root) →
        Left o p config.channel (start w p) ts v →
        ∀ t u, Reads o p config.channel (start w p) t u → v < u := by
      intro ts v hscope hleft
      exact (lt_before_iff h hg hleft.2.2.1).mp (hcovers ts v hscope hleft).2
    constructor
    · intro ts v hts hleft root t u hread
      exact hbelow ts v (.inl hts) hleft t u (.inr ⟨root, hread⟩)
    · intro root ts v hts hleft t u hread
      have habove := thread_older (hthreads root) hts hleft hread
      exact (hbelow ts v (.inr ⟨root, hts⟩) hleft t u (.inr ⟨root, hread⟩)).not_gt habove
    · intro root ts v hts hleft _
      exact hbelow ts v (.inr ⟨root, hts⟩) hleft
  · intro hfits ts v hscope hleft
    refine ⟨holdest.le.trans hleft.2.1, (lt_before_iff h hg hleft.2.2.1).mpr ?_⟩
    intro t u hread
    rcases hscope with hts | ⟨root, hts⟩
    · rcases hread with ⟨hu, -, htop⟩ | ⟨root, hread⟩
      · exact top_newer hslack hts hleft hu htop
      · exact hfits.newer ts v hts hleft root t u hread
    · exact hfits.apart root ts v hts hleft (hfits.whole root ts v hts hleft) t u hread

/-! ## A reply older than an unread message -/

section Example

def opening : Item := ⟨some "6410.000000", 1, "Topic"⟩

def between : Item := ⟨some "8000.000000", 0, "Left unread"⟩

def clocks : Outside where
  timestamp s :=
    if s = "6410.000000" then some 6410 else if s = "6500.000000" then some 6500
    else if s = "8000.000000" then some 8000 else if s = "9000.000000" then some 9000
    else if s = "9500.000000" then some 9500 else none
  normalize _ := true

/-- A second truncated pass: one page of the channel, and a whole thread with one reply. -/
def busy (reply : String) : Pass where
  now := 10600
  window := 3600
  latest := none
  recent_thread_roots _ := ["6410.000000"]
  history r :=
    match r.root with
    | none => .ok (.ok ⟨some [late], .null, true, 100⟩)
    | some root =>
      if root = "6410.000000" then
        .ok (.ok ⟨some [opening, ⟨some reply, 0, "Reply"⟩], .null, false, 100⟩)
      else .ok (.error "thread_not_found")

def pinned : Watermark := ⟨some 6460, some 1⟩

def posted : Set String := {"9000.000000", "8000.000000", "6410.000000"}

def answers (reply : String) (root : String) : Set String :=
  {ts | root = "6410.000000" ∧ ts = reply}

def noted (w : Watermark) (p : Pass) : Option (Option Gap) :=
  (run clocks room w p).toOption.map (·.gap)

theorem run_of_noted {w : Watermark} {p : Pass} {g : Gap} (h : noted w p = some (some g)) :
    ∃ c, run clocks room w p = .ok c ∧ c.gap = some g := by
  unfold noted at h
  obtain ⟨c, hc, hgap⟩ := Option.map_eq_some_iff.mp h
  cases hrun : run clocks room w p with
  | error e => rw [hrun] at hc; cases hc
  | ok c' =>
    rw [hrun] at hc
    cases hc
    exact ⟨c, rfl, hgap⟩

theorem clocks_late : clocks.timestamp "9000.000000" = some 9000 := by rfl
theorem clocks_between : clocks.timestamp "8000.000000" = some 8000 := by rfl
theorem clocks_opening : clocks.timestamp "6410.000000" = some 6410 := by rfl

theorem busy_honest (reply : String) (oldest : ℚ) :
    Honest clocks "CROOM" posted (busy reply) oldest fun _ => [late, between, opening] where
  all ts hts _ _ _ _ := by
    rcases hts with rfl | rfl | rfl
    · exact ⟨late, by simp, rfl⟩
    · exact ⟨between, by simp, rfl⟩
    · exact ⟨opening, by simp, rfl⟩
  newest_first := by
    simp only [List.pairwise_cons, List.mem_cons, List.not_mem_nil, or_false, forall_eq_or_imp,
      forall_eq]
    refine ⟨⟨?_, ?_⟩, ?_, by simp⟩
    · rintro s t v w ⟨⟩ ⟨⟩ hv hw
      rw [clocks_late] at hv
      rw [clocks_between] at hw
      cases hv
      cases hw
      norm_num
    · rintro s t v w ⟨⟩ ⟨⟩ hv hw
      rw [clocks_late] at hv
      rw [clocks_opening] at hw
      cases hv
      cases hw
      norm_num
    · rintro s t v w ⟨⟩ ⟨⟩ hv hw
      rw [clocks_between] at hv
      rw [clocks_opening] at hw
      cases hv
      cases hw
      norm_num
  pages cursor r ms hr hms := by
    cases hr
    cases hms
    exact ⟨[between, opening], rfl, fun c hc => (by cases hc), fun _ hmore => by cases hmore⟩

theorem busy_thread_honest {reply : String} (hreply : reply ≠ "6410.000000") (oldest : ℚ)
    (root : String) :
    HonestThread clocks "CROOM" root (answers reply root) (busy reply) oldest
      fun _ => if root = "6410.000000" then [opening, ⟨some reply, 0, "Reply"⟩] else [] where
  apart h := hreply (h.2.symm.trans h.1)
  all ts hts _ _ _ _ := by
    obtain ⟨rfl, rfl⟩ := hts
    exact ⟨⟨some ts, 0, "Reply"⟩, by simp, rfl⟩
  oldest_first := by
    split
    next hroot =>
      rw [List.pairwise_pair, hroot]
      rintro s t v w ⟨⟩ _ hne
      exact absurd rfl hne
    next => exact .nil
  pages cursor r ms hr hms := by
    unfold busy at hr
    dsimp only at hr ⊢
    split at hr
    next hroot =>
      rw [if_pos hroot]
      cases hr
      cases hms
      exact ⟨[], by simp, fun c hc => by cases hc⟩
    next => cases hr

theorem busy_top (reply : String) (oldest : ℚ) :
    top_level (busy reply).history "CROOM" oldest = [late] := rfl

theorem busy_thread (reply : String) (oldest : ℚ) (root : String) :
    ∀ item ∈ thread (busy reply).history "CROOM" oldest root,
      root = "6410.000000" ∧ (item.ts = some root ∨ item.ts = some reply) := by
  intro item hitem
  have hpage : (busy reply).history ⟨"CROOM", oldest, some root, none⟩ =
      if root = "6410.000000" then
        .ok (.ok ⟨some [opening, ⟨some reply, 0, "Reply"⟩], .null, false, 100⟩)
      else .ok (.error "thread_not_found") := rfl
  unfold thread PAGES answered at hitem
  rw [hpage] at hitem
  by_cases hroot : root = "6410.000000"
  · rw [if_pos hroot] at hitem
    refine ⟨hroot, ?_⟩
    rw [hroot]
    have hitems : item ∈ [opening, ⟨some reply, 0, "Reply"⟩] := hitem
    rcases List.mem_cons.mp hitems with rfl | hitems
    · exact .inl rfl
    · rw [List.mem_singleton.mp hitems]
      exact .inr rfl
  · rw [if_neg hroot] at hitem
    cases hitem

theorem busy_oldest (reply : String) : (start pinned (busy reply)).oldest = 6400 := by
  have holdest : (start pinned (busy "")).oldest = 6400 := by decide +kernel
  exact holdest

theorem between_left {reply : String} (hreply : reply ≠ "8000.000000") :
    Left clocks (busy reply) "CROOM" (start pinned (busy reply)) "8000.000000" 8000 := by
  refine ⟨clocks_between, ?_, by norm_num [busy], ?_, ?_⟩
  · rw [busy_oldest]
    norm_num
  · intro item hitem
    rw [busy_top, List.mem_singleton] at hitem
    rw [hitem]
    decide
  · intro root _ item hitem
    obtain ⟨rfl, hts | hts⟩ := busy_thread _ _ _ item hitem <;> rw [hts]
    · decide
    · exact fun heq => hreply (Option.some.inj heq)

theorem noted_older : noted pinned (busy "6500.000000") = some (some ⟨6400, 6500, 2⟩) := by
  decide +kernel

/-- The reply that was read is older than the channel message that was not. -/
theorem reply_cuts_range : ∃ (c : Committed) (g : Gap) (rest : Option String → List Item)
    (rests : String → Option String → List Item),
    run clocks room pinned (busy "6500.000000") = .ok c ∧ c.gap = some g ∧
    Honest clocks "CROOM" posted (busy "6500.000000")
      (start pinned (busy "6500.000000")).oldest rest ∧
    (∀ root, HonestThread clocks "CROOM" root (answers "6500.000000" root) (busy "6500.000000")
      (start pinned (busy "6500.000000")).oldest (rests root)) ∧
    ¬ RangeCovers clocks (busy "6500.000000") "CROOM" (start pinned (busy "6500.000000")) posted
      (answers "6500.000000") g := by
  obtain ⟨c, hrun, hgap⟩ := run_of_noted noted_older
  refine ⟨c, _, _, _, hrun, hgap, busy_honest _ _, busy_thread_honest (by decide) _, ?_⟩
  intro hcovers
  have hrange := (hcovers "8000.000000" 8000 (.inl (.inr (.inl rfl)))
    (between_left (by decide))).2
  norm_num at hrange

theorem noted_newer : noted pinned (busy "9500.000000") = some (some ⟨6400, 9000, 2⟩) := by
  decide +kernel

theorem clocks_newer : clocks.timestamp "9500.000000" = some 9500 := by rfl

/-- A reply that is newer than all that was left unread fits. -/
theorem newer_fits : Fits clocks (busy "9500.000000") "CROOM"
    (start pinned (busy "9500.000000")) posted (answers "9500.000000") := by
  have hgives : ∀ root t u, ReadsReply clocks (busy "9500.000000") "CROOM"
      (start pinned (busy "9500.000000")) root t u → t = "9500.000000" ∧ u = 9500 := by
    rintro root t u ⟨-, ⟨-, hne, item, hitem, hts⟩, hu, -⟩
    obtain ⟨-, hitemts | hitemts⟩ := busy_thread _ _ _ item hitem <;> rw [hts] at hitemts
    · exact absurd (Option.some.inj hitemts) hne
    · obtain rfl := Option.some.inj hitemts
      rw [clocks_newer] at hu
      exact ⟨rfl, (Option.some.inj hu).symm⟩
  have hreads : ReadsReply clocks (busy "9500.000000") "CROOM"
      (start pinned (busy "9500.000000")) "6410.000000" "9500.000000" 9500 := by
    refine ⟨?_, ⟨by rw [clocks_opening]; rfl, by decide, ⟨some "9500.000000", 0, "Reply"⟩, ?_, rfl⟩,
      clocks_newer, ?_⟩
    · exact List.mem_filter.mpr
        ⟨List.mem_append_left _ (List.mem_singleton.mpr rfl), by rw [clocks_opening]; rfl⟩
    · exact List.mem_cons_of_mem _ (List.mem_singleton.mpr rfl)
    · rw [busy_oldest]
      norm_num
  constructor
  · rintro ts v hts ⟨hv, -⟩ root t u hread
    obtain ⟨-, rfl⟩ := hgives root t u hread
    rcases hts with rfl | rfl | rfl
    · rw [clocks_late] at hv
      cases hv
      norm_num
    · rw [clocks_between] at hv
      cases hv
      norm_num
    · rw [clocks_opening] at hv
      cases hv
      norm_num
  · rintro root ts v ⟨rfl, rfl⟩ ⟨-, -, -, -, hunread⟩ t u hread
    obtain ⟨rfl, -⟩ := hgives _ t u hread
    obtain ⟨hasked, ⟨-, -, item, hitem, hts⟩, -⟩ := hread
    exact hunread _ hasked item hitem hts
  · rintro root ts v ⟨rfl, rfl⟩ - hnone
    exact absurd hreads (hnone _ _)

theorem gap_covers_newer : ∃ (c : Committed) (g : Gap),
    run clocks room pinned (busy "9500.000000") = .ok c ∧ c.gap = some g ∧
    RangeCovers clocks (busy "9500.000000") "CROOM" (start pinned (busy "9500.000000")) posted
      (answers "9500.000000") g := by
  obtain ⟨c, hrun, hgap⟩ := run_of_noted noted_newer
  exact ⟨c, _, hrun, hgap, (gap_covers_iff hrun hgap (busy_honest _ _)
    (busy_thread_honest (by decide) _)).mpr newer_fits⟩

end Example

end Fridica.Slack.Catchup
