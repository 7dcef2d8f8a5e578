import Fridica.Github.Links.Spec
import Fridica.Lib.Run
import Mathlib.Data.List.Nodup
import Mathlib.Algebra.Order.Ring.Rat

/-!
# What the cache serves

Every state served from the cache was fetched under its key, is still fresh, and is quoted with its
age. A pause only grows, and no request starts before it ends.
-/

namespace Fridica.Github.Links

open Fridica.Json

variable {view : View} {cache_seconds : ℚ}

/-- A served value quotes a fetched one with its age. -/
structure Quotes (cache_seconds : ℚ) (log : List Event) (link : Link) (began : ℚ)
    (value : Value) : Prop where
  source : ∃ link' completed value', .fetched link' completed value' ∈ log ∧
    link'.key = link.key ∧ began < completed + cache_seconds ∧
    value = with_age value' (max (began - completed) 0)

/-- A stored item, or one that is about to be stored. -/
def Stored (cache_seconds : ℚ) (log : List Event) (key : String) (expiry : ℚ) (value : Value) :
    Prop :=
  ∃ link completed, .fetched link completed value ∈ log ∧ link.key = key ∧
    expiry = completed + cache_seconds

/-- A request starts after the pauses that were recorded before it. -/
def Later (earlier later : Event) : Prop :=
  ∀ wait request at_time, earlier = .paused wait → later = .called request at_time → wait ≤ at_time

structure Kept (cache_seconds : ℚ) (w : World) : Prop where
  bounded : w.cache.items.length ≤ 256
  keys : (w.cache.items.map (·.key)).Nodup
  items : ∀ item ∈ w.cache.items, Stored cache_seconds w.log item.key item.expiry item.value
  served : ∀ link began value, .served link began value ∈ w.log →
    Quotes cache_seconds w.log link began value
  objects : ∀ link completed value, .fetched link completed value ∈ w.log → value.is_object = true
  paused : ∀ wait, .paused wait ∈ w.log → wait ≤ w.cache.paused_until
  order : w.log.Pairwise Later

def Phase.Fits (cache_seconds : ℚ) (log : List Event) (link : Link) : Phase → Prop
  | .hit began value => Quotes cache_seconds log link began value
  | .storing expiry value => Stored cache_seconds log link.key expiry value
  | _ => True

structure Inv (cache_seconds : ℚ) (s : State) : Prop where
  kept : Kept cache_seconds s.world
  calls : ∀ c ∈ s.calls, c.phase.Fits cache_seconds s.world.log c.link

/-! ## A log that grows -/

theorem Quotes.mono {log log' : List Event} {link : Link} {began : ℚ} {value : Value}
    (h : Quotes cache_seconds log link began value) (hlog : log ⊆ log') :
    Quotes cache_seconds log' link began value := by
  obtain ⟨link', completed, value', hmem, hrest⟩ := h.source
  exact ⟨link', completed, value', hlog hmem, hrest⟩

theorem Stored.mono {log log' : List Event} {key : String} {expiry : ℚ} {value : Value}
    (h : Stored cache_seconds log key expiry value) (hlog : log ⊆ log') :
    Stored cache_seconds log' key expiry value := by
  obtain ⟨link, completed, hmem, hrest⟩ := h
  exact ⟨link, completed, hlog hmem, hrest⟩

theorem Phase.Fits.mono {log log' : List Event} {link : Link} {p : Phase}
    (h : p.Fits cache_seconds log link) (hlog : log ⊆ log') : p.Fits cache_seconds log' link := by
  cases p with
  | hit began value => exact Quotes.mono h hlog
  | storing expiry value => exact Stored.mono h hlog
  | _ => trivial

theorem pairwise_later {log : List Event} (h : log.Pairwise Later) {e : Event}
    (he : ∀ x ∈ log, Later x e) : (log ++ [e]).Pairwise Later := by
  rw [List.pairwise_append]
  refine ⟨h, List.pairwise_singleton .., ?_⟩
  intro x hx y hy
  rw [List.mem_singleton.mp hy]
  exact he x hx

theorem Kept.happened {w : World} (h : Kept cache_seconds w) {e : Event}
    (hserved : ∀ link began value, e = .served link began value →
      Quotes cache_seconds w.log link began value)
    (hfetched : ∀ link completed value, e = .fetched link completed value →
      value.is_object = true)
    (hpaused : ∀ wait, e = .paused wait → wait ≤ w.cache.paused_until)
    (hcalled : ∀ request at_time, e = .called request at_time →
      w.cache.paused_until ≤ at_time) : Kept cache_seconds (w.happened e) := by
  have hlog : w.log ⊆ w.log ++ [e] := List.subset_append_left ..
  have hcases : ∀ x, x ∈ w.log ++ [e] → x ∈ w.log ∨ e = x := by
    intro x hx
    rcases List.mem_append.mp hx with hx | hx
    · exact .inl hx
    · exact .inr (List.mem_singleton.mp hx).symm
  refine ⟨h.bounded, h.keys, ?_, ?_, ?_, ?_, ?_⟩
  · intro item hitem
    exact (h.items item hitem).mono hlog
  · intro link began value hmem
    rcases hcases _ hmem with hmem | he
    · exact (h.served link began value hmem).mono hlog
    · exact (hserved link began value he).mono hlog
  · intro link completed value hmem
    rcases hcases _ hmem with hmem | he
    · exact h.objects link completed value hmem
    · exact hfetched link completed value he
  · intro wait hmem
    rcases hcases _ hmem with hmem | he
    · exact h.paused wait hmem
    · exact hpaused wait he
  · apply pairwise_later h.order
    rintro x hx wait request at_time rfl he
    exact (h.paused wait hx).trans (hcalled request at_time he)

theorem Kept.pause {w : World} (h : Kept cache_seconds w) (wait : ℚ) :
    Kept cache_seconds ((w.pause wait).happened (.paused wait)) := by
  have hpause : Kept cache_seconds (w.pause wait) :=
    ⟨h.bounded, h.keys, h.items, h.served, h.objects,
      fun wait' hmem => (h.paused wait' hmem).trans (le_max_left ..), h.order⟩
  apply hpause.happened
  · exact nofun
  · exact nofun
  · rintro _ ⟨⟩
    exact le_max_right ..
  · exact nofun

/-! ## What each deed does -/

/-- What a deed leaves as it was, and what it may add. -/
structure Onward (w w' : World) : Prop where
  log : w.log ⊆ w'.log
  paused : w.cache.paused_until ≤ w'.cache.paused_until

theorem Onward.refl (w : World) : Onward w w := ⟨fun _ h => h, le_refl _⟩

theorem onward_happened (w : World) (e : Event) : Onward w (w.happened e) :=
  ⟨List.subset_append_left .., le_refl _⟩

/-- A request changes the pause and the log, and nothing else. -/
theorem strand_move {α : Type} {w w' : World} {m : Move} {x x' : Strand α}
    (h : Kept cache_seconds w) (hmove : x.move w m = some (x', w')) :
    Kept cache_seconds w' ∧ Onward w w' := by
  unfold Strand.move at hmove
  split at hmove
  · split at hmove
    next =>
      obtain ⟨-, rfl⟩ := Prod.mk.inj (Option.some.inj hmove)
      exact ⟨h, .refl w⟩
    next hpaused =>
      obtain ⟨-, rfl⟩ := Prod.mk.inj (Option.some.inj hmove)
      refine ⟨h.happened nofun nofun nofun ?_, onward_happened ..⟩
      rintro _ _ ⟨⟩
      exact not_lt.mp hpaused
  · obtain ⟨-, rfl⟩ := Prod.mk.inj (Option.some.inj hmove)
    exact ⟨h, .refl w⟩
  · obtain ⟨-, rfl⟩ := Prod.mk.inj (Option.some.inj hmove)
    exact ⟨h, .refl w⟩
  · obtain ⟨-, rfl⟩ := Prod.mk.inj (Option.some.inj hmove)
    exact ⟨h.pause _, List.subset_append_left .., le_max_left ..⟩
  · obtain ⟨-, rfl⟩ := Prod.mk.inj (Option.some.inj hmove)
    exact ⟨h, .refl w⟩
  · cases hmove

/-- What a deed leaves of the world, and the phase of the call after it. -/
structure Done (cache_seconds : ℚ) (link : Link) (w : World) (r : Phase × World) : Prop where
  kept : Kept cache_seconds r.2
  onward : Onward w r.2
  fits : r.1.Fits cache_seconds r.2.log link

theorem phase_move {w : World} {m : Move} {slot : Slot} {p : Phase} {link : Link}
    {r : Phase × World} (h : Kept cache_seconds w) (hmove : p.move w m slot = some r) :
    Done cache_seconds link w r := by
  unfold Phase.move at hmove
  split at hmove
  all_goals try cases hmove
  all_goals
    obtain ⟨⟨x, w'⟩, hstrand, rfl⟩ := Option.map_eq_some_iff.mp hmove
    obtain ⟨hkept, honward⟩ := strand_move h hstrand
    exact ⟨hkept, honward, trivial⟩

theorem storing_done {w : World} (h : Kept cache_seconds w) (link : Link) {value : Value}
    (hobject : value.is_object = true) :
    Done cache_seconds link w (.storing (w.clock + cache_seconds) value,
      w.happened (.fetched link w.clock value)) := by
  refine ⟨h.happened nofun ?_ nofun nofun, onward_happened .., ?_⟩
  · rintro _ _ _ ⟨⟩
    exact hobject
  · exact ⟨link, w.clock, List.mem_append_right _ (List.mem_singleton_self _), rfl, rfl⟩

theorem complete_done {w : World} (h : Kept cache_seconds w) (link : Link)
    (result : Except Failure (List (String × Value))) :
    Done cache_seconds link w (complete cache_seconds w link result) := by
  unfold complete
  split
  · exact ⟨h, .refl w, trivial⟩
  · exact storing_done h link rfl
  · exact storing_done h link rfl

theorem settle_done {w : World} {link : Link} {p : Phase} {r : Phase × World}
    (h : Kept cache_seconds w) (hsettle : settle view cache_seconds w link p = some r) :
    Done cache_seconds link w r := by
  unfold settle at hsettle
  split at hsettle
  · rw [← Option.some.inj hsettle]
    exact ⟨h, .refl w, trivial⟩
  · rw [← Option.some.inj hsettle]
    exact complete_done h link _
  · rw [← Option.some.inj hsettle]
    exact complete_done h link _
  · obtain ⟨result, -, rfl⟩ := Option.map_eq_some_iff.mp hsettle
    exact complete_done h link result
  · cases hsettle

theorem look_up_done {w : World} {link : Link} {p : Phase} {r : Phase × World}
    (h : Kept cache_seconds w) (hlook : look_up view cache_seconds w link p = some r) :
    Done cache_seconds link w r := by
  unfold look_up at hlook
  split at hlook
  next began =>
    split at hlook
    next item hfind =>
      rw [← Option.some.inj hlook]
      refine ⟨h, .refl w, ?_⟩
      have hitem := List.mem_of_find?_eq_some hfind
      have hfresh := List.find?_some hfind
      rw [decide_eq_true_eq] at hfresh
      obtain ⟨link', completed, hfetched, hkey, hexpiry⟩ := h.items item hitem
      refine ⟨link', completed, item.value, hfetched, hkey.trans hfresh.1, ?_, ?_⟩
      · rw [← hexpiry]
        exact hfresh.2
      · rw [hexpiry, add_sub_cancel_right]
    next =>
      rw [← Option.some.inj hlook]
      exact ⟨h, .refl w, trivial⟩
  · cases hlook

theorem recorded_done {w : World} {link : Link} {p : Phase} {ok : Bool} {r : Phase × World}
    (h : Kept cache_seconds w) (hfits : p.Fits cache_seconds w.log link)
    (hrecorded : recorded w link ok p = some r) : Done cache_seconds link w r := by
  unfold recorded at hrecorded
  split at hrecorded
  next began value =>
    split at hrecorded
    · rw [← Option.some.inj hrecorded]
      refine ⟨h.happened ?_ nofun nofun nofun, onward_happened .., trivial⟩
      rintro _ _ _ ⟨⟩
      exact hfits
    · rw [← Option.some.inj hrecorded]
      exact ⟨h, .refl w, trivial⟩
  · cases hrecorded

theorem make_room_suffix (items : List Item) : make_room items <:+ items := by
  induction items with
  | nil => exact List.suffix_refl _
  | cons item items ih =>
    unfold make_room
    split
    · exact ih.trans (List.suffix_cons ..)
    · exact List.suffix_refl _

theorem length_make_room (items : List Item) : (make_room items).length < 256 := by
  induction items with
  | nil => decide
  | cons item items ih =>
    unfold make_room
    split
    · exact ih
    · omega

theorem retain_sublist (key : String) {readings : List ℚ} {items : List Item}
    (hlen : readings.length = items.length) : (retain key readings items).Sublist items := by
  unfold retain
  have h := (List.filter_sublist (l := items.zip readings)
    (p := fun x => x.1.key ≠ key ∧ x.1.expiry > x.2)).map (·.1)
  rw [List.map_fst_zip hlen.ge] at h
  exact h

theorem key_of_mem_retain {key : String} {readings : List ℚ} {items : List Item} {item : Item}
    (h : item ∈ retain key readings items) : item.key ≠ key := by
  unfold retain at h
  obtain ⟨x, hx, rfl⟩ := List.mem_map.mp h
  have hkeep := (List.mem_filter.mp hx).2
  rw [decide_eq_true_eq] at hkeep
  exact hkeep.1

theorem store_done {w : World} {link : Link} {p : Phase} {readings : List ℚ} {r : Phase × World}
    (h : Kept cache_seconds w) (hfits : p.Fits cache_seconds w.log link)
    (hstore : store w link readings p = some r) : Done cache_seconds link w r := by
  unfold store at hstore
  split at hstore
  next expiry value =>
    split at hstore
    next hreadings =>
      rw [← Option.some.inj hstore]
      have hroom := length_make_room (retain link.key readings w.cache.items)
      have hsuffix := make_room_suffix (retain link.key readings w.cache.items)
      have hsub := hsuffix.sublist.trans (retain_sublist link.key hreadings.2)
      refine ⟨⟨?_, ?_, ?_, h.served, h.objects, h.paused, h.order⟩,
        ⟨fun _ he => he, le_refl _⟩, trivial⟩
      · rw [List.length_append, List.length_singleton]
        omega
      · rw [List.map_append, List.nodup_append]
        refine ⟨h.keys.sublist (hsub.map _), List.nodup_singleton _, ?_⟩
        intro key hkey key' hkey' heq
        obtain ⟨item, hitem, rfl⟩ := List.mem_map.mp hkey
        rw [List.map_singleton, List.mem_singleton] at hkey'
        exact key_of_mem_retain (hsuffix.subset hitem) (heq.trans hkey')
      · intro item hitem
        rcases List.mem_append.mp hitem with hitem | hitem
        · exact h.items item (hsub.subset hitem)
        · rw [List.mem_singleton.mp hitem]
          exact hfits
    · cases hstore
  · cases hstore

theorem perform_done {w : World} {c : Call} {d : Deed} {r : Phase × World}
    (h : Kept cache_seconds w) (hfits : c.phase.Fits cache_seconds w.log c.link)
    (hperform : perform view cache_seconds w c d = some r) : Done cache_seconds c.link w r := by
  cases d with
  | look_up => exact look_up_done h hperform
  | recorded ok => exact recorded_done h hfits hperform
  | move slot m => exact phase_move h hperform
  | settle => exact settle_done h hperform
  | store readings => exact store_done h hfits hperform

/-! ## Runs -/

theorem step_inv {s t : State} {a : Action} (h : Inv cache_seconds s)
    (hstep : step view cache_seconds s a = some t) :
    Inv cache_seconds t ∧ s.world.cache.paused_until ≤ t.world.cache.paused_until := by
  cases a with
  | tick seconds =>
    rw [step] at hstep
    split at hstep
    · rw [← Option.some.inj hstep]
      exact ⟨⟨⟨h.kept.bounded, h.kept.keys, h.kept.items, h.kept.served, h.kept.objects,
        h.kept.paused, h.kept.order⟩, h.calls⟩, le_refl _⟩
    · cases hstep
  | call link =>
    rw [← Option.some.inj hstep]
    refine ⟨⟨h.kept, ?_⟩, le_refl _⟩
    intro c hc
    rcases List.mem_append.mp hc with hc | hc
    · exact h.calls c hc
    · rw [List.mem_singleton.mp hc]
      trivial
  | deed i d =>
    obtain ⟨c, hc, hstep⟩ := Option.bind_eq_some_iff.mp hstep
    obtain ⟨⟨phase, world⟩, hperform, hstep⟩ := Option.bind_eq_some_iff.mp hstep
    rw [← Option.some.inj hstep]
    have hdone := perform_done h.kept (h.calls c (List.mem_of_getElem? hc)) hperform
    refine ⟨⟨hdone.kept, ?_⟩, hdone.onward.paused⟩
    intro c' hc'
    rcases List.mem_or_eq_of_mem_set hc' with hold | rfl
    · exact (h.calls c' hold).mono hdone.onward.log
    · exact hdone.fits
  | drop i =>
    obtain ⟨c, hc, hstep⟩ := Option.bind_eq_some_iff.mp hstep
    rw [← Option.some.inj hstep]
    refine ⟨⟨h.kept, ?_⟩, le_refl _⟩
    intro c' hc'
    rcases List.mem_or_eq_of_mem_set hc' with hold | rfl
    · exact h.calls c' hold
    · trivial

/-- The states of a run from an empty cache. -/
abbrev Reach (view : View) (cache_seconds : ℚ) : State → Prop :=
  Run.Reach (fun s => ∃ clock, s = initial clock)
    fun s t => ∃ a, step view cache_seconds s a = some t

theorem initial_inv (clock : ℚ) : Inv cache_seconds (initial clock) where
  kept := ⟨Nat.zero_le _, List.nodup_nil, nofun, nofun, nofun, nofun, .nil⟩
  calls := nofun

theorem reach_inv {s : State} (h : Reach view cache_seconds s) : Inv cache_seconds s := by
  apply h.invariant
  · rintro _ ⟨clock, rfl⟩
    exact initial_inv clock
  · rintro s t - hs ⟨a, ha⟩
    exact (step_inv hs ha).1

/-- What is true of the cache and of everything that was served and started so far. -/
structure Safe (cache_seconds : ℚ) (s : State) : Prop where
  bounded : s.world.cache.items.length ≤ 256
  keys : (s.world.cache.items.map (·.key)).Nodup
  served : ∀ link began value, .served link began value ∈ s.world.log →
    ∃ link' completed value', .fetched link' completed value' ∈ s.world.log ∧
      link'.key = link.key ∧ began < completed + cache_seconds ∧
      value = with_age value' (max (began - completed) 0) ∧
      value.field "age_seconds" = rounded (max (began - completed) 0)
  started : s.world.log.Pairwise Later

section Pages

variable {α β : Type} {reply : Request → Except Failure Value}

/-- What comes of the requests where none is paused and `reply` answers each. -/
def Strand.outcome (reply : Request → Except Failure Value) : Strand α → Except Failure α
  | .done result => result
  | .check request next => (next (reply request)).outcome reply
  | .flying request next => (next (reply request)).outcome reply
  | .pause _ result next => (next result).outcome reply
  | .sleep next => next.outcome reply

theorem outcome_bind {next : Except Failure α → Strand β} (s : Strand α) :
    (s.bind next).outcome reply = (next (s.outcome reply)).outcome reply := by
  induction s with
  | done result => rfl
  | check request more ih => exact ih (reply request)
  | flying request more ih => exact ih (reply request)
  | pause wait result more ih => exact ih result
  | sleep more ih => exact ih

theorem outcome_and_then {next : α → Strand β} (s : Strand α) :
    (and_then s next).outcome reply = (s.outcome reply).bind fun a => (next a).outcome reply := by
  unfold and_then
  rw [outcome_bind]
  cases s.outcome reply <;> rfl

def Operation.of_page : Github.Operation → Operation
  | .checks head page => .checks head page
  | .reviews number page => .reviews number page

theorem of_subject_eq (link : Link) (subject : Subject) (page : Nat) :
    Request.of_subject link subject page = link.request (.of_page (subject.operation page)) := by
  cases subject <;> rfl

/-- Requests that are answered one after another read the pages of `read_pages`. -/
theorem outcome_pages (link : Link) (subject : Subject) (l : List Nat) (items : List Value) :
    (pages link subject l items).outcome reply =
      read_pages (fun operation => reply (link.request (.of_page operation))) subject l items := by
  induction l generalizing items with
  | nil => rfl
  | cons page rest ih =>
    unfold pages read_pages
    rw [outcome_and_then, ← of_subject_eq]
    change Except.bind (reply (.of_subject link subject page)) _ = _
    cases reply (.of_subject link subject page) with
    | error failure => rfl
    | ok value =>
      dsimp only [Except.bind]
      cases subject.batch value with
      | none => rfl
      | some batch =>
        dsimp only
        split
        · rfl
        · cases subject with
          | checks head =>
            dsimp only
            split
            · rfl
            · exact ih (items ++ batch)
          | reviews number =>
            dsimp only
            split
            · rfl
            · exact ih (items ++ batch)

end Pages

/-! ## A pull request and an issue of one number -/

theorem reach_run {s t : State} {actions : List Action} (h : Reach view cache_seconds s)
    (hrun : run view cache_seconds s actions = some t) : Reach view cache_seconds t :=
  Run.keeps_of_actions (fun _ => rfl) (fun _ _ _ => rfl)
    (fun _ a _ hs ha => .step hs ⟨a, ha⟩) h hrun

end Fridica.Github.Links
