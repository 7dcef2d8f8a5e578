import Fridica.External.Spec
import Mathlib.Logic.Relation

/-! # What a repeated `client_id` gets -/

namespace Fridica.External

variable {σ : Type}

/-! ## One call -/

theorem key_details_ne (key : String) : key ++ ":details" ≠ key := by
  intro h
  have hlen := congrArg String.length h
  rw [String.length_append] at hlen
  have : (":details" : String).length = 8 := by decide
  omega

theorem post_key_client {place : Place} {request : PostRequest} {c : String}
    (h : request.client_id = some c) (fresh : String) :
    post_key place request fresh = "driver:" ++ place.session ++ ":" ++ c := by
  rw [post_key, h]

/-- The turn number that the metadata of a post into this target carries. -/
def turnOf (s : Store σ) : Target → Int
  | .thread id => (s.thread id).elim 0 ThreadView.turns
  | .channel _ => 0

theorem place_turn {config : Config} {s : Store σ} {target : Target} {p : Place}
    (h : place config s target = .ok p) : p.turn = turnOf s target := by
  cases target with
  | thread id =>
    simp only [place] at h
    split at h <;> simp_all [turnOf]
    rw [← h]
  | channel reference =>
    simp only [place] at h
    split at h <;> simp_all [turnOf]
    rw [← h]

theorem post_answered {o : Outbox σ} (ho : o.Keyed) {config : Config} {fresh : String}
    {target : Target} {request : PostRequest} {s : Store σ} {id : Int} {thread : Option String}
    {out : σ} (h : post o config fresh target request s = (.answered id thread, out)) :
    ∃ p kind, place config s target = .ok p ∧ outbox_kind request.kind = some kind ∧
      p.channel ∈ config.channels ∧
      o.lookup out (post_key p request fresh) =
        some (id, main_post config p request kind (post_key p request fresh)) ∧
      (request.details ≠ "" → ∃ d, o.lookup out (post_key p request fresh ++ ":details") =
        some (d, details_post p request (post_key p request fresh) id)) := by
  unfold post at h
  cases hkind : outbox_kind request.kind with
  | none => simp [hkind] at h
  | some kind =>
    cases hplace : place config s target with
    | error e => simp [hkind, hplace] at h
    | ok p =>
      simp only [hkind, hplace] at h
      by_cases hscope : p.channel ∈ config.channels
      · simp only [hscope, not_true_eq_false, if_false] at h
        refine ⟨p, kind, rfl, rfl, hscope, ?_⟩
        cases hmain : o.queue_post s.outbox
            (main_post config p request kind (post_key p request fresh)) with
        | error e =>
          simp only [hmain] at h
          split at h <;> simp at h
        | ok r =>
          obtain ⟨queuedId, queued⟩ := r
          obtain ⟨hrow, -⟩ := ho.stored hmain
          simp only [hmain] at h
          by_cases hdetails : request.details = ""
          · simp only [hdetails, if_true, Prod.mk.injEq, Response.answered.injEq] at h
            obtain ⟨⟨rfl, -⟩, rfl⟩ := h
            exact ⟨hrow, fun hne => absurd hdetails hne⟩
          · simp only [hdetails, if_false] at h
            cases hupload : o.queue_post queued
                (details_post p request (post_key p request fresh) queuedId) with
            | error e => simp [hupload] at h
            | ok r =>
              obtain ⟨d, both⟩ := r
              obtain ⟨hupl, hrest⟩ := ho.stored hupload
              simp only [hupload, Prod.mk.injEq, Response.answered.injEq] at h
              obtain ⟨⟨rfl, -⟩, rfl⟩ := h
              refine ⟨?_, fun _ => ⟨d, hupl⟩⟩
              rw [hrest _ (key_details_ne _).symm]
              exact hrow
      · simp [hscope] at h

/-! ## In between -/

/-- What other turns and posts leave as it was: queued posts stay, threads stay where they are,
recorded names stay. Turn numbers may change. -/
structure Later (o : Outbox σ) (a b : Store σ) : Prop where
  rows : ∀ k r, o.lookup a.outbox k = some r → o.lookup b.outbox k = some r
  threads : ∀ id v, a.thread id = some v → ∃ n, b.thread id = some { v with turns := n }
  names : b.names = a.names

theorem Later.trans {o : Outbox σ} {a b c : Store σ} (hab : Later o a b) (hbc : Later o b c) :
    Later o a c where
  rows k r h := hbc.rows k r (hab.rows k r h)
  threads id v h := by
    obtain ⟨n, hn⟩ := hab.threads id v h
    obtain ⟨m, hm⟩ := hbc.threads id _ hn
    exact ⟨m, hm⟩
  names := hbc.names.trans hab.names

theorem later_queue {o : Outbox σ} (ho : o.Keyed) {a : Store σ} {p : Post} {id : Int} {s' : σ}
    (h : o.queue_post a.outbox p = .ok (id, s')) : Later o a { a with outbox := s' } where
  rows k r hk := by
    obtain ⟨-, hrest⟩ := ho.stored h
    by_cases hkey : k = p.idem_key
    · subst hkey
      obtain ⟨i, q⟩ := r
      by_cases hq : q = p
      · subst hq
        rw [ho.same hk] at h
        cases h
        exact hk
      · obtain ⟨e, he, -⟩ := ho.other hk hq
        rw [he] at h
        cases h
    · exact (hrest k hkey).trans hk
  threads id v hv := ⟨v.turns, hv⟩
  names := rfl

/-- The thread came to turn `n`. -/
def Store.turn (a : Store σ) (id : String) (n : Int) : Store σ :=
  { a with thread := fun i =>
      if i = id then (a.thread i).map fun v => { v with turns := n } else a.thread i }

theorem later_turn (o : Outbox σ) (a : Store σ) (id : String) (n : Int) :
    Later o a (a.turn id n) where
  rows _ _ h := h
  threads i v hv := by
    by_cases hi : i = id
    · subst hi
      exact ⟨n, by simp [Store.turn, hv]⟩
    · exact ⟨v.turns, by simp [Store.turn, hi, hv]⟩
  names := rfl

/-- Another post, or another turn of a thread. -/
inductive Step (o : Outbox σ) (a : Store σ) : Store σ → Prop
  | post {p : Post} {id : Int} {s' : σ} :
    o.queue_post a.outbox p = .ok (id, s') → Step o a { a with outbox := s' }
  | turn (id : String) (n : Int) : Step o a (a.turn id n)

/-- Any history of other turns and posts. -/
theorem later_of_steps {o : Outbox σ} (ho : o.Keyed) {a b : Store σ}
    (h : Relation.ReflTransGen (Step o) a b) : Later o a b := by
  induction h with
  | refl => exact ⟨fun _ _ h => h, fun id v hv => ⟨v.turns, hv⟩, rfl⟩
  | tail _ hstep ih =>
    cases hstep with
    | post hqueue => exact ih.trans (later_queue ho hqueue)
    | turn id n => exact ih.trans (later_turn o _ id n)

theorem Later.place {o : Outbox σ} {config : Config} {a b : Store σ} (h : Later o a b)
    {target : Target} {p : Place} (hp : place config a target = .ok p) :
    place config b target = .ok { p with turn := turnOf b target } := by
  cases target with
  | thread id =>
    cases hv : a.thread id with
    | none => simp [External.place, hv] at hp
    | some v =>
      obtain ⟨n, hn⟩ := h.threads id v hv
      simp only [External.place, hv, Except.ok.injEq] at hp
      simp [External.place, hn, turnOf, ← hp]
  | channel reference =>
    simp only [External.place, h.names] at hp ⊢
    split at hp
    · cases hp
    · rename_i channel hchannel
      simp only [Except.ok.injEq] at hp
      simp [turnOf, ← hp]

/-! ## The second call -/

/-- The part of a request that its main post carries. -/
def content (request : PostRequest) : String × String × String :=
  (request.text, request.status, request.kind)

theorem main_post_eq_iff {config : Config} {p : Place} {r₁ r₂ : PostRequest}
    {kind₁ kind₂ key : String} {n : Int} (h₁ : outbox_kind r₁.kind = some kind₁)
    (h₂ : outbox_kind r₂.kind = some kind₂) :
    main_post config p r₁ kind₁ key = main_post config { p with turn := n } r₂ kind₂ key ↔
      content r₁ = content r₂ ∧ p.turn = n := by
  constructor
  · intro h
    simp only [main_post, Post.mk.injEq, Option.some.injEq, Meta.mk.injEq] at h
    obtain ⟨-, -, -, -, -, htext, ⟨-, -, hturn, hstatus, hkind, -⟩, -⟩ := h
    exact ⟨by rw [content, content, htext, hstatus, hkind], hturn⟩
  · rintro ⟨h, rfl⟩
    simp only [content, Prod.mk.injEq] at h
    obtain ⟨htext, hstatus, hkind⟩ := h
    rw [← hkind, h₁] at h₂
    cases h₂
    simp [main_post, thread_ts, root_post, htext, hstatus, hkind]

/-- The claim on the second call: the same request gets the same post and queues nothing, any
other content gets a conflict and changes nothing. -/
def Answers (o : Outbox σ) (config : Config) (fresh : String) (target : Target)
    (first second : PostRequest) (id : Int) (s : Store σ) : Prop :=
  if second = first then
    ∃ thread, post o config fresh target second s = (.answered id thread, s.outbox)
  else post o config fresh target second s = (.refused 409 "client_id_conflict", s.outbox)

/-- The second call in full, once the first one was answered. -/
theorem post_second {o : Outbox σ} {fresh : String} (fresh' : String) (ho : o.Keyed)
    {config : Config}
    {target : Target} {first second : PostRequest} {a b : Store σ} {id : Int}
    {thread : Option String} {out : σ} {c : String}
    (hfirst : post o config fresh target first a = (.answered id thread, out))
    (hc : first.client_id = some c) (hc' : second.client_id = some c)
    (hkind : outbox_kind second.kind ≠ none) (hlater : Later o { a with outbox := out } b) :
    (content first = content second ∧ turnOf a target = turnOf b target →
      (second = first →
        ∃ thread, post o config fresh' target second b = (.answered id thread, b.outbox)) ∧
      ∀ status code s, post o config fresh' target second b ≠ (.refused status code, s)) ∧
    (¬ (content first = content second ∧ turnOf a target = turnOf b target) →
      post o config fresh' target second b = (.refused 409 "client_id_conflict", b.outbox)) := by
  obtain ⟨p, kind₁, hplace, hkind₁, hscope, hrow, hupload⟩ := post_answered ho hfirst
  obtain ⟨kind₂, hkind₂⟩ := Option.ne_none_iff_exists'.mp hkind
  have hplace' : place config { a with outbox := out } target = .ok p := by
    cases target <;> exact hplace
  have hplace₂ := hlater.place hplace'
  have hturn : p.turn = turnOf a target := place_turn hplace
  rw [post_key_client hc] at hrow hupload
  have hrow := hlater.rows _ _ hrow
  have heq : main_post config p first kind₁ ("driver:" ++ p.session ++ ":" ++ c) =
      main_post config { p with turn := turnOf b target } second kind₂
        ("driver:" ++ p.session ++ ":" ++ c) ↔
      content first = content second ∧ turnOf a target = turnOf b target := by
    rw [← hturn]
    exact main_post_eq_iff hkind₁ hkind₂
  refine ⟨fun hsame => ?_, fun hdiffer => ?_⟩
  · have hmain := heq.mpr hsame
    have hqueue : o.queue_post b.outbox (main_post config { p with turn := turnOf b target } second
        kind₂ ("driver:" ++ p.session ++ ":" ++ c)) = .ok (id, b.outbox) := by
      rw [← hmain]
      exact ho.same hrow
    refine ⟨?_, ?_⟩
    · rintro rfl
      refine ⟨started o b.outbox { p with turn := turnOf b target } second id, ?_⟩
      unfold post
      by_cases hdetails : second.details = ""
      · simp [hkind₂, hplace₂, hscope, post_key_client hc', hqueue, hdetails]
      · obtain ⟨d, hd⟩ := hupload hdetails
        have hd := hlater.rows _ _ hd
        have hupl : o.queue_post b.outbox (details_post { p with turn := turnOf b target } second
            ("driver:" ++ p.session ++ ":" ++ c) id) = .ok (d, b.outbox) := ho.same hd
        simp [hkind₂, hplace₂, hscope, post_key_client hc', hqueue, hdetails, hupl]
    · intro status code s
      unfold post
      simp only [hkind₂, hplace₂, hscope, not_true_eq_false, if_false, post_key_client hc', hqueue]
      split
      · exact nofun
      · split <;> exact nofun
  · have hne : main_post config p first kind₁ ("driver:" ++ p.session ++ ":" ++ c) ≠
        main_post config { p with turn := turnOf b target } second kind₂
          ("driver:" ++ p.session ++ ":" ++ c) := fun h => hdiffer (heq.mp h)
    obtain ⟨e, he, hreused⟩ := ho.other hrow hne
    unfold post
    simp [hkind₂, hplace₂, hscope, post_key_client hc', he, hreused]

/-- **When the second call does what its `client_id` promises**: the same request while the
thread's turn number stands, or a request whose main post differs, be it only in the turn number. -/
theorem answers_iff {o : Outbox σ} (ho : o.Keyed) {config : Config} {fresh fresh' : String}
    {target : Target} {first second : PostRequest} {a b : Store σ} {id : Int}
    {thread : Option String} {out : σ} {c : String}
    (hfirst : post o config fresh target first a = (.answered id thread, out))
    (hc : first.client_id = some c) (hc' : second.client_id = some c)
    (hkind : outbox_kind second.kind ≠ none) (hlater : Later o { a with outbox := out } b) :
    Answers o config fresh' target first second id b ↔
      if second = first then turnOf a target = turnOf b target
      else content first ≠ content second ∨ turnOf a target ≠ turnOf b target := by
  obtain ⟨hsame, hdiffer⟩ := post_second fresh' ho hfirst hc hc' hkind hlater
  unfold Answers
  split
  · rename_i heq
    constructor
    · rintro ⟨thread, hanswer⟩
      by_contra hturn
      rw [hdiffer fun h => hturn h.2] at hanswer
      simp at hanswer
    · intro hturn
      exact (hsame ⟨by rw [heq], hturn⟩).1 heq
  · constructor
    · intro hconflict
      by_contra hboth
      rw [not_or, not_ne_iff, not_ne_iff] at hboth
      exact (hsame hboth).2 _ _ _ hconflict
    · intro hor
      exact hdiffer fun h => hor.elim (fun hne => hne h.1) (fun hne => hne h.2)

/-! ## An outbox in memory -/

def queueIn (rows : List (Int × Post)) (p : Post) : Except String (Int × List (Int × Post)) :=
  match rows.find? fun r => r.2.idem_key = p.idem_key with
  | some r => if r.2 = p then .ok (r.1, rows) else .error ("idempotency key " ++ reused)
  | none => .ok (rows.length + 1, rows ++ [((rows.length + 1 : Int), p)])

def inMemory : Outbox (List (Int × Post)) where
  queue_post := queueIn
  lookup rows key := rows.find? fun r => r.2.idem_key = key
  sent_ts _ _ _ := none

theorem inMemory_keyed : inMemory.Keyed where
  same h := by
    simp only [inMemory] at h
    simp [inMemory, queueIn, h]
  other h hne := by
    simp only [inMemory] at h
    refine ⟨"idempotency key " ++ reused, ?_, ?_⟩
    · simp [inMemory, queueIn, h, hne]
    · rw [String.toList_append]
      exact (List.suffix_append _ _).isInfix
  stored {s p id s'} h := by
    simp only [inMemory, queueIn] at h ⊢
    split at h
    · rename_i r hr
      split at h
      · rename_i hp
        cases h
        subst hp
        exact ⟨hr, fun _ _ => rfl⟩
      · cases h
    · rename_i hnone
      cases h
      refine ⟨?_, ?_⟩
      · rw [List.find?_append, hnone]
        simp
      · intro k hk
        rw [List.find?_append]
        simp [Ne.symm hk]

section Example

def room : Config := ⟨"UOWNER", "TTEAM", ["CROOM"]⟩

def root : Target := .thread "TTEAM:CROOM:100.1"

/-- The thread at turn `n` with an outbox. -/
def at_turn (n : Int) (rows : List (Int × Post)) : Store (List (Int × Post)) where
  outbox := rows
  thread id := if id = "TTEAM:CROOM:100.1" then some ⟨"TTEAM", "CROOM", "100.1", n⟩ else none
  names _ := none

def claim : PostRequest := ⟨"study_claim", "complete", "Claim", "", some "claim-0001"⟩

def queued : List (Int × Post) := (post inMemory room "p" root claim (at_turn 3 [])).2

theorem post_first : post inMemory room "p" root claim (at_turn 3 []) = (.answered 1 none, queued) :=
  by decide

theorem turn_at_turn (n : Int) :
    (at_turn 3 queued).turn "TTEAM:CROOM:100.1" n = at_turn n queued := by
  unfold Store.turn at_turn
  congr 1
  funext i
  dsimp only
  split <;> rfl

theorem later_at_turn (n : Int) :
    Later inMemory { at_turn 3 [] with outbox := queued } (at_turn n queued) := by
  rw [← turn_at_turn n]
  exact later_of_steps inMemory_keyed (.single (.turn _ n))

/-- A repeat after the thread moved on is refused, and a request that adds details is queued. -/
theorem post_broken :
    post inMemory room "p" root claim (at_turn 3 []) = (.answered 1 none, queued) ∧
      Later inMemory { at_turn 3 [] with outbox := queued } (at_turn 4 queued) ∧
      ¬ Answers inMemory room "q" root claim claim 1 (at_turn 4 queued) ∧
      ¬ Answers inMemory room "q" root claim { claim with details := "more" } 1
          (at_turn 3 queued) := by
  refine ⟨post_first, later_at_turn 4, ?_, ?_⟩
  · have hrefused : (post inMemory room "q" root claim (at_turn 4 queued)).1 =
        .refused 409 "client_id_conflict" := by decide
    rw [Answers, if_pos rfl]
    rintro ⟨thread, h⟩
    rw [h] at hrefused
    cases hrefused
  · rw [Answers, if_neg (by decide)]
    decide

theorem answers_iff_claim :
    Answers inMemory room "q" root claim claim 1 (at_turn 3 queued) ∧
      Answers inMemory room "q" root claim { claim with text := "Other" } 1 (at_turn 3 queued) :=
  ⟨(answers_iff inMemory_keyed post_first rfl rfl (by decide) (later_at_turn 3)).mpr (by decide),
    (answers_iff inMemory_keyed post_first rfl rfl (by decide) (later_at_turn 3)).mpr (by decide)⟩

end Example

end Fridica.External
