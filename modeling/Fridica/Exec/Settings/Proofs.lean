import Fridica.Exec.Settings.Spec
import Fridica.Lib.Checked
import Mathlib.Data.List.Forall2

/-!
# No server is left

A cleaned document has no live server at any depth, is as it was outside the maps of servers, and the
aliases name every server that there was.
-/

namespace Fridica.Exec.Settings

open Fridica.Checked

variable {σ : Type}

/-! ## What is said of a document -/

/-- A value at any depth of a document, not within a server. -/
inductive Part : Document σ → Document σ → Prop
  | refl (d) : Part d d
  | item {items d p} : d ∈ items → Part d p → Part (.list items) p
  | entry {entries key d p} : (key, d) ∈ entries → holds_servers key = false → Part d p →
      Part (.dict entries) p

/-- Every server of every map, at any depth, is the stub, or removed. -/
def Disabled (d : Document σ) : Prop :=
  ∀ entries, Part d (.dict entries) → ∀ e ∈ entries,
    (e.1 = "mcp_servers" → ∃ servers, e.2 = .dict servers ∧ ∀ s ∈ servers, s.2 = stub) ∧
    (e.1 = "mcpServers" → e.2 = .dict [])

/-- The document has a server of this name, not within another server. -/
inductive Configured : Document σ → String → Prop
  | server {entries key servers name server} : (key, .dict servers) ∈ entries →
      holds_servers key = true → (name, server) ∈ servers → Configured (.dict entries) name
  | item {items d name} : d ∈ items → Configured d name → Configured (.list items) name
  | entry {entries key d name} : (key, d) ∈ entries → holds_servers key = false →
      Configured d name → Configured (.dict entries) name

mutual

/-- The document with the maps of servers left out of sight. -/
def outside : Document σ → Document σ
  | .list items => .list (outside_items items)
  | .dict entries => .dict (outside_entries entries)
  | value => value

def outside_items : List (Document σ) → List (Document σ)
  | [] => []
  | d :: rest => outside d :: outside_items rest

def outside_entries : List (String × Document σ) → List (String × Document σ)
  | [] => []
  | (key, d) :: rest =>
    (key, if holds_servers key then .dict [] else outside d) :: outside_entries rest

end

/-- Induction over a document, with the hypothesis for every item and entry. -/
theorem Document.induct {P : Document σ → Prop} (text : ∀ s, P (.text s)) (bool : ∀ b, P (.bool b))
    (scalar : ∀ a, P (.scalar a)) (list : ∀ items, (∀ d ∈ items, P d) → P (.list items))
    (dict : ∀ entries, (∀ e ∈ entries, P e.2) → P (.dict entries)) (d : Document σ) : P d :=
  Document.rec (motive_1 := P) (motive_2 := fun items => ∀ d ∈ items, P d)
    (motive_3 := fun entries => ∀ e ∈ entries, P e.2) (motive_4 := fun e => P e.2)
    text bool scalar list dict (by simp)
    (fun d items hd hitems x hx => (List.mem_cons.mp hx).elim (· ▸ hd) (hitems x))
    (by simp)
    (fun e entries he hentries x hx => (List.mem_cons.mp hx).elim (· ▸ he) (hentries x))
    (fun _ _ h => h) d

/-! ## The servers of one map -/

theorem mem_add {name a : String} {aliases : List String} :
    a ∈ add name aliases ↔ a = name ∨ a ∈ aliases := by
  unfold add
  split <;> simp_all [or_comm]

theorem recognized_ok {server : List (String × Document σ)} {found : Bool}
    (h : recognized server = .ok found) : found = true := by
  unfold recognized at h
  dsimp only at h
  split at h
  · cases h
  · exact (Except.ok.inj h).symm

/-- What the walk leaves of a map of servers. -/
def left (clean : Bool) (key : String) (servers : List (String × Document σ)) :
    List (String × Document σ) :=
  if clean then if key = "mcp_servers" then servers.map fun s => (s.1, stub) else [] else servers

theorem visit_servers_ok {clean : Bool} {key : String}
    {servers servers' : List (String × Document σ)}
    {aliases aliases' : List String}
    (h : visit_servers clean key servers aliases = .ok (servers', aliases')) :
    servers' = left clean key servers ∧
      ∀ a, a ∈ aliases' ↔ a ∈ aliases ∨ ∃ s ∈ servers, s.1 = a := by
  induction servers generalizing servers' aliases with
  | nil =>
    obtain ⟨rfl, rfl⟩ := Prod.mk.inj (Except.ok.inj h)
    simp [left]
  | cons server rest ih =>
    obtain ⟨name, value⟩ := server
    cases value with
    | dict fields =>
      unfold visit_servers at h
      dsimp only at h
      split at h
      · cases h
      obtain ⟨found, hfound, h⟩ := bind_ok.mp h
      obtain rfl := recognized_ok hfound
      obtain ⟨⟨rest', aliases₁⟩, hrest, h⟩ := bind_ok.mp h
      obtain ⟨rfl, rfl⟩ := Prod.mk.inj (pure_ok.mp h)
      obtain ⟨rfl, hmem⟩ := ih hrest
      refine ⟨?_, fun a => ?_⟩
      · unfold left
        cases clean with
        | true =>
          simp only [Bool.and_self, if_true]
          split <;> simp
        | false => simp
      · rw [hmem, if_pos rfl, mem_add]
        simp only [List.mem_cons, exists_eq_or_imp]
        grind
    | text | bool | scalar | list =>
      unfold visit_servers at h
      cases h

/-! ## The walk -/

theorem eq_of_forall₂ {α : Type} {R : α → α → Prop} {l l' : List α} (h : List.Forall₂ R l l')
    (hr : ∀ {x y}, R x y → y = x) : l' = l := by
  induction h with
  | nil => rfl
  | cons hxy _ ih => rw [hr hxy, ih]

/-- What the walk does to a document. -/
structure Walked (clean : Bool) (d d' : Document σ) : Prop where
  disabled : clean = true → Disabled d'
  outside : Settings.outside d' = Settings.outside d
  same : clean = false → d' = d

theorem part_list {items : List (Document σ)} {p : Document σ} (h : Part (.list items) p) :
    p = .list items ∨ ∃ d ∈ items, Part d p := by
  cases h with
  | refl => exact .inl rfl
  | item hd hp => exact .inr ⟨_, hd, hp⟩

theorem part_dict {entries : List (String × Document σ)} {p : Document σ}
    (h : Part (.dict entries) p) :
    p = .dict entries ∨ ∃ e ∈ entries, holds_servers e.1 = false ∧ Part e.2 p := by
  cases h with
  | refl => exact .inl rfl
  | entry hd hkey hp => exact .inr ⟨_, hd, hkey, hp⟩

theorem disabled_list {items : List (Document σ)} (h : ∀ d ∈ items, Disabled d) :
    Disabled (.list items) := by
  intro entries hp
  rcases part_list hp with hlist | ⟨d, hd, hp⟩
  · cases hlist
  · exact h d hd entries hp

theorem disabled_dict {entries : List (String × Document σ)}
    (hservers : ∀ e ∈ entries, holds_servers e.1 = true →
      ∃ servers, e.2 = .dict (left true e.1 servers))
    (h : ∀ e ∈ entries, holds_servers e.1 = false → Disabled e.2) : Disabled (.dict entries) := by
  intro entries' hp
  rcases part_dict hp with hdict | ⟨e, he, hkey, hp⟩
  · obtain rfl := Document.dict.inj hdict
    intro e he
    constructor
    · intro hname
      obtain ⟨servers, hvalue⟩ := hservers e he (by rw [hname]; rfl)
      refine ⟨_, hvalue, fun s hs => ?_⟩
      unfold left at hs
      rw [if_pos rfl, if_pos hname] at hs
      obtain ⟨s', -, rfl⟩ := List.mem_map.mp hs
      rfl
    · intro hname
      obtain ⟨servers, hvalue⟩ := hservers e he (by rw [hname]; rfl)
      rw [hvalue, hname]
      rfl
  · exact h e he hkey entries' hp

theorem visit_items_ok {clean : Bool} {depth : Nat} {items items' : List (Document σ)}
    {aliases aliases' : List String}
    (ih : ∀ d ∈ items, ∀ depth aliases d' aliases',
      visit clean depth d aliases = .ok (d', aliases') →
        Walked clean d d' ∧ ∀ a, a ∈ aliases' ↔ a ∈ aliases ∨ Configured d a)
    (h : visit_items clean depth items aliases = .ok (items', aliases')) :
    List.Forall₂ (Walked clean) items items' ∧
      ∀ a, a ∈ aliases' ↔ a ∈ aliases ∨ ∃ d ∈ items, Configured d a := by
  induction items generalizing items' aliases with
  | nil =>
    obtain ⟨rfl, rfl⟩ := Prod.mk.inj (Except.ok.inj h)
    exact ⟨.nil, by simp⟩
  | cons d rest ihl =>
    unfold visit_items at h
    obtain ⟨⟨d', aliases₁⟩, hd, h⟩ := bind_ok.mp h
    obtain ⟨⟨rest', aliases₂⟩, hrest, h⟩ := bind_ok.mp h
    obtain ⟨rfl, rfl⟩ := Prod.mk.inj (pure_ok.mp h)
    obtain ⟨hwalked, hmem⟩ := ih d (by simp) _ _ _ _ hd
    obtain ⟨hwalks, hmems⟩ := ihl (fun x hx => ih x (by simp [hx])) hrest
    refine ⟨.cons hwalked hwalks, fun a => ?_⟩
    rw [hmems, hmem]
    simp only [List.mem_cons, exists_eq_or_imp]
    exact or_assoc

/-- What the walk does to one entry. -/
def EntryWalked (clean : Bool) (e e' : String × Document σ) : Prop :=
  e'.1 = e.1 ∧
    if holds_servers e.1 then
      ∃ servers, e.2 = .dict servers ∧ e'.2 = .dict (left clean e.1 servers)
    else Walked clean e.2 e'.2

theorem visit_entries_ok {clean : Bool} {depth : Nat}
    {entries entries' : List (String × Document σ)} {aliases aliases' : List String}
    (ih : ∀ e ∈ entries, ∀ depth aliases d' aliases',
      visit clean depth e.2 aliases = .ok (d', aliases') →
        Walked clean e.2 d' ∧ ∀ a, a ∈ aliases' ↔ a ∈ aliases ∨ Configured e.2 a)
    (h : visit_entries clean depth entries aliases = .ok (entries', aliases')) :
    List.Forall₂ (EntryWalked clean) entries entries' ∧
      ∀ a, a ∈ aliases' ↔ a ∈ aliases ∨ Configured (.dict entries) a := by
  induction entries generalizing entries' aliases with
  | nil =>
    obtain ⟨rfl, rfl⟩ := Prod.mk.inj (Except.ok.inj h)
    refine ⟨.nil, fun a => (or_iff_left ?_).symm⟩
    rintro (⟨hin, -⟩ | - | ⟨hin, -⟩) <;> cases hin
  | cons entry rest ihl =>
    obtain ⟨key, child⟩ := entry
    have hconfigured : ∀ a, Configured (.dict ((key, child) :: rest)) a ↔
        (if holds_servers key then ∃ servers, child = .dict servers ∧ ∃ s ∈ servers, s.1 = a
          else Configured child a) ∨ Configured (.dict rest) a := by
      intro a
      constructor
      · rintro (⟨hin, hkey, hs⟩ | - | ⟨hin, hkey, hc⟩)
        · rcases List.mem_cons.mp hin with heq | hin
          · obtain ⟨rfl, rfl⟩ := Prod.mk.inj heq
            rw [if_pos hkey]
            exact .inl ⟨_, rfl, _, hs, rfl⟩
          · exact .inr (.server hin hkey hs)
        · rcases List.mem_cons.mp hin with heq | hin
          · obtain ⟨rfl, rfl⟩ := Prod.mk.inj heq
            rw [hkey]
            exact .inl hc
          · exact .inr (.entry hin hkey hc)
      · rintro (hhere | hrest)
        · cases hkey : holds_servers key with
          | true =>
            rw [if_pos hkey] at hhere
            obtain ⟨servers, rfl, ⟨name, server⟩, hs, rfl⟩ := hhere
            exact .server (List.mem_cons_self ..) hkey hs
          | false =>
            rw [hkey] at hhere
            exact .entry (List.mem_cons_self ..) hkey hhere
        · cases hrest with
          | server hin hkey hs => exact .server (List.mem_cons_of_mem _ hin) hkey hs
          | entry hin hkey hc => exact .entry (List.mem_cons_of_mem _ hin) hkey hc
    unfold visit_entries at h
    cases hkey : holds_servers key with
    | true =>
      rw [if_pos hkey] at h
      cases child with
      | dict servers =>
        dsimp only at h
        obtain ⟨⟨servers', aliases₁⟩, hs, h⟩ := bind_ok.mp h
        obtain ⟨⟨rest', aliases₂⟩, hrest, h⟩ := bind_ok.mp h
        obtain ⟨rfl, rfl⟩ := Prod.mk.inj (pure_ok.mp h)
        obtain ⟨rfl, hmem⟩ := visit_servers_ok hs
        obtain ⟨hwalks, hmems⟩ := ihl (fun x hx => ih x (by simp [hx])) hrest
        refine ⟨.cons ⟨rfl, ?_⟩ hwalks, fun a => ?_⟩
        · rw [if_pos hkey]
          exact ⟨servers, rfl, rfl⟩
        · rw [hmems, hmem, hconfigured, if_pos hkey]
          simp [or_assoc]
      | text | bool | scalar | list => cases h
    | false =>
      rw [hkey] at h
      obtain ⟨⟨d', aliases₁⟩, hd, h⟩ := bind_ok.mp h
      obtain ⟨⟨rest', aliases₂⟩, hrest, h⟩ := bind_ok.mp h
      obtain ⟨rfl, rfl⟩ := Prod.mk.inj (pure_ok.mp h)
      obtain ⟨hwalked, hmem⟩ := ih (key, child) (by simp) _ _ _ _ hd
      obtain ⟨hwalks, hmems⟩ := ihl (fun x hx => ih x (by simp [hx])) hrest
      refine ⟨.cons ⟨rfl, ?_⟩ hwalks, fun a => ?_⟩
      · rw [hkey]
        exact hwalked
      · rw [hmems, hmem, hconfigured, hkey]
        exact or_assoc

theorem outside_items_of {clean : Bool} {items items' : List (Document σ)}
    (h : List.Forall₂ (Walked clean) items items') :
    outside_items items' = outside_items items := by
  induction h with
  | nil => rfl
  | cons hd _ ih => rw [outside_items, outside_items, hd.outside, ih]

theorem outside_entries_of {clean : Bool} {entries entries' : List (String × Document σ)}
    (h : List.Forall₂ (EntryWalked clean) entries entries') :
    outside_entries entries' = outside_entries entries := by
  induction h with
  | nil => rfl
  | @cons e e' _ _ he _ ih =>
    obtain ⟨key, d⟩ := e
    obtain ⟨key', d'⟩ := e'
    obtain ⟨rfl, hwalked⟩ := he
    rw [outside_entries, outside_entries, ih]
    dsimp only at hwalked
    cases hkey : holds_servers key' with
    | true => rfl
    | false =>
      rw [hkey] at hwalked
      rw [show outside d' = outside d from Walked.outside hwalked]

theorem visit_ok {clean : Bool} {d : Document σ} : ∀ {depth : Nat} {aliases : List String}
    {d' : Document σ} {aliases' : List String},
    visit clean depth d aliases = .ok (d', aliases') →
      Walked clean d d' ∧ ∀ a, a ∈ aliases' ↔ a ∈ aliases ∨ Configured d a := by
  induction d using Document.induct with
  | text | bool | scalar =>
    intro depth aliases d' aliases' h
    unfold visit at h
    split at h
    · cases h
    obtain ⟨rfl, rfl⟩ := Prod.mk.inj (Except.ok.inj h)
    refine ⟨⟨?_, rfl, fun _ => rfl⟩, fun a => (or_iff_left ?_).symm⟩
    · intro _ entries hp
      cases hp
    · intro hc
      cases hc
  | list items ih =>
    intro depth aliases d' aliases' h
    unfold visit at h
    split at h
    · cases h
    obtain ⟨⟨items', aliases₁⟩, hitems, h⟩ := bind_ok.mp h
    obtain ⟨rfl, rfl⟩ := Prod.mk.inj (pure_ok.mp h)
    obtain ⟨hwalks, hmem⟩ := visit_items_ok (fun d hd _ _ _ _ => ih d hd) hitems
    refine ⟨⟨fun hclean => disabled_list fun d hd => ?_, ?_, fun hclean => ?_⟩, fun a => ?_⟩
    · obtain ⟨_, -, hw⟩ := Checked.exists_of_mem_right hwalks hd
      exact hw.disabled hclean
    · rw [outside, outside, outside_items_of hwalks]
    · rw [eq_of_forall₂ hwalks fun hw => hw.same hclean]
    · rw [hmem]
      refine or_congr_right ⟨fun ⟨d, hd, hc⟩ => .item hd hc, ?_⟩
      rintro (- | ⟨hd, hc⟩ | -)
      exact ⟨_, hd, hc⟩
  | dict entries ih =>
    intro depth aliases d' aliases' h
    unfold visit at h
    split at h
    · cases h
    obtain ⟨⟨entries', aliases₁⟩, hentries, h⟩ := bind_ok.mp h
    obtain ⟨rfl, rfl⟩ := Prod.mk.inj (pure_ok.mp h)
    obtain ⟨hwalks, hmem⟩ := visit_entries_ok (fun e he _ _ _ _ => ih e he) hentries
    refine ⟨⟨fun hclean => ?_, ?_, fun hclean => ?_⟩, hmem⟩
    · refine disabled_dict (fun e' he' hkey => ?_) fun e' he' hkey => ?_
      all_goals
        obtain ⟨e, he, hname, hw⟩ := Checked.exists_of_mem_right hwalks he'
        rw [← hname, hkey] at hw
      · obtain ⟨servers, -, hvalue⟩ := hw
        exact ⟨servers, by rw [hvalue, hname, hclean]⟩
      · exact Walked.disabled hw hclean
    · rw [outside, outside, outside_entries_of hwalks]
    · rw [eq_of_forall₂ hwalks]
      rintro ⟨key, d⟩ ⟨key', d'⟩ ⟨rfl, hw⟩
      dsimp only at hw
      split at hw
      · obtain ⟨servers, rfl, rfl⟩ := hw
        rw [hclean]
        rfl
      · rw [Walked.same hw hclean]

/-! ## The aliases aside -/

/-- A walk over some aliases that gives the same whichever they are. -/
def Steady {α : Type} (walk : List String → Except Refused (α × List String)) : Prop :=
  ∀ aliases x aliases', walk aliases = .ok (x, aliases') →
    ∀ others, ∃ others', walk others = .ok (x, others')

section Steady

variable {α β : Type} {clean : Bool} {depth : Nat}

theorem steady_ok (x : α) (f : List String → List String) :
    Steady fun aliases => .ok (x, f aliases) := by
  intro aliases y aliases' h others
  obtain ⟨rfl, -⟩ := Prod.mk.inj (Except.ok.inj h)
  exact ⟨_, rfl⟩

theorem steady_refused : Steady fun _ => (.error ⟨⟩ : Except Refused (α × List String)) := by
  intro aliases y aliases' h
  cases h

theorem Steady.bind {walk : List String → Except Refused (α × List String)}
    {next : α → List String → Except Refused (β × List String)} (h : Steady walk)
    (hnext : ∀ x, Steady (next x)) :
    Steady fun aliases => walk aliases >>= fun (x, aliases) => next x aliases := by
  intro aliases y aliases' hall others
  obtain ⟨⟨x, aliases₁⟩, hwalk, hrest⟩ := bind_ok.mp hall
  obtain ⟨others₁, hothers⟩ := h _ _ _ hwalk others
  obtain ⟨others₂, hrest'⟩ := hnext x _ _ _ hrest others₁
  exact ⟨others₂, bind_ok.mpr ⟨_, hothers, hrest'⟩⟩

theorem steady_servers (key : String) (servers : List (String × Document σ)) :
    Steady (visit_servers clean key servers) := by
  induction servers with
  | nil => exact steady_ok [] id
  | cons server rest ih =>
    obtain ⟨name, value⟩ := server
    show Steady fun aliases => visit_servers clean key ((name, value) :: rest) aliases
    simp only [visit_servers]
    cases value with
    | dict fields =>
      dsimp only
      split
      · exact steady_refused
      · cases recognized fields with
        | error e => exact fun _ _ _ h => nomatch h
        | ok found =>
          intro aliases x aliases' h others
          have hrest := ih.bind fun rest => steady_ok
            ((if found && clean then if key = "mcp_servers" then [(name, stub)] else []
              else [(name, .dict fields)]) ++ rest) id
          exact hrest _ _ _ h (if found then add name others else others)
    | text | bool | scalar | list => exact steady_refused

theorem steady_items {items : List (Document σ)}
    (ih : ∀ d ∈ items, ∀ depth, Steady (visit clean depth d)) :
    Steady (visit_items clean depth items) := by
  induction items with
  | nil => exact steady_ok [] id
  | cons d rest ihl =>
    show Steady fun aliases => visit_items clean depth (d :: rest) aliases
    simp only [visit_items]
    exact (ih d (by simp) depth).bind fun d =>
      (ihl fun x hx => ih x (by simp [hx])).bind fun rest => steady_ok (d :: rest) id

theorem steady_entries {entries : List (String × Document σ)}
    (ih : ∀ e ∈ entries, ∀ depth, Steady (visit clean depth e.2)) :
    Steady (visit_entries clean depth entries) := by
  induction entries with
  | nil => exact steady_ok [] id
  | cons entry rest ihl =>
    obtain ⟨key, child⟩ := entry
    have hrest := ihl fun x hx => ih x (by simp [hx])
    show Steady fun aliases => visit_entries clean depth ((key, child) :: rest) aliases
    simp only [visit_entries]
    split
    · cases child with
      | dict servers =>
        exact (steady_servers key servers).bind fun servers =>
          hrest.bind fun rest => steady_ok ((key, .dict servers) :: rest) id
      | text | bool | scalar | list => exact steady_refused
    · exact (ih (key, child) (by simp) depth).bind fun child =>
        hrest.bind fun rest => steady_ok ((key, child) :: rest) id

theorem steady_visit (d : Document σ) : ∀ depth, Steady (visit clean depth d) := by
  induction d using Document.induct with
  | text | bool | scalar =>
    intro depth
    show Steady fun aliases => visit clean depth _ aliases
    simp only [visit]
    split
    · exact steady_refused
    · exact steady_ok _ id
  | list items ih =>
    intro depth
    show Steady fun aliases => visit clean depth (.list items) aliases
    simp only [visit]
    split
    · exact steady_refused
    · exact (steady_items ih).bind fun items => steady_ok (Document.list items) id
  | dict entries ih =>
    intro depth
    show Steady fun aliases => visit clean depth (.dict entries) aliases
    simp only [visit]
    split
    · exact steady_refused
    · exact (steady_entries ih).bind fun entries => steady_ok (Document.dict entries) id

end Steady

/-! ## Every layer -/

theorem discover_ok {layers : List (Layer σ)} {aliases aliases' : List String}
    (h : discover layers aliases = .ok aliases') :
    ∀ a, a ∈ aliases' ↔ a ∈ aliases ∨ ∃ l ∈ layers, Configured l.2 a := by
  induction layers generalizing aliases with
  | nil =>
    obtain rfl := Except.ok.inj h
    simp
  | cons layer layers ih =>
    unfold discover at h
    obtain ⟨⟨d', aliases₁⟩, hvisit, h⟩ := bind_ok.mp h
    intro a
    rw [ih h, (visit_ok hvisit).2]
    simp only [List.mem_cons, exists_eq_or_imp]
    exact or_assoc

/-- The snapshot holds the document cleaned, and as it was outside the maps of servers. -/
def Cleaned {δ : Type} (render : String → Document σ → Except Refused δ) (layer : Layer σ)
    (snapshot : String × δ) : Prop :=
  snapshot.1 = layer.1 ∧ ∃ d, render layer.1 d = .ok snapshot.2 ∧ Disabled d ∧
    outside d = outside layer.2

theorem clean_ok {δ : Type} {render : String → Document σ → Except Refused δ}
    {layers : List (Layer σ)} {aliases aliases' : List String} {snapshots : List (String × δ)}
    (h : clean render layers aliases = .ok (snapshots, aliases')) :
    List.Forall₂ (Cleaned render) layers snapshots ∧ ∀ a ∈ aliases, a ∈ aliases' := by
  induction layers generalizing aliases snapshots with
  | nil =>
    obtain ⟨rfl, rfl⟩ := Prod.mk.inj (Except.ok.inj h)
    exact ⟨.nil, fun _ ha => ha⟩
  | cons layer layers ih =>
    unfold clean at h
    obtain ⟨⟨d', aliases₁⟩, hvisit, h⟩ := bind_ok.mp h
    obtain ⟨data, hdata, h⟩ := bind_ok.mp h
    obtain ⟨⟨snapshots', aliases₂⟩, hrest, h⟩ := bind_ok.mp h
    obtain ⟨rfl, rfl⟩ := Prod.mk.inj (pure_ok.mp h)
    obtain ⟨hwalked, hmem⟩ := visit_ok hvisit
    obtain ⟨hclean, hkeep⟩ := ih hrest
    refine ⟨.cons ⟨rfl, d', hdata, hwalked.disabled rfl, hwalked.outside⟩ hclean, ?_⟩
    exact fun a ha => hkeep a ((hmem a).mpr (.inl ha))

/-- **No server of any layer is left.** -/
theorem snapshots_disabled {δ : Type} {codex_only : Bool}
    {render : String → Document σ → Except Refused δ} {layers : List (Layer σ)}
    {snapshots : List (String × δ)} {aliases : List String}
    (h : settings_snapshots codex_only render layers = .ok (snapshots, aliases)) :
    (∀ l ∈ layers, ∀ a, Configured l.2 a → a ∈ aliases) ∧
      (codex_only = false → List.Forall₂ (Cleaned render) layers snapshots) := by
  unfold settings_snapshots at h
  obtain ⟨found, hfound, h⟩ := bind_ok.mp h
  have hall : ∀ l ∈ layers, ∀ a, Configured l.2 a → a ∈ found :=
    fun l hl a ha => (discover_ok hfound a).mpr (.inr ⟨l, hl, ha⟩)
  split at h
  · cases h
  split at h
  next honly =>
    obtain ⟨-, rfl⟩ := Prod.mk.inj (pure_ok.mp h)
    exact ⟨fun l hl a ha => List.mem_mergeSort.mpr (hall l hl a ha), by simp [honly]⟩
  · obtain ⟨⟨snapshots', aliases₁⟩, hclean, h⟩ := bind_ok.mp h
    obtain ⟨rfl, rfl⟩ := Prod.mk.inj (pure_ok.mp h)
    obtain ⟨hcleaned, hkeep⟩ := clean_ok hclean
    exact ⟨fun l hl a ha => List.mem_mergeSort.mpr (hkeep a (hall l hl a ha)), fun _ => hcleaned⟩

/-- A layer with a server in a profile, in a list and under the other key. -/
def layered : Document Nat :=
  .dict [("model", .text "m"),
    ("mcp_servers", .dict [("a", .dict [("command", .text "run")])]),
    ("profiles", .list [.dict [("mcpServers", .dict [("b", .dict [])]), ("n", .scalar 3)]])]

theorem layered_accepted : ∃ snapshots, settings_snapshots false (fun _ d => .ok d)
    [("/x.json", layered)] = .ok (snapshots, ["a", "b"].mergeSort) := by
  have hfound : discover [("/x.json", layered)] [] = .ok ["a", "b"] := rfl
  have hclean : clean (fun _ d => .ok d) [("/x.json", layered)] ["a", "b"] =
      .ok (_, ["a", "b"]) := rfl
  unfold settings_snapshots
  rw [hfound]
  dsimp only [bind, Except.bind]
  rw [hclean]
  exact ⟨_, rfl⟩

theorem snapshots_disabled_layered : ∃ snapshots,
    (∀ l ∈ [("/x.json", layered)], ∀ a, Configured l.2 a → a ∈ ["a", "b"]) ∧
      List.Forall₂ (Cleaned fun _ d => .ok d) [("/x.json", layered)] snapshots := by
  obtain ⟨snapshots, haccepted⟩ := layered_accepted
  obtain ⟨hall, hcleaned⟩ := snapshots_disabled haccepted
  exact ⟨_, fun l hl a ha => List.mem_mergeSort.mp (hall l hl a ha), hcleaned rfl⟩

end Fridica.Exec.Settings
