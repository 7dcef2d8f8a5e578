import Fridica.Exec.Isolation.Spec
import Fridica.Exec.Settings.Proofs

/-!
# No private file is seen

A private path is below a mask, and nothing mounted after the masks is at or above it.
-/

namespace Fridica.Exec.Isolation

open Fridica.Checked Fridica.Path

variable {σ δ : Type} {host : Host σ δ}

/-! ## Paths -/

theorem path_normal {value p : Text} (h : path value = .ok p) : Normal p := by
  unfold path at h
  split at h
  · cases h
  · cases h
    rw [cons_intercalate]
    refine normal_render fun c hc => ?_
    rw [List.mem_filter] at hc
    exact ⟨by simpa using hc.2, not_mem_split value c hc.1⟩

theorem within_iff {p q : Text} (hp : Normal p) (hq : Normal q) :
    within p q = true ↔ parts q <+: parts p := by
  rw [within, decide_eq_true_iff]
  exact hp.within_iff hq

theorem target_normal {request : Request} {home value p : Text}
    (h : target request home value = .ok p) : Normal p := by
  unfold target at h
  split at h <;> exact path_normal h

theorem home_normal {request : Request} {home : Text} (h : home_of host request = .ok home) :
    Normal home := by
  unfold home_of at h
  split at h
  · exact path_normal h
  · exact path_normal h
  · cases h

theorem below_home {home : Text} (h : Normal home) (hne : home ≠ ['/']) {ds : List Text}
    (hds : ∀ d ∈ ds, IsPart d) (hnil : ds ≠ []) :
    Normal (home ++ joined ds) ∧ parts (home ++ joined ds) = parts home ++ ds := by
  have hbelow := h.below hds hnil
  rwa [h.rstrip hne] at hbelow

/-! ## The filesystem -/

theorem walk_ok {nodes : Nodes} {here todo : List Text} (h : walk nodes here todo = .ok ()) :
    ∀ p, p <+: todo → p ≠ [] → nodes (here ++ p) = some .directory := by
  induction todo generalizing here with
  | nil => exact fun p hp hne => absurd (List.prefix_nil.mp hp) hne
  | cons part rest ih =>
    unfold walk at h
    split at h
    · cases h
    · rename_i hpart
      intro p hp hne
      cases p with
      | nil => exact absurd rfl hne
      | cons q p =>
        obtain ⟨rfl, htail⟩ := List.cons_prefix_cons.mp hp
        by_cases hnil : p = []
        · rw [hnil]
          exact hpart
        · have hrest := ih h p htail hnil
          rwa [List.append_assoc] at hrest
    · cases h

theorem regular_ok {nodes : Nodes} {value : Text} {data : List UInt8}
    (h : regular nodes value = .ok data) :
    ∃ links, nodes (parts value) = some (.file data links) := by
  unfold regular at h
  obtain ⟨_, _, h⟩ := bind_ok.mp h
  split at h
  · cases h
  · rename_i d links hnode
    split at h
    · cases h
      exact ⟨links, hnode⟩
    · cases h
  · cases h

/-- What there is stays. -/
def Extends (nodes nodes' : Nodes) : Prop := ∀ p n, nodes p = some n → nodes' p = some n

theorem Extends.refl (nodes : Nodes) : Extends nodes nodes := fun _ _ h => h

theorem Extends.trans {a b c : Nodes} (hab : Extends a b) (hbc : Extends b c) : Extends a c :=
  fun p n h => hbc p n (hab p n h)

theorem extends_update {nodes : Nodes} {p : List Text} {n : Node} (h : nodes p = none) :
    Extends nodes (Function.update nodes p (some n)) := by
  intro q m hm
  have hq : q ≠ p := by
    rintro rfl
    rw [h] at hm
    cases hm
  rwa [Function.update_of_ne hq]

theorem walk_create_extends {nodes nodes' : Nodes} {here todo : List Text}
    (h : walk_create nodes here todo = .ok nodes') : Extends nodes nodes' := by
  induction todo generalizing nodes here with
  | nil =>
    cases h
    exact .refl _
  | cons part rest ih =>
    unfold walk_create at h
    split at h
    · rename_i hnone
      exact (extends_update hnone).trans (ih h)
    · exact ih h
    · cases h

theorem default_extends {nodes nodes' : Nodes} {value : Text} {data : List UInt8}
    (h : default nodes value data = .ok nodes') : Extends nodes nodes' := by
  unfold default at h
  obtain ⟨nodes₁, h₁, h⟩ := bind_ok.mp h
  have hfirst : Extends nodes nodes₁ := walk_create_extends h₁
  split at h
  · exact hfirst.trans (pure_ok.mp h ▸ .refl nodes₁)
  · rename_i hnone
    rw [← pure_ok.mp h]
    exact hfirst.trans (extends_update (by simpa using hnone))

theorem prepared_extends {nodes nodes' : Nodes} {home : Text}
    (h : prepared nodes home = .ok nodes') : Extends nodes nodes' := by
  unfold prepared at h
  obtain ⟨n₁, h₁, h⟩ := bind_ok.mp h
  obtain ⟨n₂, h₂, h⟩ := bind_ok.mp h
  obtain ⟨n₃, h₃, h⟩ := bind_ok.mp h
  obtain ⟨n₄, h₄, h⟩ := bind_ok.mp h
  exact (walk_create_extends h₁).trans <| (walk_create_extends h₂).trans <|
    (default_extends h₃).trans <| (default_extends h₄).trans (default_extends h)

theorem directories_ok {nodes : Nodes} {values : List Text}
    (h : directories nodes values = .ok ()) : ∀ v ∈ values, directory nodes v = .ok () := by
  induction values with
  | nil => exact nofun
  | cons v values ih =>
    unfold directories at h
    obtain ⟨_, hv, h⟩ := bind_ok.mp h
    rintro w (_ | ⟨_, hw⟩)
    · exact hv
    · exact ih h w hw

/-! ## The masks -/

theorem select_ok {selected masks out : List Text} (h : select selected masks = .ok out) :
    (∀ s ∈ selected, s ∈ out) ∧ (∀ s ∈ out, s ∈ selected ∨ s ∈ masks) ∧
      ∀ m ∈ masks, m ≠ ['/'] ∧ ∃ s ∈ out, within m s = true := by
  induction masks generalizing selected with
  | nil =>
    cases h
    exact ⟨fun _ hs => hs, fun _ hs => .inl hs, nofun⟩
  | cons mask masks ih =>
    unfold select at h
    split at h
    · cases h
    rename_i hroot
    split at h
    · rename_i hany
      obtain ⟨hkeep, hcomes, hcover⟩ := ih h
      refine ⟨hkeep, fun s hs => (hcomes s hs).imp_right (List.mem_cons_of_mem mask), ?_⟩
      rintro m (_ | ⟨_, hm⟩)
      · obtain ⟨s, hs, hwithin⟩ := List.any_eq_true.mp hany
        exact ⟨hroot, s, hkeep s hs, hwithin⟩
      · exact hcover m hm
    · obtain ⟨hkeep, hcomes, hcover⟩ := ih h
      refine ⟨fun s hs => hkeep s (List.mem_append_left _ hs), fun s hs => ?_, ?_⟩
      · rcases hcomes s hs with hs | hs
        · rcases List.mem_append.mp hs with hs | hs
          · exact .inl hs
          · exact .inr (List.mem_singleton.mp hs ▸ List.mem_cons_self)
        · exact .inr (List.mem_cons_of_mem mask hs)
      · rintro m (_ | ⟨_, hm⟩)
        · exact ⟨hroot, mask, hkeep mask (by simp), by simp [within]⟩
        · exact hcover m hm

theorem mem_masks_of {private_ : List Text} {m : Text} :
    m ∈ masks_of private_ ↔ ∃ p ∈ private_, dirname p = m := by
  unfold masks_of
  rw [List.mem_insertionSort, List.mem_dedup, List.mem_map]

theorem select_covers {private_ selected : List Text} (hnormal : ∀ p ∈ private_, Normal p)
    (h : select [] (masks_of private_) = .ok selected) :
    (∀ s ∈ selected, Normal s) ∧ ∀ p ∈ private_, ∃ s ∈ selected,
      parts s <+: (parts p).dropLast := by
  obtain ⟨-, hcomes, hcover⟩ := select_ok h
  have hselected : ∀ s ∈ selected, Normal s := by
    intro s hs
    rcases hcomes s hs with hs | hs
    · cases hs
    · obtain ⟨p, hp, rfl⟩ := mem_masks_of.mp hs
      exact (hnormal p hp).dirname.1
  refine ⟨hselected, fun p hp => ?_⟩
  obtain ⟨-, s, hs, hwithin⟩ := hcover (dirname p) (mem_masks_of.mpr ⟨p, hp, rfl⟩)
  refine ⟨s, hs, ?_⟩
  rw [← (hnormal p hp).dirname.2]
  exact (within_iff (hnormal p hp).dirname.1 (hselected s hs)).mp hwithin

/-! ## The settings -/

/-- A settings file, which is at a normal path that is not the root. -/
def IsFile (name : Text) : Prop := Normal name ∧ parts name ≠ []

theorem is_file_below {p : Text} (h : Normal p) {ds : List Text} (hds : ∀ d ∈ ds, IsPart d)
    (hne : ds ≠ []) : IsFile (rstrip p ++ joined ds) := by
  obtain ⟨hnormal, hparts⟩ := h.below hds hne
  refine ⟨hnormal, ?_⟩
  rw [hparts]
  simp [hne]

theorem normal_ancestors {fuel : Nat} {p : Text} (h : Normal p) :
    ∀ a ∈ ancestors fuel p, Normal a := by
  induction fuel generalizing p with
  | zero =>
    intro a ha
    rw [List.mem_singleton.mp ha]
    exact h
  | succ fuel ih =>
    intro a ha
    unfold ancestors at ha
    split at ha
    · rw [List.mem_singleton.mp ha]
      exact h
    · rcases List.mem_cons.mp ha with rfl | ha
      · exact h
      · exact ih h.dirname.1 a ha

theorem root_mem_ancestors {fuel : Nat} {p : Text} (h : Normal p)
    (hfuel : (parts p).length ≤ fuel) :
    ['/'] ∈ ancestors fuel p := by
  induction fuel generalizing p with
  | zero =>
    have hnil : parts p = [] := List.length_eq_zero_iff.mp (Nat.le_zero.mp hfuel)
    have hroot : p = ['/'] := by
      rw [← h.parts.2, hnil]
      rfl
    simp [ancestors, hroot]
  | succ fuel ih =>
    unfold ancestors
    split
    · rename_i hroot
      simp [hroot]
    · refine List.mem_cons_of_mem p (ih h.dirname.1 ?_)
      rw [h.dirname.2, List.length_dropLast]
      omega

/-- The fuel suffices: the search for layers ends at the root. -/
theorem ancestors_root {p : Text} (h : Normal p) : ['/'] ∈ ancestors p.length p :=
  root_mem_ancestors h h.length_parts

def IsSuffix (s : Text) : Prop :=
  ∃ ds : List Text, (∀ d ∈ ds, IsPart d) ∧ ds ≠ [] ∧ s = joined ds

theorem IsSuffix.file {p s : Text} (h : IsSuffix s) (hp : Normal p) : IsFile (rstrip p ++ s) := by
  obtain ⟨ds, hds, hne, rfl⟩ := h
  exact is_file_below hp hds hne

theorem is_suffix_of_mem {s : Text} (h : s ∈ suffixes) : IsSuffix s := by
  simp only [suffixes, List.mem_cons, List.not_mem_nil, or_false] at h
  rcases h with rfl | rfl | rfl | rfl
  · exact ⟨[text ".codex", text "config.toml"], by decide, by decide, by decide⟩
  · exact ⟨[text ".mcp.json"], by decide, by decide, by decide⟩
  · exact ⟨[text ".claude", text "settings.json"], by decide, by decide, by decide⟩
  · exact ⟨[text ".claude", text "settings.local.json"], by decide, by decide, by decide⟩

theorem scanned_ok {nodes : Nodes} {codex_home : Text} {names : List Text}
    (h : scanned host nodes codex_home = .ok names) :
    ∀ n ∈ names, ∃ part, IsPart part ∧ n = codex_home ++ '/' :: part := by
  unfold scanned at h
  split at h
  · cases h
    exact nofun
  · cases h
  · dsimp only at h
    split at h
    · cases h
    · cases h
      intro n hn
      obtain ⟨part, hpart, rfl⟩ := List.mem_map.mp hn
      obtain ⟨⟨part, hslash⟩, _, rfl⟩ := List.mem_map.mp (List.mem_filter.mp hpart).1
      exact ⟨part, hslash, rfl⟩

theorem candidates_ok {nodes : Nodes} {home workspace : Text} {names : List Text}
    (hhome : Normal home) (hne : home ≠ ['/']) (hworkspace : Normal workspace)
    (h : candidates host nodes home workspace = .ok names) : ∀ n ∈ names, IsFile n := by
  unfold candidates at h
  obtain ⟨entries, hentries, h⟩ := bind_ok.mp h
  dsimp only at h
  split at h
  · cases h
  rw [← pure_ok.mp h]
  intro n hn
  rw [List.mem_insertionSort, List.mem_dedup, List.mem_append, List.mem_append] at hn
  have hbelow : ∀ s, IsSuffix s → IsFile (home ++ s) := by
    intro s hs
    rw [← hhome.rstrip hne]
    exact hs.file hhome
  rcases hn with (hn | hn) | hn
  · simp only [List.mem_cons, List.not_mem_nil, or_false] at hn
    rcases hn with rfl | rfl | rfl | rfl | rfl | rfl
    · exact hbelow _ ⟨[text ".codex", text "config.toml"], by decide, by decide, by decide⟩
    · exact ⟨⟨[text "etc", text "codex", text "config.toml"], by decide, by decide⟩, by decide⟩
    · exact ⟨⟨[text "etc", text "codex", text "managed_config.toml"], by decide, by decide⟩,
        by decide⟩
    · exact hbelow _ ⟨[text ".claude.json"], by decide, by decide, by decide⟩
    · exact hbelow _ ⟨[text ".claude", text "settings.json"], by decide, by decide, by decide⟩
    · exact hbelow _ ⟨[text ".claude", text "settings.local.json"], by decide, by decide, by decide⟩
  · obtain ⟨part, hpart, rfl⟩ := scanned_ok hentries n hn
    rw [List.append_assoc]
    refine hbelow _ ⟨[text ".codex", part], ?_, by simp, by simp [joined, text]⟩
    rintro d (_ | ⟨_, hd⟩)
    · decide
    · rw [List.mem_singleton.mp hd]
      exact hpart
  · obtain ⟨a, ha, hn⟩ := List.mem_flatMap.mp hn
    obtain ⟨s, hs, rfl⟩ := List.mem_map.mp hn
    exact (is_suffix_of_mem hs).file (normal_ancestors hworkspace a ha)

theorem documents_ok {nodes : Nodes} {masks roots names : List Text} {total count : Nat}
    {layers : List (Settings.Layer σ)}
    (h : documents host nodes masks roots total count names = .ok layers) :
    ∀ l ∈ layers, ∃ n ∈ names, l.1 = String.ofList n ∧
      (masks.any (within n) = true → roots.any (within n) = true) ∧
      ∃ data, regular nodes n = .ok data := by
  induction names generalizing total count layers with
  | nil =>
    cases h
    exact nofun
  | cons name names ih =>
    have hmore : ∀ {total count layers}, documents host nodes masks roots total count names =
        .ok layers → ∀ l ∈ layers, ∃ n ∈ name :: names, l.1 = String.ofList n ∧
          (masks.any (within n) = true → roots.any (within n) = true) ∧
          ∃ data, regular nodes n = .ok data := by
      intro total count layers h l hl
      obtain ⟨n, hn, hrest⟩ := ih h l hl
      exact ⟨n, List.mem_cons_of_mem name hn, hrest⟩
    unfold documents at h
    split at h
    · exact hmore h
    rename_i hshown
    split at h
    · exact hmore h
    · cases h
    · rename_i raw hraw
      dsimp only at h
      obtain ⟨_, _, h⟩ := bind_ok.mp h
      obtain ⟨document, _, h⟩ := bind_ok.mp h
      obtain ⟨rest, hrest, h⟩ := bind_ok.mp h
      rw [← pure_ok.mp h]
      rintro l (_ | ⟨_, hl⟩)
      · refine ⟨name, List.mem_cons_self, rfl, fun hmask => ?_, raw, hraw⟩
        by_contra hroot
        exact hshown ⟨hmask, hroot⟩
      · exact hmore hrest l hl

theorem settings_snapshots_ok {nodes : Nodes} {home workspace : Text} {masks state : List Text}
    {snapshots : List (String × δ)} (hhome : Normal home) (hne : home ≠ ['/'])
    (hworkspace : Normal workspace)
    (h : settings_snapshots host nodes home workspace masks state = .ok snapshots) :
    ∀ s ∈ snapshots, IsFile s.1.toList ∧
      (masks.any (within s.1.toList) = true →
        (workspace :: state).any (within s.1.toList) = true) ∧
      ∃ data, regular nodes s.1.toList = .ok data := by
  unfold settings_snapshots at h
  obtain ⟨_, _, h⟩ := bind_ok.mp h
  obtain ⟨_, _, h⟩ := bind_ok.mp h
  obtain ⟨names, hnames, h⟩ := bind_ok.mp h
  obtain ⟨layers, hlayers, h⟩ := bind_ok.mp h
  split at h
  · rename_i found aliases hfound
    cases h
    intro s hs
    have hcleaned := (Settings.snapshots_disabled hfound).2 rfl
    obtain ⟨layer, hlayer, hsame, -⟩ := Checked.exists_of_mem_right hcleaned hs
    obtain ⟨n, hn, hname, hshown, hfile⟩ := documents_ok hlayers layer hlayer
    have hs' : s.1.toList = n := by rw [hsame, hname, String.toList_ofList]
    rw [hs']
    exact ⟨candidates_ok hhome hne hworkspace hnames n hn, hshown, hfile⟩
  · cases h

/-! ## The mounts -/

theorem state_mounts_ok {nodes : Nodes} {preflight : Bool} {values : List Text}
    {mounts : List Mount} (h : state_mounts nodes preflight values = .ok mounts) :
    ∀ m ∈ mounts, m.dest ∈ values := by
  induction values generalizing mounts with
  | nil =>
    cases h
    exact nofun
  | cons value values ih =>
    unfold state_mounts at h
    dsimp only at h
    split at h
    · exact fun m hm => List.mem_cons_of_mem value (ih h m hm)
    · cases h
    · obtain ⟨rest, hrest, h⟩ := bind_ok.mp h
      rw [← pure_ok.mp h]
      rintro m (_ | ⟨_, hm⟩)
      · exact List.mem_cons_self
      · exact List.mem_cons_of_mem value (ih hrest m hm)

theorem hooks_mount_ok {nodes : Nodes} {preflight : Bool} {hooks : Text} {mounts : List Mount}
    (h : hooks_mount nodes preflight hooks = .ok mounts) : ∀ m ∈ mounts, m.dest = hooks := by
  unfold hooks_mount at h
  split at h
  · cases h
    simp
  · split at h
    · cases h
      exact nofun
    · cases h
  · cases h

/-- The path is below a mask, and what is mounted after that and covers it is a mask too. -/
def BelowMask (mounts : List Mount) (p : Text) : Prop :=
  ∃ before mask after, mounts = before ++ ⟨.tmpfs, mask⟩ :: after ∧ parts mask <+: parts p ∧
    ∀ m ∈ after, m.covers p = true → m.kind = .tmpfs

theorem foldl_view {mounts : List Mount} {p : Text} {seen : Option Mount}
    (hseen : ∃ mask, seen = some ⟨.tmpfs, mask⟩)
    (h : ∀ m ∈ mounts, m.covers p = true → m.kind = .tmpfs) :
    ∃ mask, mounts.foldl (fun seen m => if m.covers p then some m else seen) seen =
      some ⟨.tmpfs, mask⟩ := by
  induction mounts generalizing seen with
  | nil => exact hseen
  | cons m mounts ih =>
    rw [List.foldl_cons]
    refine ih ?_ fun m' hm' => h m' (List.mem_cons_of_mem m hm')
    split
    · rename_i hcovers
      exact ⟨m.dest, by rw [← h m List.mem_cons_self hcovers]⟩
    · exact hseen

theorem BelowMask.view {mounts : List Mount} {p : Text} (h : BelowMask mounts p) :
    ∃ mask, view mounts p = some ⟨.tmpfs, mask⟩ := by
  obtain ⟨before, mask, after, rfl, hmask, hafter⟩ := h
  unfold Isolation.view
  rw [List.foldl_append, List.foldl_cons]
  refine foldl_view ⟨mask, if_pos ?_⟩ hafter
  simpa [Mount.covers] using hmask

theorem not_restored {nodes nodes' : Nodes} {masks roots : List Text} {n p : Text}
    (hn : IsFile n) (hmasks : ∀ s ∈ masks, Normal s) (hroots : ∀ r ∈ roots, Normal r)
    (hmask : ∃ s ∈ masks, parts s <+: (parts p).dropLast)
    (hapart : ∀ r ∈ roots, ¬ parts r <+: parts p)
    (hopen : ∀ s ∈ masks, directory nodes s = .ok ()) (hextends : Extends nodes nodes')
    (hshown : masks.any (within n) = true → roots.any (within n) = true)
    (hfile : ∃ data, regular nodes' n = .ok data) : ¬ parts n <+: parts p := by
  intro hcovers
  obtain ⟨s, hs, hsp⟩ := hmask
  have hmasked : ¬ parts s <+: parts n := by
    intro hsn
    obtain ⟨r, hr, hwithin⟩ := List.any_eq_true.mp <| hshown <|
      List.any_eq_true.mpr ⟨s, hs, (within_iff hn.1 (hmasks s hs)).mpr hsn⟩
    exact hapart r hr (((within_iff hn.1 (hroots r hr)).mp hwithin).trans hcovers)
  rcases List.prefix_or_prefix_of_prefix (hsp.trans (List.dropLast_prefix _)) hcovers with h | h
  · exact hmasked h
  · -- The mask is a directory, so what is above it is one.
    obtain ⟨data, hfile⟩ := hfile
    obtain ⟨links, hnode⟩ := regular_ok hfile
    have hdirectory : nodes (parts n) = some .directory :=
      walk_ok (hopen s hs) (parts n) h hn.2
    rw [hextends _ _ hdirectory] at hnode
    cases hnode

theorem state_below {home : Text} (h : Normal home) (hne : home ≠ ['/']) :
    ∀ v ∈ state_of home, Normal v := by
  have hbelow : ∀ s, IsSuffix s → Normal (home ++ s) := by
    intro s hs
    rw [← h.rstrip hne]
    exact (hs.file h).1
  intro v hv
  simp only [state_of, List.mem_cons, List.not_mem_nil, or_false] at hv
  rcases hv with rfl | rfl | rfl
  · exact hbelow _ ⟨[text ".codex"], by decide, by decide, by decide⟩
  · exact hbelow _ ⟨[text ".claude"], by decide, by decide, by decide⟩
  · exact hbelow _ ⟨[text ".claude.json"], by decide, by decide, by decide⟩

theorem parts_hooks {home : Text} (h : Normal home) (hne : home ≠ ['/']) :
    parts (home ++ text "/.claude") <+: parts (home ++ text "/.claude/hooks") := by
  have hclaude : parts (home ++ text "/.claude") = parts home ++ [text ".claude"] :=
    (@below_home home h hne [text ".claude"] (by decide) (by decide)).2
  have hhooks : parts (home ++ text "/.claude/hooks") =
      parts home ++ [text ".claude", text "hooks"] :=
    (@below_home home h hne [text ".claude", text "hooks"] (by decide) (by decide)).2
  rw [hclaude, hhooks]
  exact ⟨[text "hooks"], by simp⟩

theorem below_mask {selected : List Text} {ws : Mount} {states hooks snaps remounts : List Mount}
    {p : Text} (hmask : ∃ s ∈ selected, parts s <+: parts p) (hws : ¬ parts ws.dest <+: parts p)
    (hstates : ∀ m ∈ states, ¬ parts m.dest <+: parts p)
    (hhooks : ∀ m ∈ hooks, ¬ parts m.dest <+: parts p)
    (hsnaps : ∀ m ∈ snaps, ¬ parts m.dest <+: parts p)
    (hremounts : ∀ m ∈ remounts, m.kind = .remount_ro) :
    BelowMask (base ++ selected.map (⟨.tmpfs, ·⟩) ++ [ws] ++ states ++ hooks ++ snaps ++ remounts)
      p := by
  obtain ⟨s, hs, hsp⟩ := hmask
  obtain ⟨a, b, rfl⟩ := List.append_of_mem hs
  refine ⟨base ++ a.map (⟨.tmpfs, ·⟩), s,
    b.map (⟨.tmpfs, ·⟩) ++ [ws] ++ states ++ hooks ++ snaps ++ remounts, by simp, hsp, ?_⟩
  have hnot : ∀ m : Mount, ¬ parts m.dest <+: parts p → m.covers p = true → m.kind = .tmpfs := by
    intro m hm hcovers
    simp only [Mount.covers, decide_eq_true_iff] at hcovers
    exact absurd hcovers.2 hm
  intro m hm
  simp only [List.mem_append, List.mem_singleton] at hm
  rcases hm with ((((hm | rfl) | hm) | hm) | hm) | hm
  · obtain ⟨_, _, rfl⟩ := List.mem_map.mp hm
    exact fun _ => rfl
  · exact hnot m hws
  · exact hnot m (hstates m hm)
  · exact hnot m (hhooks m hm)
  · exact hnot m (hsnaps m hm)
  · intro hcovers
    simp [Mount.covers, hremounts m hm] at hcovers

/-- What a launch that is let through is made of. -/
structure Admitted (host : Host σ δ) (request : Request) (mounts : List Mount)
    (home workspace : Text) (given resolved selected : List Text) : Prop where
  home_of : home_of host request = .ok home
  workspace_of : target request home request.workspace = .ok workspace
  given_of : request.private.mapM (target request home) = .ok given
  below_root : home ≠ ['/']
  resolved_of : given.mapM (fun p => path (host.realpath p)) = .ok resolved
  select_of : select [] (masks_of (given ++ resolved)) = .ok selected
  apart : ¬ (given ++ resolved).any (fun p => (workspace :: state_of home).any (within p)) = true
  opened : directories host.nodes selected = .ok ()
  mounted : ∃ nodes snapshots nodes' states hooks, started host request home = .ok nodes ∧
    settings_snapshots host nodes home workspace selected (state_of home) = .ok snapshots ∧
    state_mounts nodes' request.preflight (state_of home) = .ok states ∧
    hooks_mount nodes' request.preflight (home ++ text "/.claude/hooks") = .ok hooks ∧
    mounts = base ++ selected.map (⟨.tmpfs, ·⟩) ++ [fd_mount request.preflight workspace] ++
      states ++ hooks ++ snapshots.map (fun s => snapshot_mount home s.1.toList) ++
      selected.map (⟨.remount_ro, ·⟩)

theorem main_ok {request : Request} {command : List Text} {mounts : List Mount}
    (h : main host request command = .ok mounts) :
    ∃ home workspace given resolved selected,
      Admitted host request mounts home workspace given resolved selected := by
  unfold main at h
  obtain ⟨_, _, h⟩ := bind_ok.mp h
  obtain ⟨home, hhome, h⟩ := bind_ok.mp h
  obtain ⟨workspace, hworkspace, h⟩ := bind_ok.mp h
  obtain ⟨given, hgiven, h⟩ := bind_ok.mp h
  obtain ⟨_, hroot, h⟩ := bind_ok.mp h
  obtain ⟨resolved, hresolved, h⟩ := bind_ok.mp h
  dsimp only at h
  obtain ⟨_, _, h⟩ := bind_ok.mp h
  obtain ⟨selected, hselected, h⟩ := bind_ok.mp h
  obtain ⟨_, hapart, h⟩ := bind_ok.mp h
  obtain ⟨_, hopen, h⟩ := bind_ok.mp h
  obtain ⟨_, _, h⟩ := bind_ok.mp h
  obtain ⟨nodes, hnodes, h⟩ := bind_ok.mp h
  obtain ⟨_, _, h⟩ := bind_ok.mp h
  obtain ⟨snapshots, hsnapshots, h⟩ := bind_ok.mp h
  obtain ⟨nodes', _, h⟩ := bind_ok.mp h
  obtain ⟨states, hstates, h⟩ := bind_ok.mp h
  obtain ⟨hooks, hhooks, h⟩ := bind_ok.mp h
  exact ⟨home, workspace, given, resolved, selected, hhome, hworkspace, hgiven,
    fun heq => refuse_ok.mp hroot (.inl heq), hresolved, hselected, refuse_ok.mp hapart, hopen,
    nodes, snapshots, nodes', states, hooks, hnodes, hsnapshots, hstates, hhooks,
    (pure_ok.mp h).symm⟩

theorem started_extends {request : Request} {home : Text} {nodes : Nodes}
    (h : started host request home = .ok nodes) : Extends host.nodes nodes := by
  unfold started at h
  split at h
  · cases h
    exact .refl _
  · exact prepared_extends h

section Admitted

variable {request : Request} {mounts : List Mount} {home workspace : Text}
  {given resolved selected : List Text}

theorem Admitted.normal
    (h : Admitted host request mounts home workspace given resolved selected) :
    Normal home ∧ (∀ r ∈ workspace :: state_of home, Normal r) ∧
      ∀ p ∈ given ++ resolved, Normal p := by
  have hhome : Normal home := home_normal h.home_of
  refine ⟨hhome, ?_, ?_⟩
  · rintro r (_ | ⟨_, hr⟩)
    · exact target_normal h.workspace_of
    · exact state_below hhome h.below_root r hr
  · intro p hp
    rcases List.mem_append.mp hp with hp | hp
    · obtain ⟨_, _, hp⟩ := mapM_ok h.given_of p hp
      exact target_normal hp
    · obtain ⟨_, _, hp⟩ := mapM_ok h.resolved_of p hp
      exact path_normal hp

/-- No root that a worker may write is at or above a private path. -/
theorem Admitted.roots_apart
    (h : Admitted host request mounts home workspace given resolved selected) {p r : Text}
    (hp : p ∈ given ++ resolved) (hr : r ∈ workspace :: state_of home) :
    ¬ parts r <+: parts p := by
  obtain ⟨-, hroots, hsecret⟩ := h.normal
  intro hprefix
  refine h.apart (List.any_eq_true.mpr ⟨p, hp, List.any_eq_true.mpr ⟨r, hr, ?_⟩⟩)
  exact (within_iff (hsecret p hp) (hroots r hr)).mpr hprefix

theorem Admitted.below_mask
    (h : Admitted host request mounts home workspace given resolved selected) {p : Text}
    (hp : p ∈ given ++ resolved) : BelowMask mounts p := by
  obtain ⟨hhome, hroots, hsecret⟩ := h.normal
  obtain ⟨hselected, hcover⟩ := select_covers hsecret h.select_of
  have hapart : ∀ r ∈ workspace :: state_of home, ¬ parts r <+: parts p :=
    fun r hr => h.roots_apart hp hr
  obtain ⟨nodes, snapshots, nodes', states, hooks, hnodes, hsnapshots, hstates, hhooks, rfl⟩ :=
    h.mounted
  refine Isolation.below_mask ?_ (hapart workspace List.mem_cons_self) ?_ ?_ ?_ ?_
  · obtain ⟨s, hs, hsp⟩ := hcover p hp
    exact ⟨s, hs, hsp.trans (List.dropLast_prefix _)⟩
  · exact fun m hm => hapart _ (List.mem_cons_of_mem workspace (state_mounts_ok hstates m hm))
  · intro m hm hprefix
    rw [hooks_mount_ok hhooks m hm] at hprefix
    refine hapart (home ++ text "/.claude") (by simp [state_of]) ?_
    exact (parts_hooks hhome h.below_root).trans hprefix
  · intro m hm
    obtain ⟨s, hs, rfl⟩ := List.mem_map.mp hm
    obtain ⟨hfile, hshown, hread⟩ := settings_snapshots_ok hhome h.below_root
      (hroots workspace List.mem_cons_self) hsnapshots s hs
    exact not_restored hfile hselected hroots (hcover p hp) hapart (directories_ok h.opened)
      (started_extends hnodes) hshown hread
  · intro m hm
    obtain ⟨_, _, rfl⟩ := List.mem_map.mp hm
    rfl

end Admitted

/-- **Every private path of an accepted launch, and what it resolves to, is below a mask and at or
below nothing that is mounted later: the worker sees an empty directory there.** -/
theorem private_hidden {request : Request} {command : List Text} {mounts : List Mount}
    (h : main host request command = .ok mounts) :
    ∃ home, home_of host request = .ok home ∧ ∀ value ∈ request.private,
      ∃ p r, target request home value = .ok p ∧ path (host.realpath p) = .ok r ∧
        ∀ secret ∈ [p, r], BelowMask mounts secret ∧
          ∃ mask, view mounts secret = some ⟨.tmpfs, mask⟩ := by
  obtain ⟨home, workspace, given, resolved, selected, hadmitted⟩ := main_ok h
  refine ⟨home, hadmitted.home_of, fun value hvalue => ?_⟩
  obtain ⟨p, hp, htarget⟩ := mapM_all hadmitted.given_of value hvalue
  obtain ⟨r, hr, hreal⟩ := mapM_all hadmitted.resolved_of p hp
  refine ⟨p, r, htarget, hreal, fun secret hmem => ?_⟩
  have hbelow : BelowMask mounts secret := by
    simp only [List.mem_cons, List.not_mem_nil, or_false] at hmem
    rcases hmem with rfl | rfl
    · exact hadmitted.below_mask (List.mem_append_left _ hp)
    · exact hadmitted.below_mask (List.mem_append_right _ hr)
  exact ⟨hbelow, hbelow.view⟩

/-! ## A launch -/

def machine : Host Nat Nat where
  linux := true
  home := none
  environment := fun _ => none
  nodes := fun p =>
    if p = [text "home"] ∨ p = [text "home", text "u"] ∨
        p = [text "home", text "u", text "daemon"] then some .directory
    else none
  realpath := id
  stat := fun _ => .ok (.regular 1)
  scandir := fun _ _ => []
  load := fun _ _ => .ok (.dict [])
  render := fun _ _ => .ok 0

def request : Request where
  home := some (text "/home/u")
  workspace := text "/home/u/work"
  «private» := [text "/home/u/daemon/config.toml"]
  create := true
  preflight := false
  probe_backend := []

theorem accepted : ∃ mounts, main machine request [text "codex"] = .ok mounts := by
  have h : (main machine request [text "codex"]).toOption.isSome := by decide +kernel
  cases hmain : main machine request [text "codex"] with
  | ok mounts => exact ⟨mounts, rfl⟩
  | error e =>
    rw [hmain] at h
    cases h

theorem private_hidden_daemon : ∃ mounts, main machine request [text "codex"] = .ok mounts ∧
    ∃ home, home_of machine request = .ok home ∧ ∀ value ∈ request.private,
      ∃ p r, target request home value = .ok p ∧ path (machine.realpath p) = .ok r ∧
        ∀ secret ∈ [p, r], BelowMask mounts secret ∧
          ∃ mask, view mounts secret = some ⟨.tmpfs, mask⟩ := by
  obtain ⟨mounts, h⟩ := accepted
  exact ⟨mounts, h, private_hidden h⟩

end Fridica.Exec.Isolation
