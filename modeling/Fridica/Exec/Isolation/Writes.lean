import Fridica.Exec.Isolation.Proofs

/-!
# Where a confined worker can write
-/

namespace Fridica.Exec.Isolation

open Fridica.Checked Fridica.Path

variable {σ δ : Type} {host : Host σ δ}

/-! ## The view -/

theorem view_concat (mounts : List Mount) (m : Mount) (p : Text) :
    view (mounts ++ [m]) p = if m.covers p then some m else view mounts p := by
  unfold view
  rw [List.foldl_append, List.foldl_cons, List.foldl_nil]

/-- What shows at a path is the last mount that covers it. -/
theorem view_shown {mounts : List Mount} {p : Text} {m : Mount} (h : view mounts p = some m) :
    m ∈ mounts ∧ m.covers p = true := by
  induction mounts using List.reverseRecOn with
  | nil => cases h
  | append_singleton mounts x ih =>
    rw [view_concat] at h
    split at h
    · next hx =>
      obtain rfl := Option.some.inj h
      exact ⟨List.mem_append_right _ (List.mem_singleton_self _), hx⟩
    · obtain ⟨hmem, hcovers⟩ := ih h
      exact ⟨List.mem_append_left _ hmem, hcovers⟩

theorem view_after {before after : List Mount} {x m : Mount} {p : Text} (hx : x.covers p = true)
    (h : view (before ++ x :: after) p = some m) : m = x ∨ m ∈ after ∧ m.covers p = true := by
  induction after using List.reverseRecOn generalizing m with
  | nil =>
    rw [view_concat, if_pos hx] at h
    exact .inl (Option.some.inj h).symm
  | append_singleton after y ih =>
    rw [← List.cons_append, ← List.append_assoc, view_concat] at h
    split at h
    · next hy =>
      obtain rfl := Option.some.inj h
      exact .inr ⟨List.mem_append_right _ (List.mem_singleton_self _), hy⟩
    · rcases ih h with rfl | ⟨hmem, hcovers⟩
      · exact .inl rfl
      · exact .inr ⟨List.mem_append_left _ hmem, hcovers⟩

theorem Mount.prefix_of_covers {m : Mount} {p : Text} (h : m.covers p = true) :
    m.kind ≠ .remount_ro ∧ parts m.dest <+: parts p := by
  simpa [Mount.covers] using h

theorem json_not_hooks {home p : Text} (h : Normal home) (hne : home ≠ ['/'])
    (hhooks : parts (home ++ text "/.claude/hooks") <+: parts p) :
    ¬ parts (home ++ text "/.claude.json") <+: parts p := by
  have hjson : parts (home ++ text "/.claude.json") = parts home ++ [text ".claude.json"] :=
    (@below_home home h hne [text ".claude.json"] (by decide) (by decide)).2
  have hbelow : parts (home ++ text "/.claude/hooks") =
      parts home ++ [text ".claude", text "hooks"] :=
    (@below_home home h hne [text ".claude", text "hooks"] (by decide) (by decide)).2
  rw [hbelow] at hhooks
  rw [hjson]
  intro hprefix
  have hsame : parts home ++ [text ".claude.json"] <+:
      parts home ++ [text ".claude", text "hooks"] :=
    List.prefix_of_prefix_length_le hprefix hhooks (by simp)
  rw [List.prefix_append_right_inj] at hsame
  revert hsame
  decide

theorem file_not_below {nodes : Nodes} {f g : Text} (hf : IsFile f) (hg : IsFile g)
    (hfile : ∃ data, regular nodes f = .ok data) (hread : ∃ data, regular nodes g = .ok data)
    (h : parts f <+: parts g) : f = g := by
  obtain ⟨data, hfile⟩ := hfile
  obtain ⟨links, hnode⟩ := regular_ok hfile
  obtain ⟨data', hread⟩ := hread
  unfold regular at hread
  obtain ⟨_, hdirectory, -⟩ := bind_ok.mp hread
  by_cases hsame : parts f = parts g
  · rw [← hf.1.parts.2, ← hg.1.parts.2, hsame]
  · have habove : parts f <+: parts (dirname g) := by
      obtain ⟨rest, hrest⟩ := h
      have hne : rest ≠ [] := by
        rintro rfl
        exact hsame (by rw [← hrest, List.append_nil])
      rw [hg.1.dirname.2, ← hrest, List.dropLast_append_of_ne_nil hne]
      exact List.prefix_append _ _
    have hdir : nodes (parts f) = some .directory := walk_ok hdirectory (parts f) habove hf.2
    rw [hdir] at hnode
    cases hnode

/-! ## Writing -/

/-- A mount takes writes, unless it is made read-only again. -/
def Mount.Writable (mounts : List Mount) (m : Mount) : Prop :=
  m.kind = .dev_bind ∨ m.kind = .proc ∨ m.kind = .bind_fd ∨ m.kind = .bind_data ∨
    m.kind = .tmpfs ∧ ⟨.remount_ro, m.dest⟩ ∉ mounts

def Writes (mounts : List Mount) (p : Text) : Prop :=
  ∃ m, view mounts p = some m ∧ m.Writable mounts

theorem tmpfs_writable {mounts : List Mount} {dest : Text}
    (h : (⟨.tmpfs, dest⟩ : Mount).Writable mounts) : ⟨.remount_ro, dest⟩ ∉ mounts := by
  rcases h with h | h | h | h | ⟨-, h⟩
  · cases h
  · cases h
  · cases h
  · cases h
  · exact h

theorem fd_mount_writable {mounts : List Mount} {preflight : Bool} {dest : Text}
    (h : (fd_mount preflight dest).Writable mounts) : preflight = false := by
  cases preflight
  · rfl
  · simp [fd_mount, Mount.Writable] at h

theorem state_mounts_eq {nodes : Nodes} {preflight : Bool} {values : List Text}
    {mounts : List Mount} (h : state_mounts nodes preflight values = .ok mounts) :
    ∀ m ∈ mounts, m = fd_mount preflight m.dest := by
  induction values generalizing mounts with
  | nil =>
    cases h
    exact nofun
  | cons value values ih =>
    unfold state_mounts at h
    dsimp only at h
    split at h
    · exact ih h
    · cases h
    · obtain ⟨rest, hrest, h⟩ := bind_ok.mp h
      rw [← pure_ok.mp h]
      rintro m (_ | ⟨_, hm⟩)
      · rfl
      · exact ih hrest m hm

theorem hooks_mount_eq {nodes : Nodes} {preflight : Bool} {hooks : Text} {mounts : List Mount}
    (h : hooks_mount nodes preflight hooks = .ok mounts) :
    mounts = [⟨.ro_bind_fd, hooks⟩] ∨ preflight = true ∧ mounts = [] := by
  unfold hooks_mount at h
  split at h
  · exact .inl (Except.ok.inj h).symm
  · split at h
    · next hpreflight => exact .inr ⟨hpreflight, (Except.ok.inj h).symm⟩
    · cases h
  · cases h

theorem snapshot_writable {mounts : List Mount} {home name : Text}
    (h : (snapshot_mount home name).Writable mounts) : name = home ++ text "/.claude.json" := by
  by_contra hne
  simp [snapshot_mount, Mount.Writable, hne] at h

/-- Where a worker may write: what the system needs, and its own roots. -/
def Allowed (request : Request) (home workspace p : Text) : Prop :=
  (∃ r ∈ [text "/dev", text "/proc", text "/tmp"], parts r <+: parts p) ∨
  (request.preflight = false ∧ ∃ r ∈ workspace :: state_of home, parts r <+: parts p) ∨
  parts (home ++ text "/.claude.json") <+: parts p

section Admitted

variable {request : Request} {mounts : List Mount} {home workspace p : Text}
  {given resolved selected : List Text}

theorem Admitted.allowed (h : Admitted host request mounts home workspace given resolved selected)
    (hwrites : Writes mounts p) : Allowed request home workspace p := by
  obtain ⟨m, hview, hwritable⟩ := hwrites
  obtain ⟨hmem, hcovers⟩ := view_shown hview
  obtain ⟨hkind, hdest⟩ := m.prefix_of_covers hcovers
  obtain ⟨nodes, snapshots, nodes', states, hooks, -, -, hstates, hhooks, rfl⟩ := h.mounted
  simp only [List.mem_append, List.mem_singleton] at hmem
  rcases hmem with (((((hm | hm) | rfl) | hm) | hm) | hm) | hm
  · left
    simp only [base, List.mem_cons, List.not_mem_nil, or_false] at hm
    rcases hm with rfl | rfl | rfl | rfl
    · simp [Mount.Writable] at hwritable
    · exact ⟨_, by simp, hdest⟩
    · exact ⟨_, by simp, hdest⟩
    · exact ⟨_, by simp, hdest⟩
  · -- The mask is made read-only once everything is mounted.
    obtain ⟨mask, hmask, rfl⟩ := List.mem_map.mp hm
    exact (tmpfs_writable hwritable (List.mem_append_right _ (List.mem_map_of_mem hmask))).elim
  · exact .inr (.inl ⟨fd_mount_writable hwritable, workspace, List.mem_cons_self, hdest⟩)
  · have hroot : m.dest ∈ state_of home := state_mounts_ok hstates m hm
    rw [state_mounts_eq hstates m hm] at hwritable
    exact .inr (.inl ⟨fd_mount_writable hwritable, m.dest, List.mem_cons_of_mem _ hroot, hdest⟩)
  · rcases hooks_mount_eq hhooks with rfl | ⟨-, rfl⟩
    · obtain rfl := List.mem_singleton.mp hm
      simp [Mount.Writable] at hwritable
    · cases hm
  · obtain ⟨s, -, rfl⟩ := List.mem_map.mp hm
    have hname := snapshot_writable hwritable
    right; right
    rw [← hname]
    exact hdest
  · obtain ⟨mask, -, rfl⟩ := List.mem_map.mp hm
    exact absurd rfl hkind

theorem Admitted.hooks_kept
    (h : Admitted host request mounts home workspace given resolved selected)
    (hpreflight : request.preflight = false)
    (hp : parts (home ++ text "/.claude/hooks") <+: parts p) : ¬ Writes mounts p := by
  rintro ⟨m, hview, hwritable⟩
  obtain ⟨nodes, snapshots, nodes', states, hooks, -, -, -, hhooks, rfl⟩ := h.mounted
  obtain rfl | ⟨htrue, -⟩ := hooks_mount_eq hhooks
  swap
  · rw [hpreflight] at htrue
    cases htrue
  have hcovers : (⟨.ro_bind_fd, home ++ text "/.claude/hooks"⟩ : Mount).covers p = true := by
    simpa [Mount.covers] using hp
  rw [List.append_assoc, List.append_assoc, List.singleton_append] at hview
  obtain rfl | ⟨hmem, hcovered⟩ := view_after hcovers hview
  · simp [Mount.Writable] at hwritable
  obtain ⟨hkind, hdest⟩ := m.prefix_of_covers hcovered
  rcases List.mem_append.mp hmem with hm | hm
  · obtain ⟨s, -, rfl⟩ := List.mem_map.mp hm
    have hname : s.1.toList = home ++ text "/.claude.json" := snapshot_writable hwritable
    have hprefix : parts s.1.toList <+: parts p := hdest
    rw [hname] at hprefix
    obtain ⟨hhome, -, -⟩ := h.normal
    exact json_not_hooks hhome h.below_root hp hprefix
  · obtain ⟨mask, -, rfl⟩ := List.mem_map.mp hm
    exact hkind rfl

theorem Admitted.settings_kept
    (h : Admitted host request mounts home workspace given resolved selected) :
    ∃ nodes snapshots, started host request home = .ok nodes ∧
      settings_snapshots host nodes home workspace selected (state_of home) = .ok snapshots ∧
      ∀ s ∈ snapshots, s.1.toList ≠ home ++ text "/.claude.json" → ¬ Writes mounts s.1.toList := by
  obtain ⟨hhome, hroots, -⟩ := h.normal
  obtain ⟨nodes, snapshots, nodes', states, hooks, hnodes, hsnapshots, -, -, rfl⟩ := h.mounted
  refine ⟨nodes, snapshots, hnodes, hsnapshots, ?_⟩
  rintro s hs hne ⟨m, hview, hwritable⟩
  have hfiles := settings_snapshots_ok hhome h.below_root (hroots workspace List.mem_cons_self)
    hsnapshots
  obtain ⟨hfile, -, hread⟩ := hfiles s hs
  obtain ⟨a, b, rfl⟩ := List.append_of_mem hs
  have hcovers : (snapshot_mount home s.1.toList).covers s.1.toList = true := by
    simp [Mount.covers, snapshot_mount, hne]
  have hview' : view ((base ++ selected.map (⟨.tmpfs, ·⟩) ++
      [fd_mount request.preflight workspace] ++ states ++ hooks ++
      a.map fun s => snapshot_mount home s.1.toList) ++
      snapshot_mount home s.1.toList :: (b.map (fun s => snapshot_mount home s.1.toList) ++
        selected.map (⟨.remount_ro, ·⟩))) s.1.toList = some m := by
    simpa only [List.map_append, List.map_cons, List.append_assoc, List.cons_append] using hview
  obtain rfl | ⟨hmem, hcovered⟩ := view_after hcovers hview'
  · exact hne (snapshot_writable hwritable)
  obtain ⟨hkind, hdest⟩ := m.prefix_of_covers hcovered
  rcases List.mem_append.mp hmem with hm | hm
  · obtain ⟨s', hs', rfl⟩ := List.mem_map.mp hm
    have hname : s'.1.toList = home ++ text "/.claude.json" := snapshot_writable hwritable
    obtain ⟨hfile', -, hread'⟩ := hfiles s' (by simp [hs'])
    have hsame : s'.1.toList = s.1.toList := file_not_below hfile' hfile hread' hread hdest
    exact hne (hsame ▸ hname)
  · obtain ⟨mask, -, rfl⟩ := List.mem_map.mp hm
    exact hkind rfl

end Admitted

/-- **A confined worker writes only below its workspace and its backend's state, where the settings
and hooks stay as they were.** -/
theorem writes_confined {request : Request} {command : List Text} {mounts : List Mount}
    (h : main host request command = .ok mounts) :
    ∃ home workspace, home_of host request = .ok home ∧
      target request home request.workspace = .ok workspace ∧
      (∀ p, Writes mounts p → Allowed request home workspace p) ∧
      (request.preflight = false →
        ∀ p, parts (home ++ text "/.claude/hooks") <+: parts p → ¬ Writes mounts p) ∧
      ∃ given resolved masks nodes snapshots,
        request.private.mapM (target request home) = .ok given ∧
        given.mapM (fun p => path (host.realpath p)) = .ok resolved ∧
        select [] (masks_of (given ++ resolved)) = .ok masks ∧
        started host request home = .ok nodes ∧
        settings_snapshots host nodes home workspace masks (state_of home) = .ok snapshots ∧
        ∀ s ∈ snapshots, s.1.toList ≠ home ++ text "/.claude.json" →
          ¬ Writes mounts s.1.toList := by
  obtain ⟨home, workspace, given, resolved, selected, hadmitted⟩ := main_ok h
  obtain ⟨nodes, snapshots, hnodes, hsnapshots, hkept⟩ := hadmitted.settings_kept
  exact ⟨home, workspace, hadmitted.home_of, hadmitted.workspace_of,
    fun p hp => hadmitted.allowed hp, fun hpreflight p hp => hadmitted.hooks_kept hpreflight hp,
    given, resolved, selected, nodes, snapshots, hadmitted.given_of, hadmitted.resolved_of,
    hadmitted.select_of, hnodes, hsnapshots, hkept⟩

theorem writes_confined_daemon : ∃ mounts, main machine request [text "codex"] = .ok mounts ∧
    ¬ Writes mounts (text "/home/u/.ssh/config") := by
  obtain ⟨mounts, h⟩ := accepted
  obtain ⟨home, workspace, hhome, hworkspace, hallowed, -⟩ := writes_confined h
  refine ⟨mounts, h, fun hwrites => ?_⟩
  obtain rfl : text "/home/u" = home := Except.ok.inj hhome
  obtain rfl : text "/home/u/work" = workspace := Except.ok.inj hworkspace
  have hnot : ¬ Allowed request (text "/home/u") (text "/home/u/work")
      (text "/home/u/.ssh/config") := by
    unfold Allowed
    decide
  exact hnot (hallowed _ hwrites)

end Fridica.Exec.Isolation
