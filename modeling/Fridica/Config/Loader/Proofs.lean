import Fridica.Config.Loader.Spec

/-!
# What lies in a workspace

A path that the loader resolves is where the operating system finds it. The state and the socket of
an accepted configuration lie in no local workspace, and of the owner's files only the deny list may
lie in a writable one, since `protect` is not given it.
-/

namespace Fridica.Loader

open Fridica.Checked Fridica.Path

variable {nodes : Nodes}

/-! ## Where the operating system finds a path -/

/-- From a directory, the components lead there. The last of them need not exist. -/
inductive Resolves (nodes : Nodes) : List Text → List Component → List Text → Prop
  | here {here : List Text} : Resolves nodes here [] here
  | parent {here r : List Text} {rest : List Component} :
      Resolves nodes here.dropLast rest r → Resolves nodes here (.parent :: rest) r
  | directory {here r : List Text} {part : Text} {rest : List Component} :
      nodes (here ++ [part]) = some .directory → Resolves nodes (here ++ [part]) rest r →
      Resolves nodes here (.name part :: rest) r
  | file {here : List Text} {part : Text} : nodes (here ++ [part]) = some .file →
      Resolves nodes here [.name part] (here ++ [part])
  | missing {here names : List Text} {part : Text} : nodes (here ++ [part]) = none →
      Resolves nodes here (.name part :: names.map .name) (here ++ part :: names)
  | link {here r : List Text} {part target : Text} {rest : List Component} :
      nodes (here ++ [part]) = some (.link target) →
      Resolves nodes (if is_absolute target then [] else here) (components target ++ rest) r →
      Resolves nodes here (.name part :: rest) r

theorem Resolves.name_cases {here r : List Text} {part : Text} {rest : List Component}
    (h : Resolves nodes here (.name part :: rest) r) :
    (nodes (here ++ [part]) = some .directory ∧ Resolves nodes (here ++ [part]) rest r) ∨
    (nodes (here ++ [part]) = some .file ∧ rest = [] ∧ r = here ++ [part]) ∨
    (nodes (here ++ [part]) = none ∧
      ∃ names : List Text, rest = names.map .name ∧ r = here ++ part :: names) ∨
    ∃ target, nodes (here ++ [part]) = some (.link target) ∧
      Resolves nodes (if is_absolute target then [] else here) (components target ++ rest) r := by
  generalize hcs : Component.name part :: rest = cs at h
  cases h with
  | here => cases hcs
  | parent => cases hcs
  | directory hnode hrest =>
    cases hcs
    exact .inl ⟨hnode, hrest⟩
  | file hnode =>
    cases hcs
    exact .inr (.inl ⟨hnode, rfl, rfl⟩)
  | missing hnode =>
    cases hcs
    exact .inr (.inr (.inl ⟨hnode, _, rfl, rfl⟩))
  | link hnode hrest =>
    cases hcs
    exact .inr (.inr (.inr ⟨_, hnode, hrest⟩))

/-- A directory, reached without links. -/
def Dir (nodes : Nodes) (here : List Text) : Prop :=
  ∀ p, p <+: here → p ≠ [] → nodes p = some .directory

theorem dir_nil : Dir nodes [] := fun _ hp hne => absurd (List.prefix_nil.mp hp) hne

theorem Dir.of_prefix {here p : List Text} (h : Dir nodes here) (hp : p <+: here) : Dir nodes p :=
  fun q hq hne => h q (hq.trans hp) hne

theorem Dir.dropLast {here : List Text} (h : Dir nodes here) : Dir nodes here.dropLast :=
  h.of_prefix (List.dropLast_prefix here)

theorem Dir.concat {here : List Text} {part : Text} (h : Dir nodes here)
    (hpart : nodes (here ++ [part]) = some .directory) : Dir nodes (here ++ [part]) := by
  intro p hp hne
  rcases List.prefix_concat_iff.mp hp with rfl | hp
  · exact hpart
  · exact h p hp hne

/-! ## The walk -/

section Walks

variable {follow : List Text → List Component → Except Errno (List Text)}

theorem walk_names {here cs : List Text} {rest : List Component} (h : Dir nodes (here ++ cs)) :
    walk nodes follow here (cs.map .name ++ rest) = walk nodes follow (here ++ cs) rest := by
  induction cs generalizing here with
  | nil => rw [List.append_nil, List.map_nil, List.nil_append]
  | cons c cs ih =>
    have hc : nodes (here ++ [c]) = some .directory :=
      h (here ++ [c]) ⟨cs, by simp⟩ (by simp)
    rw [List.map_cons, List.cons_append, walk]
    simp only [hc]
    rw [ih (by simpa using h), List.append_assoc, List.singleton_append]

/-- What a walk finds is where the rest of a longer path goes on from. -/
def GoesOn (nodes : Nodes) (walk : List Text → List Component → Except Errno (List Text)) : Prop :=
  ∀ here cs q rest r, Dir nodes here → walk here cs = .ok q → Resolves nodes here (cs ++ rest) r →
    Resolves nodes q rest r ∧ (Dir nodes q ∨ rest = [])

theorem walk_goes_on (h : GoesOn nodes follow) : GoesOn nodes (walk nodes follow) := by
  intro here cs
  induction cs generalizing here with
  | nil =>
    intro q rest r hdir hwalk hr
    cases hwalk
    exact ⟨hr, .inl hdir⟩
  | cons c cs ih =>
    intro q rest r hdir hwalk hr
    cases c with
    | parent =>
      cases hr with
      | parent hr => exact ih _ q rest r hdir.dropLast hwalk hr
    | name part =>
      rw [walk] at hwalk
      rw [List.cons_append] at hr
      rcases hr.name_cases with ⟨hnode, hr⟩ | ⟨hnode, hnil, rfl⟩ | ⟨hnode, _⟩ | ⟨target, hnode, hr⟩
      · simp only [hnode] at hwalk
        exact ih _ q rest r (hdir.concat hnode) hwalk hr
      · simp only [hnode] at hwalk
        obtain ⟨rfl, rfl⟩ := List.append_eq_nil_iff.mp hnil
        rw [if_pos rfl] at hwalk
        cases hwalk
        exact ⟨.here, .inr rfl⟩
      · simp only [hnode] at hwalk
        cases hwalk
      · simp only [hnode] at hwalk
        refine h _ _ q rest r ?_ hwalk (by rwa [List.append_assoc])
        split
        · exact dir_nil
        · exact hdir

theorem os_resolve_goes_on (links : Nat) : GoesOn nodes (os_resolve nodes links) := by
  induction links with
  | zero => exact walk_goes_on fun _ _ _ _ _ _ h => by cases h
  | succ links ih => exact walk_goes_on ih

end Walks

/-! ## The loader -/

theorem canonicalize_dir {here : List Text} (h : Dir nodes here) :
    canonicalize nodes (here.map .name) = .ok here := by
  have hwalk := @walk_names nodes (os_resolve nodes 39) [] here [] h
  rw [List.append_nil] at hwalk
  exact hwalk

theorem symlink_metadata_dir {here : List Text} {part : Text} (h : Dir nodes here) :
    symlink_metadata nodes here part =
      match nodes (here ++ [part]) with
      | none => .error .not_found
      | some node => .ok node := by
  unfold symlink_metadata
  rw [canonicalize_dir h]
  dsimp only
  have hopen : ¬ (here ≠ [] ∧ nodes here ≠ some .directory) := fun hboth =>
    hboth.2 (h here (List.prefix_refl here) hboth.1)
  exact (if_neg hopen).trans rfl

theorem resolve_missing {here names : List Text} {r : List Text} {part : Text}
    (hdir : Dir nodes here) (hpart : nodes (here ++ [part]) = none) (below : List Text)
    (h : resolve nodes (here ++ part :: below) (names.map .name) = .ok r) :
    r = here ++ part :: below ++ names := by
  induction names generalizing below with
  | nil =>
    cases h
    rw [List.append_nil]
  | cons name names ih =>
    have hmissing : symlink_metadata nodes (here ++ part :: below) name = .error .not_found := by
      have hwalk := @walk_names nodes (os_resolve nodes 39) [] here
        (.name part :: below.map .name) hdir
      have hnames : (here ++ part :: below).map Component.name =
          here.map .name ++ .name part :: below.map .name := by simp
      have hcanonical : canonicalize nodes ((here ++ part :: below).map .name) =
          .error .not_found := by
        rw [hnames]
        change walk nodes (os_resolve nodes 39) [] _ = _
        rw [hwalk]
        simp [walk, hpart]
      unfold symlink_metadata
      rw [hcanonical]
    rw [List.map_cons, resolve, hmissing] at h
    dsimp only at h
    have hrest := ih (below ++ [name]) (by simpa using h)
    rw [hrest]
    simp

theorem canonicalize_link {here q : List Text} {part target : Text} (hdir : Dir nodes here)
    (hnode : nodes (here ++ [part]) = some (.link target))
    (h : canonicalize nodes ((here ++ [part]).map .name) = .ok q) :
    os_resolve nodes 39 (if is_absolute target then [] else here) (components target) = .ok q := by
  have hwalk := @walk_names nodes (os_resolve nodes 39) [] here [.name part] hdir
  rw [List.map_append] at h
  change walk nodes (os_resolve nodes 39) [] (here.map .name ++ [.name part]) = .ok q at h
  rw [hwalk, List.nil_append, walk] at h
  simpa [hnode] using h

/-- The loader finds what the operating system finds. -/
theorem resolve_eq {here r r' : List Text} {cs : List Component} (hr : Resolves nodes here cs r)
    (hdir : Dir nodes here ∨ cs = []) (h : resolve nodes here cs = .ok r') : r' = r := by
  induction cs generalizing here with
  | nil =>
    cases hr
    cases h
    rfl
  | cons c cs ih =>
    have hhere : Dir nodes here := hdir.resolve_right (List.cons_ne_nil c cs)
    cases c with
    | parent =>
      cases hr with
      | parent hr => exact ih hr (.inl hhere.dropLast) h
    | name part =>
      rw [resolve, symlink_metadata_dir hhere] at h
      rcases hr.name_cases with ⟨hnode, hr⟩ | ⟨hnode, rfl, rfl⟩ | ⟨hnode, names, rfl, rfl⟩ |
        ⟨target, hnode, hr⟩
      · simp only [hnode] at h
        exact ih hr (.inl (hhere.concat hnode)) h
      · simp only [hnode] at h
        cases h
        rfl
      · simp only [hnode] at h
        have hmissing := resolve_missing hhere hnode [] h
        simpa using hmissing
      · simp only [hnode] at h
        cases hfound : canonicalize nodes ((here ++ [part]).map .name) with
        | error e =>
          rw [hfound] at h
          cases h
        | ok q =>
          rw [hfound] at h
          have hbase : Dir nodes (if is_absolute target then [] else here) := by
            split
            · exact dir_nil
            · exact hhere
          obtain ⟨hq, hend⟩ := os_resolve_goes_on 39 _ _ q cs r hbase
            (canonicalize_link hhere hnode hfound) hr
          exact ih hq hend h

/-! ## Paths that are resolved -/

theorem Dir.resolves {here r : List Text} {cs : List Component} (h : Dir nodes here)
    (hr : Resolves nodes here cs r) : Resolves nodes [] (here.map .name ++ cs) r := by
  induction here using List.reverseRecOn generalizing cs with
  | nil => exact hr
  | append_singleton here part ih =>
    rw [List.map_append, List.append_assoc]
    exact ih (h.of_prefix (List.prefix_append here [part]))
      (.directory (h _ (List.prefix_refl _) (by simp)) hr)

theorem Resolves.again {here r : List Text} {cs : List Component} (h : Resolves nodes here cs r)
    (hdir : Dir nodes here) : Resolves nodes [] (r.map .name) r := by
  induction h with
  | here =>
    have hself := hdir.resolves Resolves.here
    rwa [List.append_nil] at hself
  | parent _ ih => exact ih hdir.dropLast
  | directory hnode _ ih => exact ih (hdir.concat hnode)
  | file hnode =>
    rw [List.map_append]
    exact hdir.resolves (.file hnode)
  | missing hnode =>
    rw [List.map_append]
    exact hdir.resolves (.missing hnode)
  | link _ _ ih =>
    refine ih ?_
    split
    · exact dir_nil
    · exact hdir

/-- A name that is no dot or two. -/
structure Proper (part : Text) : Prop where
  is_part : IsPart part
  not_dot : part ≠ ['.']
  not_dots : part ≠ ['.', '.']

theorem proper_of_component {path part : Text} (h : .name part ∈ components path) :
    Proper part := by
  obtain ⟨p, hp, hpart⟩ := List.mem_filterMap.mp h
  split at hpart
  · cases hpart
  rename_i hdot
  split at hpart
  · cases hpart
  rename_i hdots
  cases hpart
  rw [not_or] at hdot
  exact ⟨⟨hdot.1, not_mem_split path _ hp⟩, hdot.2, hdots⟩

theorem Resolves.proper {here r : List Text} {cs : List Component} (h : Resolves nodes here cs r)
    (hhere : ∀ c ∈ here, Proper c) (hcs : ∀ part, .name part ∈ cs → Proper part) :
    ∀ c ∈ r, Proper c := by
  induction h with
  | here => exact hhere
  | parent _ ih =>
    exact ih (fun c hc => hhere c (List.mem_of_mem_dropLast hc))
      fun part hpart => hcs part (List.mem_cons_of_mem _ hpart)
  | @directory here r part rest _ _ ih =>
    refine ih (fun c hc => ?_) fun p hp => hcs p (List.mem_cons_of_mem _ hp)
    rcases List.mem_append.mp hc with hc | hc
    · exact hhere c hc
    · rw [List.mem_singleton.mp hc]
      exact hcs part List.mem_cons_self
  | @file here part _ =>
    intro c hc
    rcases List.mem_append.mp hc with hc | hc
    · exact hhere c hc
    · rw [List.mem_singleton.mp hc]
      exact hcs part List.mem_cons_self
  | @missing here names part _ =>
    intro c hc
    rcases List.mem_append.mp hc with hc | hc
    · exact hhere c hc
    · rcases List.mem_cons.mp hc with rfl | hc
      · exact hcs c List.mem_cons_self
      · exact hcs c (List.mem_cons_of_mem _ (List.mem_map_of_mem hc))
  | @link here r part target rest _ _ ih =>
    refine ih (fun c hc => ?_) fun p hp => ?_
    · split at hc
      · cases hc
      · exact hhere c hc
    · rcases List.mem_append.mp hp with hp | hp
      · exact proper_of_component hp
      · exact hcs p (List.mem_cons_of_mem _ hp)

theorem components_render {r : List Text} (h : ∀ c ∈ r, Proper c) :
    components (render r) = r.map .name := by
  have hnames : ∀ names : List Text, (∀ c ∈ names, Proper c) →
      names.filterMap (fun part => if part = [] ∨ part = ['.'] then none
        else if part = ['.', '.'] then some Component.parent else some (.name part)) =
      names.map .name := by
    intro names hproper
    induction names with
    | nil => rfl
    | cons c names ih =>
      obtain ⟨hpart, hdot, hdots⟩ := hproper c List.mem_cons_self
      rw [List.filterMap_cons, if_neg (not_or.mpr ⟨hpart.1, hdot⟩), if_neg hdots, List.map_cons,
        ih fun c hc => hproper c (List.mem_cons_of_mem _ hc)]
  unfold components render
  split
  · rename_i hnil
    rw [hnil]
    rfl
  · rw [split_joined fun c hc => (h c hc).is_part, List.filterMap_cons]
    exact hnames r h

theorem parts_render_of_proper {r : List Text} (h : ∀ c ∈ r, Proper c) : parts (render r) = r :=
  parts_render fun c hc => (h c hc).is_part

theorem is_absolute_render (r : List Text) : is_absolute (render r) := by
  unfold render is_absolute
  split
  · rfl
  · cases r with
    | nil => contradiction
    | cons c r => rfl

/-! ## Inside a workspace -/

section Inside

variable {host : Host} {context : LoadContext}

/-- Where the operating system finds the path that is meant. -/
def Leads (host : Host) (context : LoadContext) (path base : Text) (r : List Text) : Prop :=
  ∃ absolute, expand host context path base = .ok absolute ∧
    Resolves host.nodes [] (components absolute) r

/-- The path is at or below the other, as the operating system finds them. -/
def Lies (host : Host) (context : LoadContext) (path base root root_base : Text) : Prop :=
  ∃ r q, Leads host context path base r ∧ Leads host context root root_base q ∧ q <+: r

theorem Leads.proper {path base : Text} {r : List Text} (h : Leads host context path base r) :
    ∀ c ∈ r, Proper c := by
  obtain ⟨absolute, _, hr⟩ := h
  exact hr.proper nofun fun part => proper_of_component

theorem Leads.resolve_path {path base p : Text} {r : List Text} (h : Leads host context path base r)
    (hp : resolve_path host context path base = .ok p) : p = render r := by
  obtain ⟨absolute, hexpand, hr⟩ := h
  unfold Loader.resolve_path at hp
  rw [hexpand] at hp
  obtain ⟨a, ha, hp⟩ := bind_ok.mp hp
  obtain rfl : absolute = a := Except.ok.inj ha
  obtain ⟨resolved, hresolved, hrender⟩ := bind_ok.mp hp
  rw [← pure_ok.mp hrender, resolve_eq hr (.inl dir_nil) hresolved]

theorem expand_absolute {path base a : Text} (h : is_absolute path)
    (ha : expand host context path base = .ok a) : a = path := by
  cases path with
  | nil => cases h
  | cons c path =>
    have hc : c = '/' := by simpa [is_absolute] using h
    subst hc
    have hhome : expand_home host context ('/' :: path) = .ok ('/' :: path) := by
      simp [expand_home, text]
    unfold expand at ha
    obtain ⟨_, _, ha⟩ := bind_ok.mp ha
    rw [hhome] at ha
    obtain ⟨p, hp, ha⟩ := bind_ok.mp ha
    cases hp
    rw [← pure_ok.mp ha]
    rfl

/-- A path that is resolved leads to itself, where it is looked at again. -/
theorem Leads.again {path base base' p : Text} {r : List Text} (h : Leads host context path base r)
    (hp : Loader.resolve_path host context (render r) base' = .ok p) : p = render r := by
  have hproper := h.proper
  obtain ⟨absolute, _, hr⟩ := h
  have hp' := hp
  unfold Loader.resolve_path at hp'
  obtain ⟨a, ha, _⟩ := bind_ok.mp hp'
  have hsame : a = render r := expand_absolute (is_absolute_render r) ha
  refine Leads.resolve_path ⟨a, ha, ?_⟩ hp
  rw [hsame, components_render hproper]
  exact hr.again dir_nil

theorem casefold_render {r : List Text} (h : ∀ c ∈ r, Proper c) :
    casefold_path host (render r) = r.map host.casefold := by
  unfold casefold_path
  rw [parts_render_of_proper h]

/-- The loader finds the path where it leads, when it looks at `p`. -/
def Found (host : Host) (context : LoadContext) (path base p : Text) : Prop :=
  ∀ r p', Leads host context path base r →
    Loader.resolve_path host context p host.current_dir = .ok p' → p' = render r

theorem found_given (path : Text) : Found host context path host.current_dir path :=
  fun _ _ h hp => h.resolve_path hp

theorem found_resolved {path base p : Text}
    (h : Loader.resolve_path host context path base = .ok p) : Found host context path base p := by
  intro r p' hr hp
  obtain rfl := hr.resolve_path h
  exact hr.again hp

theorem Found.not_lies {path base p root root_base w : Text}
    (hfound : Found host context path base p)
    (hroot : Loader.resolve_path host context root root_base = .ok w)
    (h : within host context p w = .ok false) :
    ¬ Lies host context path base root root_base := by
  rintro ⟨r, q, hr, hq, hqr⟩
  unfold within at h
  obtain ⟨p', hp', h⟩ := bind_ok.mp h
  have hfalse := pure_ok.mp h
  rw [hfound r p' hr hp', hq.resolve_path hroot, casefold_render hr.proper,
    casefold_render hq.proper, decide_eq_false_iff_not] at hfalse
  exact hfalse (hqr.map host.casefold)

end Inside

/-! ## What a configuration protects -/

section Loaded

variable {host : Host} {context : LoadContext} {registry : Registry} {source : Source}
  {config : Config} {path : Text}

variable (host context source config path) in
/-- The rules of the owner that are protected, each with the directory it is relative to. -/
def rules : List (Text × Text) :=
  let base := dirname config.path
  let contract := match source.contract with
    | some p => [p]
    | none =>
      if is_file host.nodes (join base (text "contract.md")) then [join base (text "contract.md")]
      else []
  context.protected.map (·, host.current_dir) ++ [(path, host.current_dir)] ++
    contract.map (·, base) ++ source.repos.toList.map (·, base)

variable (host source config) in
/-- The state database and the control socket. -/
def capabilities : List (Text × Text) :=
  let base := dirname config.path
  [(source.state_path.getD DEFAULT_STATE, base),
    match source.control_socket with
    | some p => (p, base)
    | none => (config.control_socket, host.current_dir)]

variable (source config) in
def deny_lists : List (Text × Text) := source.deny_list.toList.map (·, dirname config.path)

variable (host context registry source config) in
/-- None of the files lies in a workspace of this machine that is `asked` for. -/
def Outside (asked : Text → Bool) (files : List (Text × Text)) : Prop :=
  ∀ m ∈ source.machines, registry.remote m.transport = false → ∀ w ∈ m.workspaces,
    asked w.mode → ∀ p ∈ files, ¬ Lies host context p.1 p.2 w.path (dirname config.path)

variable (host context registry source config path) in
/-- The state is in no local workspace, and no private input in a writable one. -/
def Contained : Prop :=
  Outside host context registry source config (fun _ => true) (capabilities host source config) ∧
    Outside host context registry source config registry.writable
      (rules host context source config path ++ deny_lists source config)

theorem outside_ok {root : Text} {message : Text → String} {paths : List Text}
    (h : outside host context root message paths = .ok ()) :
    ∀ p ∈ paths, within host context p root = .ok false := by
  induction paths with
  | nil => exact nofun
  | cons p paths ih =>
    unfold outside at h
    obtain ⟨inside, hinside, h⟩ := bind_ok.mp h
    obtain ⟨_, hrefuse, h⟩ := bind_ok.mp h
    rintro x (_ | ⟨_, hx⟩)
    · rw [hinside, Bool.eq_false_iff.mpr (refuse_ok.mp hrefuse)]
    · exact ih h x hx

structure Protected (host : Host) (context : LoadContext) (registry : Registry) (config : Config)
    (secrets : List Text) (w : Workspace) : Prop where
  state : within host context config.state_path w.path = .ok false
  socket : within host context config.control_socket w.path = .ok false
  secrets : registry.writable w.mode → ∀ p ∈ secrets, within host context p w.path = .ok false

theorem protect_workspace_ok {secrets : List Text} {m : Machine} {w : Workspace}
    (h : protect_workspace host context registry config secrets m w = .ok ()) :
    Protected host context registry config secrets w := by
  unfold protect_workspace at h
  obtain ⟨_, hstate, h⟩ := bind_ok.mp h
  obtain ⟨_, hsocket, h⟩ := bind_ok.mp h
  refine ⟨outside_ok hstate _ List.mem_cons_self, outside_ok hsocket _ List.mem_cons_self, ?_⟩
  intro hwritable
  rw [if_pos hwritable] at h
  exact outside_ok h

theorem protect_machine_ok {secrets : List Text} {m : Machine} {ws : List Workspace}
    (h : protect_machine host context registry config secrets m ws = .ok ()) :
    ∀ w ∈ ws, Protected host context registry config secrets w := by
  induction ws with
  | nil => exact nofun
  | cons w ws ih =>
    unfold protect_machine at h
    obtain ⟨_, hw, h⟩ := bind_ok.mp h
    rintro x (_ | ⟨_, hx⟩)
    · exact protect_workspace_ok hw
    · exact ih h x hx

theorem protect_machines_ok {secrets : List Text} {ms : List Machine}
    (h : protect_machines host context registry config secrets ms = .ok ()) :
    ∀ m ∈ ms, registry.remote m.transport = false → ∀ w ∈ m.workspaces,
      Protected host context registry config secrets w := by
  induction ms with
  | nil => exact nofun
  | cons m ms ih =>
    unfold protect_machines at h
    obtain ⟨_, hm, h⟩ := bind_ok.mp h
    rintro x (_ | ⟨_, hx⟩) hlocal
    · unfold protect_local at hm
      rw [hlocal] at hm
      exact protect_machine_ok hm
    · exact ih h x hx hlocal

theorem workspaces_of_ok {transport base : Text} {sources : List WorkspaceSource}
    {ws : List Workspace} (h : workspaces_of host context transport base sources = .ok ws) :
    ∀ s ∈ sources, ∃ w ∈ ws, w.mode = s.mode ∧
      workspace_path host context transport s.path base = .ok w.path := by
  induction sources generalizing ws with
  | nil => exact nofun
  | cons s sources ih =>
    unfold workspaces_of at h
    obtain ⟨p, hp, h⟩ := bind_ok.mp h
    obtain ⟨rest, hrest, h⟩ := bind_ok.mp h
    obtain rfl := pure_ok.mp h
    rintro x (_ | ⟨_, hx⟩)
    · exact ⟨_, List.mem_cons_self, rfl, hp⟩
    · obtain ⟨w, hw, hsame⟩ := ih hrest x hx
      exact ⟨w, List.mem_cons_of_mem _ hw, hsame⟩

theorem machines_of_ok {base : Text} {sources : List MachineSource} {ms : List Machine}
    (h : machines_of host context base sources = .ok ms) :
    ∀ s ∈ sources, ∃ m ∈ ms, m.transport = s.transport ∧
      ∀ v ∈ s.workspaces, ∃ w ∈ m.workspaces, w.mode = v.mode ∧
        workspace_path host context s.transport v.path base = .ok w.path := by
  induction sources generalizing ms with
  | nil => exact nofun
  | cons s sources ih =>
    unfold machines_of at h
    obtain ⟨_, _, h⟩ := bind_ok.mp h
    obtain ⟨ws, hws, h⟩ := bind_ok.mp h
    obtain ⟨_, _, h⟩ := bind_ok.mp h
    obtain ⟨rest, hrest, h⟩ := bind_ok.mp h
    obtain rfl := pure_ok.mp h
    rintro x (_ | ⟨_, hx⟩)
    · exact ⟨_, List.mem_cons_self, rfl, workspaces_of_ok hws⟩
    · obtain ⟨m, hm, hsame⟩ := ih hrest x hx
      exact ⟨m, List.mem_cons_of_mem _ hm, hsame⟩

theorem workspace_path_local {path base p : Text}
    (h : workspace_path host context (text "local") path base = .ok p) :
    resolve_path host context path base = .ok p := by
  unfold workspace_path at h
  rw [if_pos rfl] at h
  obtain ⟨q, hq, h⟩ := bind_ok.mp h
  obtain ⟨_, _, h⟩ := bind_ok.mp h
  obtain ⟨_, _, h⟩ := bind_ok.mp h
  obtain ⟨_, _, h⟩ := bind_ok.mp h
  rw [hq, pure_ok.mp h]

theorem file_ok {path base p : Text} (h : file host context path base = .ok p) :
    resolve_path host context path base = .ok p := by
  unfold file at h
  obtain ⟨q, hq, h⟩ := bind_ok.mp h
  obtain ⟨_, _, h⟩ := bind_ok.mp h
  rw [hq, pure_ok.mp h]

theorem map_some_ok {α : Type} {x : Except String α} {y : Option α} (h : x.map some = .ok y) :
    ∃ a, x = .ok a ∧ y = some a := by
  cases x with
  | error e => cases h
  | ok a => exact ⟨a, rfl, (Except.ok.inj h).symm⟩

structure Loaded (host : Host) (context : LoadContext) (registry : Registry) (source : Source)
    (path : Text) (config : Config) : Prop where
  path : resolve_path host context path host.current_dir = .ok config.path
  contract : contract_of host context source (dirname config.path) = .ok config.contract
  repos : optional_file host context source.repos (dirname config.path) = .ok config.repos
  state : resolve_path host context (source.state_path.getD DEFAULT_STATE) (dirname config.path) =
    .ok config.state_path
  socket : control_socket_of host context source (dirname config.path) config.state_path =
    .ok config.control_socket
  machines : machines_of host context (dirname config.path) source.machines = .ok config.machines
  protects : protect host context registry config = .ok ()

theorem parse_ok (h : parse host context registry source path = .ok config) :
    Loaded host context registry source path config := by
  unfold parse at h
  obtain ⟨p, hp, h⟩ := bind_ok.mp h
  obtain ⟨_, _, h⟩ := bind_ok.mp h
  dsimp only at h
  obtain ⟨contract, hcontract, h⟩ := bind_ok.mp h
  obtain ⟨repos, hrepos, h⟩ := bind_ok.mp h
  obtain ⟨deny_list, _, h⟩ := bind_ok.mp h
  obtain ⟨state_path, hstate, h⟩ := bind_ok.mp h
  obtain ⟨control_socket, hsocket, h⟩ := bind_ok.mp h
  obtain ⟨machines, hmachines, h⟩ := bind_ok.mp h
  obtain ⟨_, hprotect, h⟩ := bind_ok.mp h
  obtain rfl := pure_ok.mp h
  exact ⟨hp, hcontract, hrepos, hstate, hsocket, hmachines, hprotect⟩

theorem Loaded.rules_found (h : Loaded host context registry source path config) :
    ∀ x ∈ rules host context source config path,
      ∃ p ∈ context.protected ++ [config.path] ++ config.contract.toList ++ config.repos.toList,
        Found host context x.1 x.2 p := by
  intro x hx
  simp only [rules, List.mem_append, List.mem_singleton] at hx ⊢
  rcases hx with ((hx | rfl) | hx) | hx
  · obtain ⟨p, hp, rfl⟩ := List.mem_map.mp hx
    exact ⟨p, .inl (.inl (.inl hp)), found_given p⟩
  · exact ⟨config.path, .inl (.inl (.inr rfl)), found_resolved h.path⟩
  · have hcontract := h.contract
    unfold contract_of at hcontract
    obtain ⟨p, hp, rfl⟩ := List.mem_map.mp hx
    cases hsource : source.contract with
    | some q =>
      simp only [hsource] at hp hcontract
      obtain ⟨r, hr, hsome⟩ := map_some_ok hcontract
      refine ⟨r, .inl (.inr (by simp [hsome])), ?_⟩
      rw [List.mem_singleton.mp hp]
      exact found_resolved (file_ok hr)
    | none =>
      simp only [hsource] at hp hcontract
      split at hp
      · rename_i hfile
        rw [if_pos hfile] at hcontract
        obtain ⟨r, hr, hsome⟩ := map_some_ok hcontract
        refine ⟨r, .inl (.inr (by simp [hsome])), ?_⟩
        rw [List.mem_singleton.mp hp]
        exact found_resolved hr
      · cases hp
  · have hrepos := h.repos
    unfold optional_file at hrepos
    obtain ⟨p, hp, rfl⟩ := List.mem_map.mp hx
    cases hsource : source.repos with
    | none =>
      rw [hsource] at hp
      cases hp
    | some q =>
      simp only [hsource] at hp hrepos
      obtain ⟨r, hr, hsome⟩ := map_some_ok hrepos
      refine ⟨r, .inr (by simp [hsome]), ?_⟩
      rw [List.mem_singleton.mp hp]
      exact found_resolved (file_ok hr)

theorem Loaded.capabilities_found (h : Loaded host context registry source path config) :
    ∀ x ∈ capabilities host source config,
      Found host context x.1 x.2 config.state_path ∨
        Found host context x.1 x.2 config.control_socket := by
  intro x hx
  simp only [capabilities, List.mem_cons, List.not_mem_nil, or_false] at hx
  rcases hx with rfl | rfl
  · exact .inl (found_resolved h.state)
  · have hsocket := h.socket
    unfold control_socket_of at hsocket
    right
    cases hsource : source.control_socket with
    | none => exact found_given config.control_socket
    | some p =>
      simp only [hsource] at hsocket
      obtain ⟨r, hr, hsocket⟩ := bind_ok.mp hsocket
      obtain ⟨_, _, hsocket⟩ := bind_ok.mp hsocket
      rw [← pure_ok.mp hsocket]
      exact found_resolved hr

theorem Loaded.protected (h : Loaded host context registry source path config)
    (hremote : ∀ transport, registry.remote transport = false → transport = text "local") :
    ∀ m ∈ source.machines, registry.remote m.transport = false → ∀ w ∈ m.workspaces,
      ∃ loaded : Workspace, loaded.mode = w.mode ∧
        resolve_path host context w.path (dirname config.path) = .ok loaded.path ∧
        Protected host context registry config
          (context.protected ++ [config.path] ++ config.contract.toList ++ config.repos.toList)
          loaded := by
  intro m hm hlocal w hw
  obtain ⟨machine, hmachine, htransport, hworkspaces⟩ := machines_of_ok h.machines m hm
  obtain ⟨loaded, hloaded, hmode, hpath⟩ := hworkspaces w hw
  rw [hremote m.transport hlocal] at hpath
  refine ⟨loaded, hmode, workspace_path_local hpath, ?_⟩
  exact protect_machines_ok h.protects machine hmachine (htransport ▸ hlocal) loaded hloaded

/-- **An accepted configuration keeps its state and the owner's files out of the workspaces just
when its deny list is in no writable one.** -/
theorem contained_iff
    (hremote : ∀ transport, registry.remote transport = false → transport = text "local")
    (h : parse host context registry source path = .ok config) :
    Contained host context registry source config path ↔
      Outside host context registry source config registry.writable (deny_lists source config) := by
  have hloaded := parse_ok h
  constructor
  · exact fun hcontained m hm hlocal w hw hwritable p hp =>
      hcontained.2 m hm hlocal w hw hwritable p (List.mem_append_right _ hp)
  · intro hdeny
    refine ⟨fun m hm hlocal w hw _ p hp => ?_, fun m hm hlocal w hw hwritable p hp => ?_⟩
    · obtain ⟨loaded, _, hpath, hprotected⟩ := hloaded.protected hremote m hm hlocal w hw
      rcases hloaded.capabilities_found p hp with hfound | hfound
      · exact hfound.not_lies hpath hprotected.state
      · exact hfound.not_lies hpath hprotected.socket
    · rcases List.mem_append.mp hp with hp | hp
      · obtain ⟨loaded, hmode, hpath, hprotected⟩ := hloaded.protected hremote m hm hlocal w hw
        obtain ⟨stored, hstored, hfound⟩ := hloaded.rules_found p hp
        exact hfound.not_lies hpath (hprotected.secrets (hmode ▸ hwritable) stored hstored)
      · exact hdeny m hm hlocal w hw hwritable p hp

end Loaded

/-! ## A deny list in a workspace -/

def machine_files : Nodes := fun p =>
  if p ∈ [[text "home"], [text "home", text "u"], [text "home", text "u", text "work"],
      [text "home", text "u", text "daemon"]] then some .directory
  else if p ∈ [[text "home", text "u", text "work", text "deny.txt"],
      [text "home", text "u", text "daemon", text "deny.txt"]] then some .file
  else none

def machine_host : Host where
  nodes := machine_files
  current_dir := text "/home/u"
  user_home := fun _ => none
  casefold := id
  deny_list := fun _ => true
  digest := id

def owner_context : LoadContext := ⟨text "/home/u", none, text "1000", [text "/usr/bin/fridica"]⟩

def local_registry : Registry where
  remote := fun transport => transport ≠ text "local"
  writable := fun mode => mode = text "write"

/-- A writable workspace, and the deny list at this place. -/
def with_deny_list (deny_list : Text) : Source where
  contract := none
  repos := none
  deny_list := some deny_list
  state_path := some (text "~/daemon/state.sqlite3")
  control_socket := none
  machines := [⟨text "local", text "local", [⟨text "work", text "../work", text "write"⟩]⟩]

theorem accepted (deny_list : Text)
    (h : (parse machine_host owner_context local_registry (with_deny_list deny_list)
      (text "daemon/config.toml")).toOption.isSome) :
    ∃ config, parse machine_host owner_context local_registry (with_deny_list deny_list)
      (text "daemon/config.toml") = .ok config := by
  cases hparse : parse machine_host owner_context local_registry (with_deny_list deny_list)
      (text "daemon/config.toml") with
  | ok config => exact ⟨config, rfl⟩
  | error e =>
    rw [hparse] at h
    cases h

theorem contained_iff_daemon : ∃ config,
    parse machine_host owner_context local_registry (with_deny_list (text "deny.txt"))
      (text "daemon/config.toml") = .ok config ∧
    (Contained machine_host owner_context local_registry (with_deny_list (text "deny.txt")) config
        (text "daemon/config.toml") ↔
      Outside machine_host owner_context local_registry (with_deny_list (text "deny.txt")) config
        local_registry.writable (deny_lists (with_deny_list (text "deny.txt")) config)) := by
  obtain ⟨config, h⟩ := accepted (text "deny.txt") (by decide +kernel)
  refine ⟨config, h, contained_iff (fun transport hlocal => ?_) h⟩
  simpa [local_registry] using hlocal

/-- The deny list of an accepted configuration in a workspace that workers write to. -/
theorem deny_list_inside : ∃ config,
    parse machine_host owner_context local_registry (with_deny_list (text "../work/deny.txt"))
      (text "daemon/config.toml") = .ok config ∧
    ¬ Contained machine_host owner_context local_registry
      (with_deny_list (text "../work/deny.txt")) config (text "daemon/config.toml") := by
  obtain ⟨config, h⟩ := accepted (text "../work/deny.txt") (by decide +kernel)
  refine ⟨config, h, fun hcontained => ?_⟩
  have hpath : config.path = text "/home/u/daemon/config.toml" := by
    have hresolved : resolve_path machine_host owner_context (text "daemon/config.toml")
      (text "/home/u") = .ok (text "/home/u/daemon/config.toml") := by decide +kernel
    exact Except.ok.inj ((parse_ok h).path.symm.trans hresolved)
  refine hcontained.2 _ List.mem_cons_self (by decide) _ List.mem_cons_self (by decide)
    (text "../work/deny.txt", dirname config.path) ?_ ?_
  · exact List.mem_append_right _ List.mem_cons_self
  · rw [hpath]
    refine ⟨[text "home", text "u", text "work", text "deny.txt"],
      [text "home", text "u", text "work"], ⟨text "/home/u/daemon/../work/deny.txt", ?_, ?_⟩,
      ⟨text "/home/u/daemon/../work", ?_, ?_⟩, ⟨[text "deny.txt"], rfl⟩⟩
    · decide +kernel
    · exact .directory (by decide) <| .directory (by decide) <| .directory (by decide) <|
        .parent <| .directory (by decide) <| .file (by decide)
    · decide +kernel
    · exact .directory (by decide) <| .directory (by decide) <| .directory (by decide) <|
        .parent <| .directory (by decide) .here

end Fridica.Loader
