import Fridica.Exec.Transport.Proofs
import Fridica.Workers.Launcher.Spec

/-!
# What a worker's machine runs
-/

namespace Fridica.Workers.Launcher

open Fridica.Checked Fridica.Loader Fridica.Exec.Transport
open Fridica.Path (Text)
open Fridica.Exec.Isolation (BelowMask main_ok target)
open Fridica.Json (Value)

variable {system : System} {launcher : SystemLauncher} {spec : WorkerSpec} {command : List Text}
  {l : Launch}

/-! ## Every launch -/

theorem of_mapError {x : Except String α} {f : String → String} {a : α}
    (h : x.mapError f = .ok a) : x = .ok a := by
  cases x with
  | error e => cases h
  | ok b => exact h

/-- The machine of the worker runs the words in the directory, whatever the remote shell has for its
variables. Nothing of the environment is excluded, but for the home of a confined worker. -/
inductive Reaches (vars : Text → Text) (launcher : SystemLauncher) (spec : WorkerSpec) (l : Launch)
    (words : List Text) (cwd : Text) : Prop
  | here (local_ : spec.machine.transport = text "local") (argv : l.argv = words)
    (cwd : l.cwd = some cwd)
    (scrubbed : ∀ v ∈ l.env, kept spec.excluded_env v = true ∨
      spec.confined = true ∧ v = (os (text "HOME"), os launcher.home))
  | there (create : Bool) (ssh : spec.machine.transport = text "ssh")
    (made : create = true → spec.create_cwd = true ∧ cwd = spec.workspace.path)
    (remote : Remote vars (ssh_transport launcher spec) words cwd create l)

theorem launch_local_reaches {vars : Text → Text} (hlocal : spec.machine.transport = text "local")
    (h : launch_local system launcher spec command = .ok l) :
    Reaches vars launcher spec l (program system launcher spec command).1
      (program system launcher spec command).2 := by
  unfold launch_local at h
  unfold program
  simp only [hlocal, if_true]
  split at h
  · next hconfined =>
    obtain rfl := launch_mode_ok h
    rw [if_pos hconfined]
    refine .here hlocal rfl rfl fun v hv => ?_
    rcases mem_insert hv with rfl | hv
    · exact .inr ⟨hconfined, rfl⟩
    · exact .inl (kept_of_scrubbed hv)
  · next hconfined =>
    rw [if_neg hconfined]
    split at h
    · next hcodex =>
      obtain ⟨words, hwords, h⟩ := bind_ok.mp h
      obtain rfl := local_launch_ok h
      obtain rfl := mcp_startup_ok hwords
      rw [if_pos hcodex]
      exact .here hlocal rfl rfl fun v hv => .inl (kept_of_scrubbed hv)
    · next hcodex =>
      obtain rfl := local_launch_ok h
      rw [if_neg hcodex]
      exact .here hlocal rfl rfl fun v hv => .inl (kept_of_scrubbed hv)

theorem launch_remote_reaches {vars : Text → Text} (hssh : spec.machine.transport = text "ssh")
    (h : launch_remote system launcher spec command = .ok l) :
    Reaches vars launcher spec l (program system launcher spec command).1
      (program system launcher spec command).2 := by
  have hremote : spec.machine.transport ≠ text "local" := by
    rw [hssh]
    decide
  unfold launch_remote at h
  unfold program
  simp only [if_neg hremote]
  split at h
  · next hconfined =>
    rw [if_pos hconfined]
    exact .there false hssh nofun (launch_remote_mode_ok h)
  · next hconfined =>
    rw [if_neg hconfined]
    split at h
    · next hcodex =>
      obtain ⟨words, hwords, h⟩ := bind_ok.mp h
      obtain rfl := mcp_startup_ok hwords
      rw [if_pos hcodex]
      exact .there false hssh nofun (ssh_launch_ok h)
    · next hcodex =>
      rw [if_neg hcodex]
      exact .there spec.create_cwd hssh (fun hcreate => ⟨hcreate, rfl⟩) (ssh_launch_ok h)

/-- **Every worker that is launched runs its program word for word, on its own machine.** -/
theorem launch_reaches (vars : Text → Text) (h : launch system launcher spec command = .ok l) :
    Reaches vars launcher spec l (program system launcher spec command).1
      (program system launcher spec command).2 := by
  unfold launch at h
  split at h
  · next hlocal => exact launch_local_reaches hlocal (of_mapError h)
  · split at h
    · next hssh => exact launch_remote_reaches hssh (of_mapError h)
    · cases h

/-! ## A worker of another machine -/

def helpers (to_string : Value → Text) : System where
  linux := true
  create_dir_all _ := true
  control_private _ := true
  ssh_host _ := true
  to_string := to_string
  bootstrap := text "bootstrap"
  helper := text "helper"
  mcp_startup := text "mcp_startup"

def daemon : SystemLauncher where
  home := text "/home/u"
  environment := [(os (text "HOME"), os (text "/home/u"))]
  ssh_control_directory := text "/run/user/1/fridica"
  isolation := ⟨[text "/home/u/daemon/config.toml", text "/home/u/daemon/state.sqlite3",
    text "/home/u/daemon/control.sock"]⟩

def on_box : WorkerSpec where
  machine := ⟨text "box", text "ssh", text "box", []⟩
  workspace := ⟨text "w", text "~/my work", text "write"⟩
  subfolders := true
  gpu_confine := none
  slot := 1
  excluded_env := []

theorem exists_ok {ε α : Type} {x : Except ε α} (h : x.toOption.isSome = true) :
    ∃ a, x = .ok a := by
  cases x with
  | error e => cases h
  | ok a => exact ⟨a, rfl⟩

theorem launch_reaches_box :
    ∃ l, launch (helpers fun _ => []) daemon on_box [text "claude", text "it's"] = .ok l ∧
      Reaches (fun _ => text "/home/u") daemon on_box l [text "claude", text "it's"]
        (text "~/my work") := by
  obtain ⟨l, h⟩ := exists_ok (x := launch (helpers fun _ => []) daemon on_box
    [text "claude", text "it's"]) (by decide +kernel)
  exact ⟨l, h, launch_reaches (fun _ => text "/home/u") h⟩

/-! ## A confined worker -/

theorem hidden_of_main {σ δ : Type} {host : Exec.Isolation.Host σ δ}
    {request : Exec.Isolation.Request} {home file : Text} {mounts : List Exec.Isolation.Mount}
    (hhome : request.home = some home) (hfile : file ∈ request.private)
    (h : Exec.Isolation.main host request command = .ok mounts) :
    ∃ p r, Exec.Isolation.path file = .ok p ∧ Exec.Isolation.path (host.realpath p) = .ok r ∧
      BelowMask mounts p ∧ BelowMask mounts r := by
  obtain ⟨home', workspace, given, resolved, selected, hentry⟩ := main_ok h
  obtain ⟨p, hp, htarget⟩ := mapM_all hentry.given_of file hfile
  obtain ⟨r, hr, hreal⟩ := mapM_all hentry.resolved_of p hp
  have hpath : target request home' file = Exec.Isolation.path file := by
    unfold target
    rw [if_neg]
    simp [hhome]
  exact ⟨p, r, hpath ▸ htarget, hreal, hentry.below_mask (List.mem_append_left _ hp),
    hentry.below_mask (List.mem_append_right _ hr)⟩

theorem probe_passed {result : Option (Int × OsString)} (h : probe_result result = .passed) :
    ∃ stdout, result = some (0, stdout) := by
  unfold probe_result at h
  split at h
  · cases h
  · next returncode stdout =>
    dsimp only at h
    split at h
    · next hready => exact ⟨stdout, by rw [hready.1]⟩
    · split_ifs at h

/-- What a worker was admitted on: the isolation is that of the configuration, and a confined
worker's probe went through on the configured workspace. -/
structure Admission (system : System) (launcher : SystemLauncher)
    (run : Launch → Option (Int × OsString)) (config : Loader.Config) (spec : WorkerSpec) :
    Prop where
  unchanged : Isolation.new config [] = .ok launcher.isolation
  probed : spec.confined = true → ∃ base probe stdout, base_of config spec = some base ∧
    preflight system launcher spec base = .ok probe ∧ run probe = some (0, stdout)

theorem admission_ok {run : Launch → Option (Int × OsString)} {config : Loader.Config}
    (h : admission system launcher run config spec = .ok ()) :
    Admission system launcher run config spec := by
  unfold admission at h
  obtain ⟨_, hsame, h⟩ := bind_ok.mp h
  refine ⟨?_, fun hconfined => ?_⟩
  · have hnew := not_not.mp (refuse_ok.mp hsame)
    cases hisolation : Isolation.new config [] with
    | error e =>
      rw [hisolation] at hnew
      cases hnew
    | ok i =>
      rw [hisolation] at hnew
      exact congrArg _ (Option.some.inj hnew)
  · rw [if_pos hconfined] at h
    obtain ⟨base, hbase, h⟩ := bind_ok.mp h
    obtain ⟨probe, hprobe, h⟩ := bind_ok.mp h
    obtain ⟨stdout, hrun⟩ := probe_passed (not_not.mp (refuse_ok.mp h))
    refine ⟨base, probe, stdout, ?_, hprobe, hrun⟩
    cases hfound : base_of config spec with
    | none =>
      rw [hfound] at hbase
      cases hbase
    | some found =>
      rw [hfound] at hbase
      rw [Except.ok.inj hbase]

/-- What the helper of a confined worker on the daemon's machine is told. -/
abbrev worker_payload (launcher : SystemLauncher) (spec : WorkerSpec) : Value :=
  local_payload launcher.isolation launcher.home spec.workspace.path spec.create_cwd false none

theorem confined_program (hconfined : spec.confined = true)
    (hlocal : spec.machine.transport = text "local") :
    program system launcher spec command =
      (python system system.helper (worker_payload launcher spec) command, ['/']) := by
  unfold program
  rw [if_pos hconfined, if_pos hlocal]

/-- The request that the helper of a confined worker on the daemon's machine reads. -/
def worker_request (launcher : SystemLauncher) (spec : WorkerSpec) : Exec.Isolation.Request :=
  ⟨some launcher.home, spec.workspace.path, launcher.isolation.private, spec.create_cwd, false, []⟩

theorem confined_told {loads : Text → Option Value}
    (hlocal : spec.machine.transport = text "local") (hconfined : spec.confined = true)
    (h : launch system launcher spec command = .ok l)
    (hloads : loads (system.to_string (worker_payload launcher spec)) =
      some (worker_payload launcher spec)) :
    told loads l.argv = some (worker_request launcher spec, command) := by
  have hreaches := launch_reaches (fun _ => []) h
  rw [confined_program hconfined hlocal] at hreaches
  rcases hreaches with ⟨-, hargv, -, -⟩ | ⟨-, hssh, -, -⟩
  · have htold := @told_python system loads system.helper _ command _ hloads (request_local ..)
    dsimp only at hargv
    rwa [← hargv] at htold
  · rw [hlocal] at hssh
    exact absurd hssh (by decide)

/-- **What an admitted confined worker on the daemon's machine is told makes the helper hide every
file of the daemon's configuration, and what it resolves to, wherever the worker is let start.** -/
theorem confined_hidden {run : Launch → Option (Int × OsString)} {config : Loader.Config}
    {loads : Text → Option Value} (hadmission : admission system launcher run config spec = .ok ())
    (hlocal : spec.machine.transport = text "local") (hconfined : spec.confined = true)
    (h : launch system launcher spec command = .ok l)
    (hloads : loads (system.to_string (worker_payload launcher spec)) =
      some (worker_payload launcher spec)) :
    ∃ request, told loads l.argv = some (request, command) ∧
      request.workspace = spec.workspace.path ∧
      ∀ {σ δ : Type} (host : Exec.Isolation.Host σ δ) (mounts : List Exec.Isolation.Mount),
        Exec.Isolation.main host request command = .ok mounts → ∀ file ∈ own_files config,
          ∃ p r, Exec.Isolation.path file = .ok p ∧
            Exec.Isolation.path (host.realpath p) = .ok r ∧ ∀ secret ∈ [p, r],
              BelowMask mounts secret ∧
              ∃ mask, Exec.Isolation.view mounts secret = some ⟨.tmpfs, mask⟩ := by
  refine ⟨_, confined_told hlocal hconfined h hloads, rfl, ?_⟩
  intro σ δ host mounts hmain file hfile
  have hmem : file ∈ launcher.isolation.private := by
    rw [new_ok (admission_ok hadmission).unchanged, List.append_nil]
    exact hfile
  obtain ⟨p, r, hp, hr, hbelow, hbelow'⟩ := hidden_of_main rfl hmem hmain
  refine ⟨p, r, hp, hr, ?_⟩
  simp only [List.forall_mem_cons, List.not_mem_nil, false_imp_iff, implies_true, and_true]
  exact ⟨⟨hbelow, hbelow.view⟩, hbelow', hbelow'.view⟩

def at_home : WorkerSpec where
  machine := ⟨text "local", text "local", [], []⟩
  workspace := ⟨text "w", text "/home/u/work", text "write"⟩
  subfolders := false
  gpu_confine := some true
  slot := 0
  excluded_env := []

def configured : Loader.Config where
  path := text "/home/u/daemon/config.toml"
  contract := none
  repos := none
  deny_list := none
  state_path := text "/home/u/daemon/state.sqlite3"
  control_socket := text "/home/u/daemon/control.sock"
  machines := [⟨text "local", text "local", [⟨text "w", text "/home/u/work", text "write"⟩]⟩]

/-- Every probe is passed. -/
def passing (_ : Launch) : Option (Int × OsString) :=
  some (0, os (text "fridica-isolation:namespace\nfridica-isolation:ready\n"))

/-- The payload, as JSON. -/
def written (preflight : Bool) : Text :=
  text "\x7b\"create\":false,\"home\":\"/home/u\",\"preflight\":" ++
  text (if preflight then "true" else "false") ++
  text ",\"private\":[\"/home/u/daemon/config.toml\",\"/home/u/daemon/state.sqlite3\"," ++
  text "\"/home/u/daemon/control.sock\"],\"probe_backend\":null," ++
  text "\"workspace\":\"/home/u/work\"\x7d"

def at_daemon : System :=
  helpers fun payload => written (((payload.get "preflight").bind Value.as_bool).getD false)

def loads (t : Text) : Option Value :=
  if t = written false then some (worker_payload daemon at_home) else none

/-- The machine has the workspace. -/
def home_machine : Exec.Isolation.Host Nat Nat :=
  { Exec.Isolation.machine with
    nodes := Function.update Exec.Isolation.machine.nodes [text "home", text "u", text "work"]
      (some .directory) }

theorem confined_hidden_daemon : ∃ l mounts,
    admission at_daemon daemon passing configured at_home = .ok () ∧
    launch at_daemon daemon at_home [text "codex"] = .ok l ∧
    told loads l.argv = some (worker_request daemon at_home, [text "codex"]) ∧
    Exec.Isolation.main home_machine (worker_request daemon at_home) [text "codex"] =
      .ok mounts ∧
    ∃ p, Exec.Isolation.path configured.control_socket = .ok p ∧
      ∃ mask, Exec.Isolation.view mounts p = some ⟨.tmpfs, mask⟩ := by
  obtain ⟨⟨⟩, hadmission⟩ := exists_ok (x := admission at_daemon daemon passing configured at_home)
    (by decide +kernel)
  obtain ⟨l, haccepted⟩ := exists_ok (x := launch at_daemon daemon at_home [text "codex"])
    (by decide +kernel)
  have hloads : loads (at_daemon.to_string (worker_payload daemon at_home)) =
      some (worker_payload daemon at_home) := if_pos rfl
  obtain ⟨mounts, hmain⟩ := exists_ok (x := Exec.Isolation.main home_machine
    (worker_request daemon at_home) [text "codex"]) (by decide +kernel)
  obtain ⟨request, htold, -, hhidden⟩ := confined_hidden hadmission rfl rfl haccepted hloads
  have hrequest := confined_told rfl rfl haccepted hloads
  obtain ⟨rfl, -⟩ := Prod.mk.inj (Option.some.inj (htold.symm.trans hrequest))
  obtain ⟨p, r, hp, -, hsecret⟩ := hhidden _ mounts hmain configured.control_socket (by decide)
  exact ⟨l, mounts, hadmission, haccepted, htold, hmain, p, hp, (hsecret p List.mem_cons_self).2⟩

end Fridica.Workers.Launcher
