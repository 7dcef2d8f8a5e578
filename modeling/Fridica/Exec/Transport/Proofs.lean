import Fridica.Exec.Isolation.Proofs
import Fridica.Exec.Ssh.Proofs
import Fridica.Exec.Transport.Spec

/-!
# What a transport starts
-/

namespace Fridica.Exec.Transport

open Fridica.Checked Fridica.Loader
open Fridica.Shell (Text Words read Closed read_append_blank)
open Fridica.Json (Value)

variable {system : System}

/-! ## The script of a remote launch -/

theorem script_reads {vars : Text → Text} {words : List Text} {cwd : Text}
    {env : List (Text × Text)} {timeout : Option Nat} {create : Bool} {script : Text}
    (h : remote_script_with_confinement words cwd env timeout create none = .ok script) :
    ∃ lines, script_lines words cwd env timeout create none = .ok lines ∧
      Words vars (read script)
        ["exec".toList, "sh".toList, "-c".toList, separated "; ".toList lines] ∧
      Restores vars words cwd env create [] lines := by
  unfold remote_script_with_confinement at h
  cases hlines : script_lines words cwd env timeout create none with
  | error e =>
    rw [hlines] at h
    cases h
  | ok lines =>
    rw [hlines] at h
    obtain rfl := Except.ok.inj h
    obtain ⟨prepare, argv, hsandbox, hrestores⟩ := @script_lines_restores vars _ _ _ _ _ _ _ hlines
    obtain ⟨-, rfl⟩ := Prod.mk.inj (Except.ok.inj hsandbox)
    refine ⟨lines, rfl, ?_, hrestores⟩
    have hsplit : "exec sh -c ".toList = "exec sh -c".toList ++ [' '] := by decide
    dsimp only
    rw [hsplit, List.append_assoc, List.singleton_append,
      read_append_blank (show Closed "exec sh -c".toList by decide) rfl]
    exact Words.append (show Words vars (read "exec sh -c".toList)
      ["exec".toList, "sh".toList, "-c".toList] from rfl)
      ((spells_quote (separated "; ".toList lines)).words (expand_pieces _))

/-- Nothing is exported but the environment. -/
def Exports (env : List (Text × Text)) (lines : List Text) : Prop :=
  ∀ line ∈ lines, "export".toList <+: line → ∃ v ∈ env, line = export_line v

theorem watchdog_exports (agent : Text) : ∀ line ∈ watchdog agent, ¬ "export".toList <+: line := by
  have hhead : ∀ {c : Char} {line : Text}, line.head? = some c → c ≠ 'e' →
      ¬ "export".toList <+: line := by
    rintro c line hline hc ⟨rest, rfl⟩
    exact hc (Option.some.inj hline).symm
  unfold watchdog
  simp only [List.forall_mem_cons]
  refine ⟨?_, ?_, ?_, ?_, ?_, ?_, ?_, ?_, ?_, ?_, ?_, ?_, ?_, ?_, ?_, List.forall_mem_nil _⟩
  case refine_10 => decide
  case refine_15 => decide
  all_goals exact hhead rfl (by decide)

theorem script_exports {words : List Text} {cwd : Text} {env : List (Text × Text)} {create : Bool}
    {lines : List Text} (h : script_lines words cwd env none create none = .ok lines) :
    Exports env lines := by
  unfold script_lines at h
  obtain ⟨-, -, h⟩ := bind_ok.mp h
  split at h
  · cases h
  obtain ⟨⟨prepare, argv⟩, hsandbox, h⟩ := bind_ok.mp h
  obtain ⟨rfl, rfl⟩ := Prod.mk.inj (Except.ok.inj hsandbox)
  obtain ⟨last, hlast, h⟩ := bind_ok.mp h
  obtain rfl := Except.ok.inj hlast
  obtain rfl := Except.ok.inj h
  intro line hline hexport
  simp only [List.append_nil, List.mem_append, List.mem_singleton] at hline
  rcases hline with (((rfl | hline) | hline) | rfl) | hline
  · exact absurd hexport (by decide)
  · obtain ⟨v, hv, rfl⟩ := List.mem_map.mp hline
    exact ⟨v, hv, rfl⟩
  · split at hline
    · obtain ⟨rest, hrest⟩ := hexport
      rw [List.mem_singleton.mp hline] at hrest
      exact absurd (List.cons.inj hrest).1 (by decide)
    · cases hline
  · obtain ⟨rest, hrest⟩ := hexport
    exact absurd (List.cons.inj hrest).1 (by decide)
  · exact absurd hexport (watchdog_exports _ line hline)

/-! ## The environment -/

theorem kept_of_scrubbed {inherited : Environment} {excluded : List Text}
    {extra : List (Text × Text)} {v : OsString × OsString}
    (h : v ∈ scrubbed_environment inherited excluded extra) : kept excluded v = true :=
  (List.mem_filter.mp h).2

theorem mem_insert {name value : OsString} {env : Environment} {v : OsString × OsString}
    (h : v ∈ insert name value env) : v = (name, value) ∨ v ∈ env := by
  induction env with
  | nil => exact .inl (List.mem_singleton.mp h)
  | cons u env ih =>
    unfold insert at h
    split_ifs at h
    · rcases List.mem_cons.mp h with rfl | h
      · exact .inl rfl
      · exact .inr (List.mem_cons_of_mem u h)
    · rcases List.mem_cons.mp h with rfl | h
      · exact .inl rfl
      · exact .inr h
    · rcases List.mem_cons.mp h with rfl | h
      · exact .inr List.mem_cons_self
      · exact (ih h).imp_right (List.mem_cons_of_mem u)

/-- A variable of the remote shell stands for one that was not scrubbed. -/
def Kept (excluded : List Text) (v : Text × Text) : Prop :=
  ∃ u : OsString × OsString, kept excluded u = true ∧ Utf8.from_utf8 u.1 = some v.1 ∧
    Utf8.from_utf8 u.2 = some v.2

theorem into_string_ok {s : OsString} {t : Text} (h : into_string s = .ok t) :
    Utf8.from_utf8 s = some t := by
  unfold into_string at h
  cases hs : Utf8.from_utf8 s with
  | none =>
    rw [hs] at h
    cases h
  | some u =>
    rw [hs] at h
    rw [Except.ok.inj h]

theorem remote_environment_kept {t : SshTransport} {env : List (Text × Text)}
    (h : remote_environment t = .ok env) : ∀ v ∈ env, Kept t.excluded_env v := by
  intro v hv
  obtain ⟨u, hu, hread⟩ := mapM_ok h v hv
  obtain ⟨name, hname, hread⟩ := bind_ok.mp hread
  obtain ⟨value, hvalue, hread⟩ := bind_ok.mp hread
  obtain rfl := pure_ok.mp hread
  exact ⟨u, kept_of_scrubbed hu, into_string_ok hname, into_string_ok hvalue⟩

/-! ## The transports -/

theorem local_launch_ok {t : LocalTransport} {command : List Text} {cwd : Text}
    {inherited : Environment} {create : Bool} {l : Launch}
    (h : t.launch system command cwd inherited create = .ok l) :
    l = ⟨command, some (expand_home cwd t.home),
      scrubbed_environment inherited t.excluded_env t.machine.environment⟩ := by
  unfold LocalTransport.launch at h
  obtain ⟨_, _, h⟩ := bind_ok.mp h
  obtain ⟨_, _, h⟩ := bind_ok.mp h
  obtain ⟨_, _, h⟩ := bind_ok.mp h
  obtain ⟨_, _, h⟩ := bind_ok.mp h
  exact (pure_ok.mp h).symm

/-- What runs on the host of an SSH launch. -/
structure Remote (vars : Text → Text) (t : SshTransport) (words : List Text) (cwd : Text)
    (create : Bool) (l : Launch) : Prop where
  reads : ∃ script lines env, remote_environment t = .ok env ∧
    (∀ v ∈ env, Kept t.excluded_env v) ∧
    l.argv = text "ssh" :: ssh_options (Loader.join t.control_directory (text "%C")) ++
      [t.machine.host, script] ∧
    Words vars (read script)
      ["exec".toList, "sh".toList, "-c".toList, separated "; ".toList lines] ∧
    script_lines words cwd env none create none = .ok lines ∧
    Restores vars words cwd env create [] lines ∧ Exports env lines
  cwd : l.cwd = none
  scrubbed : ∀ v ∈ l.env, kept t.excluded_env v = true

theorem ssh_launch_ok {vars : Text → Text} {t : SshTransport} {words : List Text} {cwd : Text}
    {inherited : Environment} {create : Bool} {l : Launch}
    (h : t.launch system words cwd inherited create = .ok l) :
    Remote vars t words cwd create l := by
  unfold SshTransport.launch at h
  obtain ⟨_, _, h⟩ := bind_ok.mp h
  obtain ⟨_, _, h⟩ := bind_ok.mp h
  obtain ⟨env, henv, h⟩ := bind_ok.mp h
  obtain ⟨script, hscript, h⟩ := bind_ok.mp h
  obtain ⟨argv, hargv, h⟩ := bind_ok.mp h
  obtain rfl := pure_ok.mp h
  obtain ⟨lines, hlines, hwords, hrestores⟩ := @script_reads vars _ _ _ _ _ _ hscript
  unfold command at hargv
  obtain ⟨_, _, hargv⟩ := bind_ok.mp hargv
  obtain rfl := pure_ok.mp hargv
  exact ⟨⟨script, lines, env, henv, remote_environment_kept henv, rfl, hwords, hlines, hrestores,
    script_exports hlines⟩, rfl, fun v hv => kept_of_scrubbed hv⟩

/-! ## The isolation -/

theorem launch_mode_ok {i : Isolation} {t : LocalTransport} {command : List Text} {cwd : Text}
    {inherited : Environment} {create preflight : Bool} {probe_backend : Option Text} {l : Launch}
    (h : i.launch_mode system t command cwd inherited create preflight probe_backend = .ok l) :
    l = ⟨python system system.helper (local_payload i t.home cwd create preflight probe_backend)
        command, some ['/'], insert (os (text "HOME")) (os t.home)
          (scrubbed_environment inherited t.excluded_env t.machine.environment)⟩ := by
  unfold Isolation.launch_mode at h
  obtain ⟨_, _, h⟩ := bind_ok.mp h
  obtain ⟨_, _, h⟩ := bind_ok.mp h
  exact (pure_ok.mp h).symm

theorem launch_remote_mode_ok {vars : Text → Text} {t : SshTransport} {command : List Text}
    {cwd : Text} {inherited : Environment} {create preflight : Bool}
    {probe_backend : Option Text} {l : Launch}
    (h : Isolation.launch_remote_mode system t command cwd inherited create preflight
      probe_backend = .ok l) :
    Remote vars t (python system system.helper
      (remote_payload cwd create preflight probe_backend t.excluded_env) command)
      ['/'] false l := by
  unfold Isolation.launch_remote_mode at h
  obtain ⟨_, _, h⟩ := bind_ok.mp h
  obtain ⟨_, _, h⟩ := bind_ok.mp h
  exact ssh_launch_ok h

theorem mcp_startup_ok {command words : List Text} {home : Option Text} {cwd : Text}
    {excluded_env : List Text} {create : Bool}
    (h : Isolation.mcp_startup system command home cwd excluded_env create = .ok words) :
    words = python system system.mcp_startup (startup_payload home cwd excluded_env create)
      command := by
  unfold Isolation.mcp_startup at h
  obtain ⟨_, _, h⟩ := bind_ok.mp h
  obtain ⟨_, _, h⟩ := bind_ok.mp h
  exact (pure_ok.mp h).symm

/-! ## What the helper is told -/

theorem texts_map (l : List Text) : texts (.array (l.map string)) = some l := by
  unfold texts Value.as_array
  rw [Option.bind_some, List.mapM_map]
  induction l with
  | nil => rfl
  | cons t l ih =>
    rw [List.mapM_cons, ih]
    simp [string, Value.as_str]

theorem get_of_fields (fields : List (String × Value)) (key : String) :
    (Value.of_fields fields).get key = fields.reverse.lookup key := by
  have h := Value.lookup_extend [] fields key
  rwa [List.lookup_nil, Option.or_none] at h

theorem request_local (i : Isolation) (home cwd : Text) (create preflight : Bool) :
    request_of (local_payload i home cwd create preflight none) =
      some ⟨some home, cwd, i.private, create, preflight, []⟩ := by
  unfold request_of local_payload
  simp [get_of_fields, List.lookup_cons, texts_map, string, nullable, Value.as_str, Value.as_bool]

theorem told_python {loads : Text → Option Value} {program : Text} {payload : Value}
    {command : List Text} {request : Exec.Isolation.Request}
    (hloads : loads (system.to_string payload) = some payload)
    (hrequest : request_of payload = some request) :
    told loads (python system program payload command) = some (request, command) := by
  have htold : told loads (python system program payload command) =
      ((loads (system.to_string payload)).bind request_of).map (·, command) := rfl
  rw [htold, hloads, Option.bind_some, hrequest, Option.map_some]

/-- The daemon's own files. -/
def own_files (config : Loader.Config) : List Text :=
  [config.path, config.state_path, config.control_socket] ++ config.contract.toList ++
    config.deny_list.toList ++ config.repos.toList

theorem new_ok {config : Loader.Config} {additional : List Text} {i : Isolation}
    (h : Isolation.new config additional = .ok i) :
    i.private = own_files config ++ additional := by
  unfold Isolation.new at h
  obtain ⟨_, _, h⟩ := bind_ok.mp h
  obtain rfl := pure_ok.mp h
  rfl

end Fridica.Exec.Transport
