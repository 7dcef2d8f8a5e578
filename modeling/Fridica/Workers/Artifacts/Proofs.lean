import Fridica.Exec.Isolation.Proofs
import Fridica.Workers.Artifacts.Spec

/-!
# What is read of a workspace lies in it
-/

namespace Fridica.Workers.Artifacts

open Fridica.Checked Fridica.Frame
open Fridica.Exec.Isolation (Nodes Node walk directory regular within walk_ok regular_ok within_iff)
open Fridica.Path (Text Normal parts)

/-- A file strictly below a root, behind directories only. -/
structure Opened (nodes : Nodes) (root file : List Text) (data : Bytes) : Prop where
  below : ∃ rest, rest ≠ [] ∧ file = root ++ rest
  directories : ∀ p, p <+: file.dropLast → p ≠ [] → nodes p = some .directory
  regular : ∃ links, nodes file = some (.file data links)

/-- The bytes of a file that the path leads to and that lies in the workspace. -/
def Confined (host : Host) (workspace path : Text) (data : Bytes) : Prop :=
  ∃ root file : Real, host.realpath workspace = some root ∧ host.realpath path = some file ∧
    Opened host.nodes (parts root.1) (parts file.1) data

/-! ## Here -/

section Local

variable {host : Host} {path : Text} {roots : List Text} {limit : ℕ} {data : Bytes}

theorem select_ok {resolved : Real} {root : Text} {base relative : List Text}
    (h : select host resolved root = some (base, relative)) :
    ∃ r, host.realpath root = some r ∧ base = parts r.1 ∧ parts resolved.1 = base ++ relative := by
  obtain ⟨r, hr, h⟩ := Option.bind_eq_some_iff.mp h
  split at h
  · next hbelow =>
    cases h
    obtain ⟨rest, hrest⟩ := hbelow
    exact ⟨r, hr, rfl, by rw [← hrest, List.drop_left]⟩
  · cases h

theorem mapError_ok {ε ε' α : Type} {x : Except ε α} {f : ε → ε'} {a : α} :
    x.mapError f = .ok a ↔ x = .ok a := by
  cases x <;> simp [Except.mapError]

theorem walk_append {nodes : Nodes} {base rest : List Text} (hbase : walk nodes [] base = .ok ())
    (hrest : walk nodes base rest = .ok ()) :
    ∀ p, p <+: base ++ rest → p ≠ [] → nodes p = some .directory := by
  intro p hp hne
  rcases List.prefix_or_prefix_of_prefix hp (List.prefix_append base rest) with hshort | ⟨q, rfl⟩
  · exact walk_ok hbase p hshort hne
  · by_cases hnil : q = []
    · rw [hnil, List.append_nil] at hne ⊢
      exact walk_ok hbase base (List.prefix_refl base) hne
    · exact walk_ok hrest q ((List.prefix_append_right_inj base).mp hp) hnil

theorem read_file_ok (h : read_file host path roots limit = .ok data) :
    data.length ≤ limit ∧ ∃ root ∈ roots, Confined host root path data := by
  unfold read_file at h
  obtain ⟨_, -, h⟩ := bind_ok.mp h
  cases hresolved : host.realpath path with
  | none => simp [hresolved] at h
  | some resolved =>
    cases hselected : roots.findSome? (select host resolved) with
    | none => simp [hresolved, hselected] at h
    | some selected =>
      obtain ⟨base, relative⟩ := selected
      simp only [hresolved, hselected] at h
      obtain ⟨_, hbase, h⟩ := bind_ok.mp h
      obtain ⟨_, hne, h⟩ := bind_ok.mp h
      obtain ⟨_, hrest, h⟩ := bind_ok.mp h
      obtain ⟨root, hroot, hselect⟩ := List.exists_of_findSome?_eq_some hselected
      obtain ⟨r, hr, rfl, hparts⟩ := select_ok hselect
      have hrelative : relative ≠ [] := by simpa using hne
      split at h
      · next bytes links hnode =>
        obtain ⟨_, hlimit, h⟩ := bind_ok.mp h
        obtain rfl := pure_ok.mp h
        refine ⟨by simpa using hlimit, root, hroot, r, resolved, hr, hresolved, ?_⟩
        refine ⟨⟨relative, hrelative, hparts⟩, ?_, links, by rw [hparts, hnode]⟩
        rw [hparts, List.dropLast_append_of_ne_nil hrelative]
        exact walk_append (mapError_ok.mp hbase) (mapError_ok.mp hrest)
      · cases h

end Local

/-! ## On another machine -/

section Helper

open Exec.Isolation (path_normal)

variable {host : Host} {home : Text} {request : Request}

theorem strict_ok {value : Text} {real : Real} (h : strict host value = .ok real) :
    host.realpath value = some real := by
  unfold strict at h
  split at h
  · next hreal => rw [hreal, Except.ok.inj h]
  · cases h

theorem allow_ok {target : Real} {roots : List Text} (h : allow host home target roots = .ok ()) :
    ∃ root ∈ roots, ∃ e r, expanded home root = .ok e ∧ host.realpath e = some r ∧
      parts r.1 <+: parts target.1 ∧ target ≠ r := by
  induction roots with
  | nil => cases h
  | cons root rest ih =>
    rw [allow] at h
    obtain ⟨e, he, h⟩ := bind_ok.mp h
    obtain ⟨r, hr, h⟩ := bind_ok.mp h
    split at h
    · next hwithin =>
      exact ⟨root, List.mem_cons_self, e, r, he, strict_ok hr,
        (within_iff target.2 r.2).mp hwithin.1, hwithin.2⟩
    · obtain ⟨root', hroot', hrest⟩ := ih h
      exact ⟨root', List.mem_cons_of_mem _ hroot', hrest⟩

theorem parts_injective {p q : Real} (h : parts p.1 = parts q.1) : p = q :=
  Subtype.ext (by rw [← p.2.parts.2, h, q.2.parts.2])

theorem regular_directories {nodes : Nodes} {file : Real} {data : Bytes}
    (h : regular nodes file.1 = .ok data) :
    ∀ p, p <+: (parts file.1).dropLast → p ≠ [] → nodes p = some .directory := by
  unfold regular at h
  obtain ⟨_, hwalk, -⟩ := bind_ok.mp h
  unfold directory at hwalk
  rw [file.2.dirname.2] at hwalk
  exact walk_ok hwalk

theorem emit_ok {out : Bytes} (h : emit host home request = .ok out) :
    ∃ data, out = frame HEADER 8 data ∧ data.length ≤ request.limit ∧
      request.limit ≤ ARTIFACT_LIMIT ∧ ∃ h', Exec.Isolation.path home = .ok h' ∧
        ∃ root ∈ request.roots, ∃ r p, expanded h' root = .ok r ∧
          expanded h' request.path = .ok p ∧ Confined host r p data := by
  unfold emit at h
  obtain ⟨h', hh', h⟩ := bind_ok.mp h
  obtain ⟨_, hlimit, h⟩ := bind_ok.mp h
  obtain ⟨_, -, h⟩ := bind_ok.mp h
  obtain ⟨p, hp, h⟩ := bind_ok.mp h
  obtain ⟨target, htarget, h⟩ := bind_ok.mp h
  obtain ⟨_, hallow, h⟩ := bind_ok.mp h
  obtain ⟨data, hdata, h⟩ := bind_ok.mp h
  obtain ⟨_, hlong, h⟩ := bind_ok.mp h
  obtain rfl := pure_ok.mp h
  obtain ⟨root, hroot, e, r, he, hr, ⟨rest, hrest⟩, hne⟩ := allow_ok hallow
  have hbelow : rest ≠ [] := by
    rintro rfl
    exact hne (parts_injective (by rw [← hrest, List.append_nil]))
  exact ⟨data, rfl, by simpa using hlong, by simpa [ARTIFACT_LIMIT] using hlimit, h', hh', root,
    hroot, e, p, he, hp, r, target, hr, strict_ok htarget, ⟨rest, hbelow, hrest.symm⟩,
    regular_directories hdata, regular_ok hdata⟩

end Helper

/-! ## What arrives of it -/

section Frames

variable {limit : ℕ} {out data : Bytes}

/-- The output of a process is taken only where it is one whole frame. -/
theorem read_frame_ok (h : read_frame limit out = .ok data) :
    out = frame HEADER 8 data ∧ data.length ≤ limit := by
  unfold read_frame at h
  obtain ⟨_, hheader, h⟩ := bind_ok.mp h
  obtain ⟨_, hlong, h⟩ := bind_ok.mp h
  obtain ⟨_, hlength, h⟩ := bind_ok.mp h
  obtain rfl := pure_ok.mp h
  rw [refuse_ok] at hheader hlong hlength
  obtain ⟨hnumber, hlimit⟩ := not_or.mp hlength
  exact ⟨eq_frame (not_not.mp hheader) (by omega) (not_not.mp hnumber) rfl, by omega⟩

theorem read_frame_frame (hlimit : limit < 256 ^ 8) (h : data.length ≤ limit) :
    read_frame limit (frame HEADER 8 data) = .ok data := by
  have hheader : HEADER <+: frame HEADER 8 data := by
    rw [frame, List.append_assoc]
    exact List.prefix_append _ _
  have hbody : (frame HEADER 8 data).drop HEADER.length = to_be 8 data.length ++ data := by
    rw [frame, List.append_assoc, List.drop_left]
  have hnumber : (to_be 8 data.length ++ data).take 8 = to_be 8 data.length :=
    List.take_left' (length_to_be 8 _)
  have hdata : (to_be 8 data.length ++ data).drop 8 = data := List.drop_left' (length_to_be 8 _)
  unfold read_frame
  simp only [bind_ok, refuse_ok, pure_ok, hbody, hnumber, hdata, of_be_to_be (h.trans_lt hlimit)]
  exact ⟨(), not_not.mpr hheader, (), by simp, (), by simpa using h, trivial⟩

end Frames

/-- What arrives of a helper that ended well is the beginning of what it wrote. -/
def Delivers (remote : Remote) (host : Host) (home : Text) : Prop :=
  ∀ request out, remote.run request = some (0, out) →
    ∃ whole, emit host home request = .ok whole ∧ out <+: whole

section Remotes

variable {remote : Remote} {host : Host} {home path : Text} {roots : List Text} {limit : ℕ}
  {data : Bytes}

theorem limit_small : ARTIFACT_LIMIT < 256 ^ 8 := by decide

theorem read_remote_arrived (hdelivers : Delivers remote host home)
    (h : read_remote remote path roots limit = .ok data) :
    remote.run ⟨path, roots, limit⟩ = some (0, frame HEADER 8 data) ∧
      emit host home ⟨path, roots, limit⟩ = .ok (frame HEADER 8 data) := by
  unfold read_remote at h
  obtain ⟨_, -, h⟩ := bind_ok.mp h
  cases hrun : remote.run ⟨path, roots, limit⟩ with
  | none => simp [hrun] at h
  | some result =>
    obtain ⟨returncode, stdout⟩ := result
    simp only [hrun] at h
    obtain ⟨_, hzero, h⟩ := bind_ok.mp h
    obtain rfl : returncode = 0 := by simpa using hzero
    obtain ⟨rfl, hlong⟩ := read_frame_ok h
    obtain ⟨whole, hemit, hcut⟩ := hdelivers _ _ hrun
    obtain ⟨sent, rfl, hsent, hlimit, -⟩ := emit_ok hemit
    have hsmall := limit_small
    simp only at hsent hlimit
    obtain rfl := frame_prefix (by omega) (by omega) hcut
    exact ⟨rfl, hemit⟩

theorem read_remote_ok (hdelivers : Delivers remote host home)
    (h : read_remote remote path roots limit = .ok data) :
    data.length ≤ limit ∧ ∃ h', Exec.Isolation.path home = .ok h' ∧
      ∃ root ∈ roots, ∃ r p, expanded h' root = .ok r ∧ expanded h' path = .ok p ∧
        Confined host r p data := by
  obtain ⟨-, hemit⟩ := read_remote_arrived hdelivers h
  obtain ⟨sent, hframe, hlong, -, hconfined⟩ := emit_ok hemit
  obtain rfl := frame_injective hframe
  exact ⟨hlong, hconfined⟩

/-- Of a file on another machine just the bytes are taken that the helper read there, where all that
it wrote arrived, and nothing where the connection broke before. -/
theorem read_remote_iff (hdelivers : Delivers remote host home)
    (htimeout : 0 < remote.read_timeout ∧ remote.read_timeout ≤ 120) :
    read_remote remote path roots limit = .ok data ↔
      remote.run ⟨path, roots, limit⟩ = some (0, frame HEADER 8 data) ∧
        emit host home ⟨path, roots, limit⟩ = .ok (frame HEADER 8 data) := by
  refine ⟨read_remote_arrived hdelivers, ?_⟩
  rintro ⟨hrun, hemit⟩
  obtain ⟨sent, hframe, hlong, hlimit, -⟩ := emit_ok hemit
  obtain rfl := frame_injective hframe
  have hsmall := limit_small
  simp only at hlong hlimit
  unfold read_remote
  simp only [bind_ok, refuse_ok, hrun]
  refine ⟨(), ?_, (), by simp, read_frame_frame (by omega) hlong⟩
  simp only [not_or, not_le, not_lt, gt_iff_lt]
  exact ⟨hlimit, htimeout⟩

end Remotes

/-! ## What is collected -/

section Collect

variable {io : JobIo} {spec : WorkerSpec} {far : Host} {home : Text}

/-- The file lies in the workspace, on the machine of the worker. -/
def Sent (io : JobIo) (spec : WorkerSpec) (far : Host) (home path : Text) (data : Bytes) : Prop :=
  spec.transport = "local" ∧ Confined io.host (Exec.Transport.expand_home spec.workspace io.home)
    (Exec.Transport.expand_home path io.home) data ∨
  spec.transport = "ssh" ∧ ∃ h w p, Exec.Isolation.path home = .ok h ∧
    expanded h spec.workspace = .ok w ∧ expanded h path = .ok p ∧ Confined far w p data

/-- The machine of the workers that are reached from here. -/
def Reaches (io : JobIo) (far : Host) (home : Text) : Prop :=
  ∀ remote, io.remote = some remote → Delivers remote far home

theorem read_ok {path : Text} {limit : ℕ} {data : Bytes} (hreaches : Reaches io far home)
    (h : read io spec path limit = .ok data) :
    data.length ≤ limit ∧ Sent io spec far home path data := by
  unfold read at h
  split at h
  · next hlocal =>
    obtain ⟨hlong, root, hroot, hconfined⟩ := read_file_ok (mapError_ok.mp h)
    obtain rfl := List.mem_singleton.mp hroot
    exact ⟨hlong, .inl ⟨hlocal, hconfined⟩⟩
  · split at h
    · next hssh =>
      cases hremote : io.remote with
      | none => simp [hremote] at h
      | some remote =>
        simp only [hremote] at h
        obtain ⟨hlong, h', hhome, root, hroot, r, p, hr, hp, hconfined⟩ :=
          read_remote_ok (hreaches remote hremote) (mapError_ok.mp h)
        obtain rfl := List.mem_singleton.mp hroot
        exact ⟨hlong, .inr ⟨hssh, h', r, p, hhome, hr, hp, hconfined⟩⟩
    · cases h

/-- The codes under which an artifact is refused. -/
def CODES : List String :=
  ["artifact_requires_absolute_path", "artifact_kind_unsupported", "artifact_suffix_mismatch",
    "artifact_size_limit", "artifact_invalid_png", "artifact_invalid_pdf", "artifact_invalid_utf8",
    "artifact_read_failed", "artifact_remote_adapter_unavailable", "artifact_transport_unsupported"]

/-- A checked computation fails with one of some codes. -/
def FailsIn {α : Type} (codes : List String) (x : Except String α) : Prop :=
  ∀ e, x = .error e → e ∈ codes

theorem FailsIn.bind {α β : Type} {codes : List String} {x : Except String α}
    {f : α → Except String β} (hx : FailsIn codes x) (hf : ∀ a, FailsIn codes (f a)) :
    FailsIn codes (x >>= f) := by
  cases x with
  | error e => exact fun e' h => hx e' (congrArg Except.error (Except.error.inj h))
  | ok a => exact hf a

theorem failsIn_refuse {codes : List String} {c : Prop} [Decidable c] {e : String}
    (he : e ∈ codes) : FailsIn codes (refuse c e) := by
  intro e' h
  unfold refuse at h
  split at h
  · rwa [← Except.error.inj h]
  · cases h

theorem failsIn_ok {α : Type} {codes : List String} {a : α} : FailsIn codes (.ok a) :=
  fun _ h => nomatch h

theorem failsIn_mapError {α ε : Type} {codes : List String} {x : Except ε α} {code : String}
    (hcode : code ∈ codes) : FailsIn codes (x.mapError fun _ => code) := by
  intro e h
  cases x with
  | error _ => rwa [← Except.error.inj h]
  | ok _ => cases h

theorem validate_reference_fails {reference : ArtifactRef} :
    FailsIn CODES (validate_reference reference) := by
  unfold validate_reference
  exact (failsIn_refuse (by decide)).bind fun _ => (failsIn_refuse (by decide)).bind fun _ =>
    failsIn_refuse (by decide)

theorem validate_content_fails {reference : ArtifactRef} {data : Bytes} :
    FailsIn CODES (validate_content reference data) := by
  unfold validate_content
  exact (failsIn_refuse (by decide)).bind fun _ => (failsIn_refuse (by decide)).bind fun _ =>
    (failsIn_refuse (by decide)).bind fun _ => (failsIn_refuse (by decide)).bind fun _ =>
      failsIn_refuse (by decide)

theorem read_fails {path : Text} {limit : ℕ} : FailsIn CODES (read io spec path limit) := by
  unfold read
  split
  · exact failsIn_mapError (by decide)
  · split
    · split
      · rintro e ⟨⟩
        decide
      · exact failsIn_mapError (by decide)
    · rintro e ⟨⟩
      decide

theorem collect_one_fails {reference : ArtifactRef} :
    FailsIn CODES (collect_one io spec reference) := by
  unfold collect_one
  exact validate_reference_fails.bind fun _ => read_fails.bind fun _ =>
    validate_content_fails.bind fun _ => failsIn_ok

/-- What is kept of an artifact: why it was refused, or a file of the worker's workspace, small
enough and of its kind. -/
def Kept (io : JobIo) (spec : WorkerSpec) (far : Host) (home : Text) (c : CollectedArtifact) :
    Prop :=
  match c.data with
  | none => c.error ∈ CODES
  | some data => c.error = "" ∧ data.length ≤ ARTIFACT_LIMIT ∧
    validate_reference c.reference = .ok () ∧ validate_content c.reference data = .ok () ∧
      Sent io spec far home c.reference.path data

theorem collected_kept {reference : ArtifactRef} (hreaches : Reaches io far home) :
    (collected io spec reference).reference = reference ∧
      Kept io spec far home (collected io spec reference) := by
  unfold collected
  cases h : collect_one io spec reference with
  | error e => exact ⟨rfl, collect_one_fails e h⟩
  | ok data =>
    unfold collect_one at h
    obtain ⟨_, hreference, h⟩ := bind_ok.mp h
    obtain ⟨data', hread, h⟩ := bind_ok.mp h
    obtain ⟨_, hcontent, h⟩ := bind_ok.mp h
    obtain rfl := pure_ok.mp h
    obtain ⟨hlong, hsent⟩ := read_ok hreaches hread
    exact ⟨rfl, rfl, hlong, hreference, hcontent, hsent⟩

/-- Whatever a worker names as its artifacts and wherever its paths lead: what is collected of each
is a file of its workspace or a refusal, and so is what is read of its progress. -/
theorem reads_confined (hreaches : Reaches io far home) :
    (∀ artifacts out, collect io spec artifacts = .ok out →
      out.map CollectedArtifact.reference = artifacts ∧ ∀ c ∈ out, Kept io spec far home c) ∧
    ∀ file data, progress io spec file = some data → data.length ≤ PROGRESS_LIMIT ∧
      Sent io spec far home (Loader.join spec.workspace file) data := by
  constructor
  · intro artifacts out h
    unfold collect at h
    split at h
    · cases h
    · cases h
      refine ⟨?_, fun c hc => ?_⟩
      · rw [List.map_map]
        exact List.map_id'' (fun reference => (collected_kept hreaches).1) artifacts
      · obtain ⟨reference, -, rfl⟩ := List.mem_map.mp hc
        exact (collected_kept hreaches).2
  · intro file data h
    unfold progress at h
    split at h
    · cases h
    · cases hread : read io spec (Loader.join spec.workspace file) PROGRESS_LIMIT with
      | error e =>
        rw [hread] at h
        cases h
      | ok data' =>
        rw [hread] at h
        cases h
        exact read_ok hreaches hread

/-- The notes of an attempt are read from a file of its own. -/
theorem progress_file_read (id : Text) (attempt : ℕ) :
    progress io spec (progress_file id attempt) = (read io spec
      (Loader.join spec.workspace (progress_file id attempt)) PROGRESS_LIMIT).toOption := by
  have hplain : '/' ∉ progress_file id attempt := by
    unfold progress_file
    simp [Loader.text, Text.not_mem_toDigits]
  exact if_neg (not_or.mpr ⟨hplain, by simp [progress_file, Loader.text]⟩)

theorem progress_file_injective (id : Text) : Function.Injective (progress_file id) := by
  intro i j h
  unfold progress_file at h
  exact Text.toDigits_between h

end Collect

/-! ## A note in a workspace -/

def workspace : Real :=
  ⟨Path.render [Loader.text "work"], Path.normal_render (by simp [Path.IsPart, Loader.text])⟩

def note : Real :=
  ⟨Path.render [Loader.text "work", Loader.text "a.md"],
    Path.normal_render (by simp [Path.IsPart, Loader.text])⟩

def box : Host where
  realpath p :=
    if p = Loader.text "/work" then some workspace
    else if p = Loader.text "/work/a.md" then some note else none
  nodes p :=
    if p = [Loader.text "work"] then some .directory
    else if p = [Loader.text "work", Loader.text "a.md"] then some (.file [0x6f, 0x6b] 1) else none

/-- The helper's output arrives. -/
def far_away : Remote where
  read_timeout := 60
  run request := (emit box (Loader.text "/root") request).toOption.map fun whole => (0, whole)

def system : JobIo := ⟨⟨fun _ => none, fun _ => none⟩, Loader.text "/home/u", some far_away⟩

def on_box : WorkerSpec := ⟨"ssh", Loader.text "/work"⟩

def named_note : ArtifactRef := ⟨Loader.text "/work/a.md", "md"⟩

theorem far_away_delivers : Delivers far_away box (Loader.text "/root") := by
  intro request out h
  obtain ⟨whole, hemit, hout⟩ := Option.map_eq_some_iff.mp h
  cases hout
  cases hrequest : emit box (Loader.text "/root") request with
  | error e =>
    rw [hrequest] at hemit
    cases hemit
  | ok data =>
    rw [hrequest] at hemit
    cases hemit
    exact ⟨_, rfl, List.prefix_refl _⟩

theorem reads_confined_note : ∃ c, collect system on_box [named_note] = .ok [c] ∧
    c.data = some [0x6f, 0x6b] ∧ Kept system on_box box (Loader.text "/root") c := by
  have hreaches : Reaches system box (Loader.text "/root") := by
    rintro remote ⟨⟩
    exact far_away_delivers
  refine ⟨collected system on_box named_note, rfl, by decide +kernel, ?_⟩
  exact ((reads_confined hreaches).1 [named_note] _ rfl).2 _ List.mem_cons_self

theorem read_remote_iff_note :
    read_remote far_away (Loader.text "/work/a.md") [Loader.text "/work"] 2 = .ok [0x6f, 0x6b] := by
  refine (read_remote_iff far_away_delivers ⟨by decide, by decide⟩).mpr ⟨?_, ?_⟩
  · decide +kernel
  · decide +kernel

end Fridica.Workers.Artifacts
