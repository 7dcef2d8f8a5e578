import Fridica.Control.Api.Proofs
import Fridica.Control.Server.Spec

/-!
# What reaches the daemon over the socket
-/

open Fridica.Ask
open Fridica.Json (Value)
open Fridica.Threads.Controls (Authority)

namespace Fridica.Control.Server

open Fridica.Control.Api

/-! ## Credentials -/

/-- The headers carry what gives the owner's authority, a registered secret of the owner or, where
the socket itself is the credential, nothing. -/
def Owned (f : Formats) (access : Access) (headers : List (Option String)) : Prop :=
  match access with
  | .owner_peer => headers = []
  | .capabilities values => ∃ token, headers = [some ("Bearer " ++ token)] ∧ token_ok token = true ∧
    (f.digest token, .owner) ∈ values

variable {f : Formats} {access : Access} {headers : List (Option String)}

theorem strip_prefix_some {start s rest : String} (h : strip_prefix start s = some rest) :
    s = start ++ rest := by
  unfold strip_prefix at h
  split at h
  · next hprefix =>
    obtain ⟨t, ht⟩ := List.isPrefixOf_iff_prefix.mp hprefix
    obtain rfl := Option.some.inj h
    rw [← String.toList_inj, String.toList_append, String.toList_ofList, ← ht,
      ← String.length_toList, List.drop_left]
  · cases h

theorem owned_of_authority (h : access.authority f headers = some .owner) :
    Owned f access headers := by
  unfold Access.authority at h
  split at h
  · cases h
  next hcount =>
  cases access with
  | owner_peer =>
    dsimp only at h
    split at h
    · next hempty => exact List.isEmpty_iff.mp hempty
    · cases h
  | capabilities values =>
    obtain ⟨header, hheader, htaken⟩ := Option.bind_eq_some_iff.mp h
    obtain ⟨token, htoken, hlookup⟩ := Option.bind_eq_some_iff.mp htaken
    obtain ⟨hbearer, hok⟩ := Option.filter_eq_some_iff.mp htoken
    obtain ⟨value, rfl, hvalue⟩ := Option.bind_eq_some_iff.mp hbearer
    obtain rfl := strip_prefix_some hvalue
    refine ⟨token, ?_, hok, ?_⟩
    · match headers, hheader, hcount with
      | [_], hheader, _ => rw [Option.some.inj hheader]
      | _ :: _ :: _, _, hcount => simp at hcount
    · obtain ⟨before, after, hvalues, -⟩ := List.lookup_eq_some_iff.mp hlookup
      exact List.mem_reverse.mp (hvalues ▸ by simp)

/-! ## Runs of the server -/

/-- A request that the checks before the API let through. -/
structure Passes (f : Formats) (access : Access) (r : HttpRequest) (authority : Authority)
    (body : Value) : Prop where
  origin : r.absolute = false ∧ r.origin = false
  granted : access.authority f r.authorization = some authority
  body : body_of f r.body = .ok body
  read_only : authority = .desktop_read_only → r.method = "GET"

variable {o : Outside} {r : HttpRequest} {l : Trace} {answer : Except Response Response}

theorem run_refuse_if {c : Bool} {status : Nat} {code : String} {k : Unit → Act Response}
    (h : Run (refuse_if c status code >>= k).run l answer) :
    l = [] ∨ c = false ∧ Run (k ()).run l answer := by
  cases c with
  | true =>
    left
    cases h
    rfl
  | false => exact .inr ⟨rfl, h⟩

theorem run_serve (h : Run (serve f o access r).run l answer) :
    l = [] ∨ ∃ authority body, Passes f access r authority body ∧
      Run (handle o ⟨r.method, r.target, body⟩ authority).run l answer := by
  unfold serve at h
  obtain hl | ⟨horigin, h⟩ := run_refuse_if h
  · exact .inl hl
  split at h
  · left
    cases h
    rfl
  next authority hauthority =>
  obtain hl | ⟨hread, h⟩ := run_refuse_if h
  · exact .inl hl
  obtain hl | ⟨-, h⟩ := run_refuse_if h
  · exact .inl hl
  split at h
  · left
    cases h
    rfl
  next body hbody =>
  obtain hl | ⟨-, h⟩ := run_refuse_if h
  · exact .inl hl
  refine .inr ⟨authority, body, ⟨by simpa using horigin, hauthority, hbody, ?_⟩, h⟩
  intro hauthority
  by_contra hmethod
  simp [hauthority, hmethod] at hread

/-- What the API did with a request that it was given as the owner's. -/
structure ByOwner (f : Formats) (o : Outside) (access : Access) (r : HttpRequest) (past : Trace)
    (op : Operation) (by_ : Authority) : Prop where
  owned : Owned f access r.authorization
  by_owner : by_ = .owner
  relative : r.absolute = false
  no_origin : r.origin = false
  named : ∃ body call parts, body_of f r.body = .ok body ∧
    Routing o ⟨r.method, r.target, body⟩ past call parts ∧
    Names o past ⟨r.method, r.target, body⟩ parts op

theorem serve_changes (hrun : Run (serve f o access r).run l answer) : l.changes.length ≤ 1 := by
  obtain rfl | ⟨authority, body, -, hrun⟩ := run_serve hrun
  · exact Nat.zero_le _
  · exact run_changes hrun

theorem serve_by_owner (hrun : Run (serve f o access r).run l answer) {past rest : Trace}
    {op : Operation} {by_ : Authority} {outcome : Answer (.operate op by_)}
    (hl : l = past ++ ⟨.operate op by_, outcome⟩ :: rest) : ByOwner f o access r past op by_ := by
  obtain rfl | ⟨authority, body, hpasses, hrun⟩ := run_serve hrun
  · simp at hl
  obtain ⟨rfl, hby, call, parts, hrouting, hnames⟩ := run_in_order hrun hl
  exact ⟨owned_of_authority hpasses.granted, hby, hpasses.origin.1, hpasses.origin.2, body, call,
    parts, hpasses.body, hrouting, hnames⟩

theorem serve_answered (hrun : Run (serve f o access r).run l answer) (hl : l ≠ []) :
    Ends (fun response t => Answered t response) (fun response t => Answered t response)
      answer l := by
  obtain rfl | ⟨authority, body, -, hrun⟩ := run_serve hrun
  · exact absurd rfl hl
  · exact run_answered hrun

/-- Whatever a request changes, it changes one thing, with the owner's credential, not from a web
page, after it was recorded, and what its path and body name. What it is answered was recorded, or
it is said that recording it failed. -/
theorem operations_owned (hrun : Run (serve f o access r).run l answer) :
    l.changes.length ≤ 1 ∧
    (∀ past op by_ outcome rest, l = past ++ ⟨.operate op by_, outcome⟩ :: rest →
      ByOwner f o access r past op by_) ∧
    (l ≠ [] → Ends (fun response t => Answered t response)
      (fun response t => Answered t response) answer l) :=
  ⟨serve_changes hrun, fun _ _ _ _ _ hl => serve_by_owner hrun hl, serve_answered hrun⟩

/-! ## A post retried over the owner's socket -/

def formats : Formats := ⟨fun _ => none, fun _ => [], id⟩

def outside : Outside where
  query_pairs _ := some []
  valid_patch _ _ := false
  files := ⟨0, fun _ => ""⟩
  file_reader := false
  sha256 _ := ""
  hex _ := ""

def retry : HttpRequest where
  absolute := false
  origin := false
  authorization := []
  method := "POST"
  target := Target.bytes "/outbox/7/retry"
  body := .complete []
  busy := false

def unknown : Failure := ⟨false, true, "unknown"⟩

/-- Everything is recorded, the post is queued again, and nothing else is known. -/
def replies (_ : Trace) : (q : Query) → Answer q
  | .now => some 0
  | .control_request _ _ _ => .ok 1
  | .control_response _ _ _ => .ok ()
  | .look lookup => match lookup with
    | .processes => .null
    | .configuration_editable => false
    | .resolve _ => .ok none
    | .view _ _ _ => .ok none
    | .events _ _ => .error unknown
    | .thread_files _ => .ok none
    | .attachment _ => .ok none
    | .download _ _ => .error .timeout
    | .latest_thread _ => .error unknown
    | .thread_name _ => .error unknown
    | .thread_exists _ | .thread_worker _ _ | .approval_exists _ => .ok false
    | .worker_record _ => .error unknown
  | .operate op _ => match op with
    | .retry_post _ => .ok true
    | .close_obligation _ _ | .control _ _ | .revive_thread _ | .decide _ _ => .error unknown
    | .backfill _ | .worker_control _ _ | .instruct _ _ _ | .delegate _ _ => .error unknown
    | .post _ _ | .set_thread_driver _ _ | .write_owner_notes _ _ _ => .error unknown
    | .update_configuration _ _ => .error .refused

def retried : Trace × Except Response Response :=
  play replies [] (serve formats outside .owner_peer retry).run

theorem operations_owned_retried : retried.1.changes.length = 1 ∧
    ∀ past op by_ outcome rest, retried.1 = past ++ ⟨.operate op by_, outcome⟩ :: rest →
      Owned formats .owner_peer retry.authorization :=
  ⟨by decide +kernel, fun past op by_ outcome rest hl =>
    ((operations_owned (play_run _ _ _)).2.1 past op by_ outcome rest hl).owned⟩

end Fridica.Control.Server
