import Fridica.Workers.Fetch.Spec

/-!
# The rules of a preparation

What may be asked while a job is prepared, after what was asked and answered before.
-/

open Fridica.Ask
open Fridica.Path (Text)

namespace Fridica.Workers.Fetch

abbrev Trace := List (Event Query Answer)

/-! ## What a run shows -/

def began : Event Query Answer → Option ℤ
  | ⟨.begin_fetch _, some (some seq)⟩ => some seq
  | _ => none

def finished : Event Query Answer → Option ℤ
  | ⟨.finish_fetch seq _, _⟩ => some seq
  | _ => none

def recorded : Event Query Answer → Option Files
  | ⟨.record files, _⟩ => some files
  | _ => none

/-- Slack is asked for a file. -/
def resolved : Event Query Answer → Bool
  | ⟨.resolve _, _⟩ => true
  | _ => false

namespace Trace

variable (l : Trace)

/-- The intents of fetches that are in the store. -/
def intents : List ℤ := l.filterMap began

def completions : List ℤ := l.filterMap finished

def records : List Files := l.filterMap recorded

def downloads : Bool := l.any resolved

end Trace

/-! ## The rules -/

section Rules

variable (o : Outside) (spec : WorkerSpec) (job : Job)

/-- All of the file was read, under the limit. -/
def Downloaded (l : Trace) (input : Input) : Prop :=
  ∃ url, ⟨.resolve input.id, .ok url⟩ ∈ l ∧
    ⟨.save url input.name o.input_limit, .ok input.size⟩ ∈ l

/-- The files of the job under names of their own, each attached to its session. -/
structure MayPlace (l : Trace) (inputs : List Input) : Prop where
  ids : inputs.map Input.id = job.files
  names : ∃ rows, ⟨.session_attachments job.session_id, some rows⟩ ∈ l ∧
    inputs.map Input.name = unique (wanted o rows job) ∧ ∀ file ∈ wanted o rows job, file.2 ≠ []
  distinct : (inputs.map Input.name).Nodup
  downloaded : ∀ input ∈ inputs, Downloaded o l input

/-- What is told of the files is so. -/
def FilesReady (l : Trace) (told : Text) : Prop :=
  job.files = [] ∧ told = [] ∨
    ∃ inputs placed, MayPlace o job l inputs ∧ ⟨.place inputs, .ok placed⟩ ∈ l ∧
      ⟨.record ⟨inputs.map saved, some placed⟩, true⟩ ∈ l ∧ told = files_context placed

/-- What the store is told of the files is what became of them. -/
inductive MayRecord (l : Trace) : Files → Prop
  | placed {inputs : List Input} {placed : Except WorkerFailure (List Placed)} :
    l.getLast? = some ⟨.place inputs, placed⟩ →
    MayRecord l ⟨inputs.map saved, placed.toOption⟩
  | unresolved {inputs : List Input} {id name : Text} {trouble : Trouble} :
    (∀ input ∈ inputs, Downloaded o l input) →
    l.getLast? = some ⟨.resolve id, .error trouble⟩ →
    MayRecord l ⟨inputs.map saved ++ [(id, name, .error trouble)], none⟩
  | unsaved {inputs : List Input} {id name url : Text} {trouble : Trouble} :
    (∀ input ∈ inputs, Downloaded o l input) →
    l.getLast? = some ⟨.save url name o.input_limit, .error trouble⟩ →
    MayRecord l ⟨inputs.map saved ++ [(id, name, .error trouble)], none⟩

/-- What may be asked after `l`. -/
def InOrder (l : Trace) : Query → Prop
  | .session_attachments session => session = job.session_id
  | .tempdir => True
  | .resolve id => id ∈ job.files
  | .save url _ limit => (∃ id, l.getLast? = some ⟨.resolve id, .ok url⟩) ∧ limit = o.input_limit
  | .place inputs => MayPlace o job l inputs
  | .record files => l.records = [] ∧ MayRecord o l files
  | .begin_fetch intent => request o spec job = .ok intent ∧ (∃ told, FilesReady o job l told) ∧
    l.intents = []
  | .fetch intent => ∃ seq, l.getLast? = some ⟨.begin_fetch intent, some (some seq)⟩
  | .finish_fetch seq result => l.intents = [seq] ∧ l.completions = [] ∧
    ∃ intent answer, l.getLast? = some ⟨.fetch intent, answer⟩ ∧ result = judged intent answer
  | .prepare => job.fetch_repo = [] ∧ job.fetch_ref = [] ∧ ∃ told, FilesReady o job l told

abbrev rules : Protocol Query Answer Trace := Protocol.history (InOrder o spec job)

/-- What is told of the repository is so. -/
def FetchReady (l : Trace) (told : Text) : Prop :=
  job.fetch_repo = [] ∧ ⟨.prepare, .ok told⟩ ∈ l ∨
    ∃ intent seq fetched, request o spec job = .ok intent ∧
      ⟨.begin_fetch intent, some (some seq)⟩ ∈ l ∧ ⟨.fetch intent, some (.ok fetched)⟩ ∈ l ∧
      fetched.valid intent = true ∧ ⟨.finish_fetch seq (.ok fetched), some true⟩ ∈ l ∧
      told = context job fetched

/-- Every intent was completed, and what was downloaded was recorded. -/
structure Settled (l : Trace) : Prop where
  completed : l.completions = l.intents
  recorded : l.downloads = true → l.records.length = 1

end Rules

/-! ## Growing traces -/

section Growing

variable {l : Trace} {e : Event Query Answer}

@[simp] theorem intents_append : Trace.intents (l ++ [e]) = l.intents ++ (began e).toList := by
  unfold Trace.intents
  rw [List.filterMap_append]
  cases h : began e <;> simp [h]

@[simp] theorem completions_append :
    Trace.completions (l ++ [e]) = l.completions ++ (finished e).toList := by
  unfold Trace.completions
  rw [List.filterMap_append]
  cases h : finished e <;> simp [h]

@[simp] theorem records_append : Trace.records (l ++ [e]) = l.records ++ (recorded e).toList := by
  unfold Trace.records
  rw [List.filterMap_append]
  cases h : recorded e <;> simp [h]

@[simp] theorem downloads_append : Trace.downloads (l ++ [e]) = (l.downloads || resolved e) := by
  simp [Trace.downloads]

variable {o : Outside} {job : Job}

theorem Downloaded.append {input : Input} (h : Downloaded o l input) :
    Downloaded o (l ++ [e]) input := by
  obtain ⟨url, hresolve, hsave⟩ := h
  exact ⟨url, List.mem_append_left _ hresolve, List.mem_append_left _ hsave⟩

theorem MayPlace.append {inputs : List Input} (h : MayPlace o job l inputs) :
    MayPlace o job (l ++ [e]) inputs where
  ids := h.ids
  names := by
    obtain ⟨rows, hrows, hnames⟩ := h.names
    exact ⟨rows, List.mem_append_left _ hrows, hnames⟩
  distinct := h.distinct
  downloaded input hinput := (h.downloaded input hinput).append

theorem FilesReady.append {told : Text} (h : FilesReady o job l told) :
    FilesReady o job (l ++ [e]) told := by
  rcases h with hnone | ⟨inputs, placed, hmay, hplace, hrecord, htold⟩
  · exact .inl hnone
  · exact .inr ⟨inputs, placed, hmay.append, List.mem_append_left _ hplace,
      List.mem_append_left _ hrecord, htold⟩

end Growing

end Fridica.Workers.Fetch
