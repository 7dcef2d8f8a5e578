import Fridica.Workers.Fetch.Rules
import Fridica.Workers.Inputs.Proofs

/-!
# A job is told what is so

Whatever the store, Slack, the workspace and the fetch answer.
-/

open Fridica.Ask
open Fridica.Path (Text split)

namespace Fridica.Workers.Fetch

/-! ## Names of their own -/

section Names

open Inputs

theorem numbered_cases (base : Text) : (∀ n, numbered base n = base ++ '-' :: Nat.toDigits 10 n) ∨
    ∃ stem ext, stem ++ '.' :: ext ∈ split base ∧
      ∀ n, numbered base n = stem ++ '-' :: (Nat.toDigits 10 n ++ '.' :: ext) := by
  unfold numbered file_stem extension
  cases hfile : file_name base with
  | none => exact .inl fun n => rfl
  | some file =>
    cases hext : (rsplit_file_at_dot file).2 with
    | none => exact .inl fun n => by simp [hext]
    | some ext =>
      refine .inr ⟨(rsplit_file_at_dot file).1, ext, ?_, fun n => by simp [hext]⟩
      rw [← (rsplit_some hext).2.1]
      have hlast := (Option.filter_eq_some_iff.mp hfile).1
      exact (List.mem_filter.mp (List.mem_of_getLast? hlast)).1

theorem numbered_ne (base : Text) (n : ℕ) : numbered base n ≠ base := by
  rcases numbered_cases base with hend | ⟨stem, ext, hpart, hnumbered⟩
  · rw [hend]
    intro h
    have hlen := congrArg List.length h
    simp at hlen
  · rw [hnumbered]
    intro h
    have hslash := Path.not_mem_split base _ hpart
    have hbase : '/' ∉ base := by
      rw [← h]
      simp only [List.mem_append, List.mem_cons, not_or] at hslash ⊢
      exact ⟨hslash.1, by decide, Text.not_mem_toDigits rfl, by decide, hslash.2.2⟩
    rw [Path.split_part hbase, List.mem_singleton] at hpart
    have hlen := congrArg List.length (hpart.trans h.symm)
    simp at hlen
    omega

theorem candidates_differ (base : Text) (i j : ℕ) (h : candidate base i = candidate base j) :
    i = j := by
  unfold candidate at h
  split_ifs at h with hi hj hj
  · exact hi.trans hj.symm
  · exact absurd h.symm (numbered_ne base j)
  · exact absurd h (numbered_ne base i)
  · rcases numbered_cases base with hend | ⟨stem, ext, -, hnumbered⟩
    · rw [hend, hend] at h
      exact Text.toDigits_between (a := base) (b := []) (c := '-') (by simpa using h)
    · rw [hnumbered, hnumbered] at h
      exact Text.toDigits_between h

theorem names_step (files : List (Text × Text)) (fuel : ℕ) {out : List Text}
    (hfuel : out.length + files.length < fuel) (hout : out.Nodup) :
    ∃ more, files.foldlM (next_name fuel) out = some (out ++ more) ∧
      more.length = files.length ∧ (out ++ more).Nodup := by
  induction files generalizing out with
  | nil => exact ⟨[], by simp, rfl, by simpa using hout⟩
  | cons file files ih =>
    rw [List.length_cons] at hfuel
    have hroom : out.length < fuel := by omega
    obtain ⟨name, hname⟩ := Fresh.search_ends (candidates_differ (safe_name file.2 file.1)) hroom 1
    obtain ⟨_, -, rfl, hfree, -⟩ := Fresh.search_some hname
    have hnodup := hout.concat hfree
    rw [List.concat_eq_append] at hnodup
    obtain ⟨more, hmore, hlen, hall⟩ := ih (by simp; omega) hnodup
    refine ⟨_ :: more, ?_, by simp [hlen], by simpa using hall⟩
    rw [List.foldlM_cons, next_name, hname]
    simpa using hmore

theorem unique_spec (names : List (Text × Text)) :
    unique_names (names.length + 1) names = some (unique names) ∧
      (unique names).length = names.length ∧ (unique names).Nodup := by
  obtain ⟨out, hout, hlen, hnodup⟩ := names_step names (names.length + 1) (by simp) List.nodup_nil
  have hnames : unique_names (names.length + 1) names = some out := hout
  unfold unique
  rw [hnames]
  exact ⟨rfl, hlen, hnodup⟩

end Names

/-! ## One function at a time -/

section Functions

variable {o : Outside} {spec : WorkerSpec} {job : Job} {l : Trace} {rows : List Text}
  {done : List Input}

/-- The files so far are downloaded, and nothing is recorded. -/
structure Loading (o : Outside) (job : Job) (rows : List Text) (done : List Input)
    (l : Trace) : Prop where
  rows : ⟨.session_attachments job.session_id, some rows⟩ ∈ l
  downloaded : ∀ input ∈ done, Downloaded o l input
  unrecorded : l.records = []
  unfetched : l.intents = [] ∧ l.completions = []

theorem Loading.next (h : Loading o job rows done l) {e : Event Query Answer}
    (hrecorded : recorded e = none) (hbegan : began e = none) (hfinished : finished e = none) :
    Loading o job rows done (l ++ [e]) where
  rows := List.mem_append_left _ h.rows
  downloaded input hinput := (h.downloaded input hinput).append
  unrecorded := by simp [h.unrecorded, hrecorded]
  unfetched := by simp [h.unfetched, hbegan, hfinished]

theorem wp_computed {α : Type} {x : Except WorkerFailure α} {post : α → Trace → Prop}
    {err : WorkerFailure → Trace → Prop} (hok : ∀ a, x = .ok a → post a l)
    (herr : ∀ e, x = .error e → err e l) :
    wp (rules o spec job) (unit (pure x)) post err l := by
  rw [wp_unit, wp_pure]
  cases x with
  | ok a => exact hok a rfl
  | error e => exact herr e rfl

/-- What one file leaves: it is downloaded, or what is to be recorded is so. -/
def Saving (o : Outside) (job : Job) (rows : List Text) (done : List Input) (id name : Text)
    (size : Except Trouble ℕ) (l : Trace) : Prop :=
  match size with
  | .ok size => Loading o job rows (done ++ [⟨id, name, size⟩]) l
  | .error trouble => Loading o job rows done l ∧ 
    MayRecord o l ⟨done.map saved ++ [(id, name, .error trouble)], none⟩

theorem save_ok {id name : Text} {err : WorkerFailure → Trace → Prop}
    (h : Loading o job rows done l) (hid : id ∈ job.files) :
    wp (rules o spec job) (save o id name) (Saving o job rows done id name) err l := by
  unfold save
  rw [wp_bind, wp_ask]
  refine ⟨hid, ?_⟩
  intro (url : Except Trouble Text)
  have hresolved := h.next (e := ⟨.resolve id, url⟩) rfl rfl rfl
  match url with
  | .error trouble =>
    exact ⟨hresolved, .unresolved hresolved.downloaded List.getLast?_concat⟩
  | .ok url =>
    refine wp_ask.mpr ⟨⟨⟨id, List.getLast?_concat⟩, rfl⟩, ?_⟩
    intro (size : Except Trouble ℕ)
    have hsaved := hresolved.next (e := ⟨.save url name o.input_limit, size⟩) rfl rfl rfl
    match size with
    | .error trouble => exact ⟨hsaved, .unsaved hsaved.downloaded List.getLast?_concat⟩
    | .ok size =>
      refine ⟨hsaved.rows, fun input hinput => ?_, hsaved.unrecorded, hsaved.unfetched⟩
      rcases List.mem_append.mp hinput with hbefore | hlast
      · exact hsaved.downloaded input hbefore
      · rw [List.mem_singleton.mp hlast]
        exact ⟨url, List.mem_append_left _ (List.mem_append_right _ List.mem_cons_self),
          List.mem_append_right _ List.mem_cons_self⟩

theorem record_ok {files : Files} {post : Unit → Trace → Prop}
    (hunrecorded : l.records = []) (hunfetched : l.intents = [] ∧ l.completions = [])
    (hmay : MayRecord o l files)
    (hpost : Settled (l ++ [⟨.record files, true⟩]) → post () (l ++ [⟨.record files, true⟩])) :
    wp (rules o spec job) (record files) post (fun _ => Settled) l := by
  have hsettled : ∀ done : Bool, Settled (l ++ [⟨.record files, done⟩]) := fun done =>
    ⟨by simp [hunfetched, began, finished], fun _ => by simp [hunrecorded, recorded]⟩
  unfold record
  rw [wp_bind, wp_ask]
  refine ⟨⟨hunrecorded, hmay⟩, ?_⟩
  intro (done : Bool)
  rw [wp_deny]
  cases done with
  | false => exact ⟨fun _ => hsettled false, (nomatch ·)⟩
  | true => exact ⟨(nomatch ·), fun _ => hpost (hsettled true)⟩

theorem download_ok {files : List (Text × Text)} (h : Loading o job rows done l)
    (hfiles : ∀ file ∈ files, file.1 ∈ job.files) :
    wp (rules o spec job) (download o done files)
      (fun inputs t => Loading o job rows inputs t ∧
        inputs.map (fun input => (input.id, input.name)) =
          done.map (fun input => (input.id, input.name)) ++ files)
      (fun _ => Settled) l := by
  induction files generalizing done l with
  | nil => exact ⟨h, by simp⟩
  | cons file files ih =>
    rw [download, wp_bind]
    refine wp_mono (save_ok h (hfiles _ List.mem_cons_self)) (fun size t ht => ?_) fun _ _ => id
    match size, ht with
    | .ok size, ht =>
      refine wp_mono (ih ht fun file hfile => hfiles file (List.mem_cons_of_mem _ hfile))
        (fun inputs t hinputs => ⟨hinputs.1, ?_⟩) fun _ _ => id
      simpa using hinputs.2
    | .error trouble, ht =>
      refine wp_bind.mpr (record_ok ht.1.unrecorded ht.1.unfetched ht.2 fun hsettled => ?_)
      exact hsettled

/-- The files are ready, and the repository is not yet asked for. -/
def Stocked (o : Outside) (job : Job) (told : Text) (l : Trace) : Prop :=
  FilesReady o job l told ∧ Settled l ∧ l.intents = []

theorem place_ok {inputs : List Input} (h : Loading o job rows inputs l)
    (hmay : MayPlace o job l inputs) :
    wp (rules o spec job) (place inputs) (Stocked o job) (fun _ => Settled) l := by
  unfold place
  rw [wp_bind, wp_ask]
  refine ⟨hmay, ?_⟩
  intro (placed : Except WorkerFailure (List Placed))
  have hplaced := h.next (e := ⟨.place inputs, placed⟩) rfl rfl rfl
  rw [wp_bind]
  refine record_ok hplaced.unrecorded hplaced.unfetched (.placed List.getLast?_concat)
    fun hsettled => ?_
  rw [wp_bind]
  refine wp_computed (fun landed hlanded => ⟨.inr ⟨inputs, landed, ?_⟩, hsettled, ?_⟩)
    fun _ _ => hsettled
  · subst hlanded
    exact ⟨hmay.append.append, by simp [Protocol.history], by simp [Except.toOption], rfl⟩
  · rw [intents_append]
    exact (List.append_nil _).trans hplaced.unfetched.1

theorem wanted_length : (wanted o rows job).length = job.files.length := by simp [wanted]

theorem committed_ok {α : Type} {code : String} {answer : Option α} {a : α}
    (h : committed code answer = .ok a) : answer = some a := by
  cases answer with
  | none => cases h
  | some _ => exact congrArg some (Except.ok.inj h)

theorem files_ok {downloads : Bool} :
    wp (rules o spec job) (files o downloads job) (Stocked o job) (fun _ => Settled) [] := by
  have hnil : Settled [] := ⟨rfl, (nomatch ·)⟩
  unfold files
  rw [wp_ite]
  refine ⟨fun hempty => ⟨.inl ⟨List.isEmpty_iff.mp hempty, rfl⟩, hnil, rfl⟩, fun _ => ?_⟩
  rw [wp_bind, wp_deny]
  refine ⟨fun _ => hnil, fun _ => ?_⟩
  rw [wp_bind, wp_ask]
  refine ⟨rfl, ?_⟩
  intro (answered : Option (List Text))
  have hasked : Settled [⟨.session_attachments job.session_id, answered⟩] :=
    ⟨rfl, (nomatch ·)⟩
  rw [wp_bind]
  refine wp_computed (fun rows hrows => ?_) fun _ _ => hasked
  obtain rfl := committed_ok hrows
  have hloading : Loading o job rows [] [⟨.session_attachments job.session_id, some rows⟩] :=
    ⟨List.mem_cons_self, by simp, rfl, rfl, rfl⟩
  dsimp only
  rw [wp_bind, wp_deny]
  refine ⟨fun _ => hasked, fun hnames => ?_⟩
  rw [wp_bind, wp_ask]
  refine ⟨trivial, ?_⟩
  intro (directory : Bool)
  have hopened := hloading.next (e := ⟨.tempdir, directory⟩) rfl rfl rfl
  rw [wp_bind, wp_deny]
  refine ⟨fun _ => ⟨rfl, (nomatch ·)⟩, fun _ => ?_⟩
  rw [wp_bind]
  obtain ⟨-, hlen, hdistinct⟩ := unique_spec (wanted o rows job)
  rw [wanted_length] at hlen
  refine wp_mono (download_ok hopened fun file hfile => List.of_mem_zip hfile |>.1)
    (fun inputs t hinputs => ?_) fun _ _ => id
  obtain ⟨hloaded, hpairs⟩ := hinputs
  rw [List.map_nil, List.nil_append] at hpairs
  have hids : inputs.map Input.id = job.files := by
    have hfst := congrArg (List.map Prod.fst) hpairs
    rwa [List.map_map, List.map_fst_zip hlen.ge] at hfst
  have hunique : inputs.map Input.name = unique (wanted o rows job) := by
    have hsnd := congrArg (List.map Prod.snd) hpairs
    rwa [List.map_map, List.map_snd_zip hlen.le] at hsnd
  refine place_ok hloaded ⟨hids, ⟨rows, hloaded.rows, hunique, ?_⟩, ?_, hloaded.downloaded⟩
  · intro file hfile hempty
    have hany := List.any_eq_false.mp hnames file hfile
    exact hany (by rw [hempty]; rfl)
  · rw [hunique]
    exact hdistinct

theorem judged_ok {intent : Request} {answer : Option (Except String Fetched)} {fetched : Fetched}
    (h : judged intent answer = .ok fetched) :
    answer = some (.ok fetched) ∧ fetched.valid intent = true := by
  match answer with
  | none => cases h
  | some (.error _) => cases h
  | some (.ok f) =>
    rw [judged] at h
    split at h
    · next hvalid =>
      cases h
      exact ⟨rfl, hvalid⟩
    · cases h

section Begun

variable (intent : Request) (seq : ℤ) (answer : Option (Except String Fetched))

theorem fetch_open (hsettled : Settled l) (hintents : Trace.intents l = []) :
    Trace.intents (l ++ [⟨.begin_fetch intent, some (some seq)⟩] ++ [⟨.fetch intent, answer⟩]) =
        [seq] ∧
      Trace.completions (l ++ [⟨.begin_fetch intent, some (some seq)⟩] ++
        [⟨.fetch intent, answer⟩]) = [] := by
  have hcompletions : l.completions = [] := hsettled.completed.trans hintents
  constructor
  · rw [intents_append, intents_append, hintents]
    rfl
  · rw [completions_append, completions_append, hcompletions]
    rfl

theorem settled_finish (hsettled : Settled l) (hintents : Trace.intents l = [])
    (active : Option Bool) :
    Settled (l ++ [⟨.begin_fetch intent, some (some seq)⟩] ++ [⟨.fetch intent, answer⟩] ++
      [⟨.finish_fetch seq (judged intent answer), active⟩]) := by
  obtain ⟨hbegun, hopen⟩ := fetch_open intent seq answer hsettled hintents
  constructor
  · rw [completions_append, intents_append, hopen, hbegun]
    rfl
  · simpa only [downloads_append, records_append, resolved, recorded, Bool.or_false,
      Option.toList_none, List.append_nil] using hsettled.recorded

end Begun

/-- Every fetch that began was judged and completed. -/
theorem run_ok {intent : Request} {told : Text} (h : Stocked o job told l)
    (hintent : request o spec job = .ok intent) :
    wp (rules o spec job) (run intent job)
      (fun rest t => FilesReady o job t told ∧ Settled t ∧ FetchReady o spec job t rest)
      (fun _ => Settled) l := by
  obtain ⟨hfiles, hsettled, hintents⟩ := h
  unfold run
  rw [wp_bind, wp_ask]
  refine ⟨⟨hintent, ⟨told, hfiles⟩, hintents⟩, ?_⟩
  intro (answered : Option (Option ℤ))
  have hidle : ∀ a : Option (Option ℤ), began ⟨.begin_fetch intent, a⟩ = none →
      Settled (l ++ [⟨.begin_fetch intent, a⟩]) := fun a ha =>
    ⟨by simp [ha, finished, hsettled.completed],
      by simpa [recorded, resolved] using hsettled.recorded⟩
  rw [wp_bind]
  refine wp_computed (fun seq hseq => ?_) fun _ hnone => ?_
  rotate_left
  · cases answered with
    | none => exact hidle none rfl
    | some _ => cases hnone
  obtain rfl := committed_ok hseq
  rw [wp_bind]
  cases seq with
  | none => exact wp_computed (fun _ h => nomatch h) fun _ _ => hidle (some none) rfl
  | some seq =>
    refine wp_computed (fun _ h => ?_) fun _ h => nomatch h
    cases h
    rw [wp_bind, wp_ask]
    refine ⟨⟨seq, List.getLast?_concat⟩, ?_⟩
    intro (answer : Option (Except String Fetched))
    dsimp only
    rw [wp_bind, wp_ask]
    obtain ⟨hbegun, hopen⟩ := fetch_open intent seq answer hsettled hintents
    refine ⟨⟨hbegun, hopen, intent, answer, List.getLast?_concat, rfl⟩, ?_⟩
    intro (active : Option Bool)
    have hdone := settled_finish intent seq answer hsettled hintents active
    rw [wp_bind]
    refine wp_computed (fun active hactive => ?_) fun _ _ => hdone
    rw [wp_bind, wp_deny]
    refine ⟨fun _ => hdone, fun hactive' => ?_⟩
    rw [wp_bind]
    refine wp_computed (fun fetched hfetched => ?_) fun _ _ => hdone
    obtain ⟨rfl, hvalid⟩ := judged_ok hfetched
    have htrue : active = true := by simpa using hactive'
    cases htrue
    have hcommitted := committed_ok hactive
    cases hcommitted
    rw [hfetched]
    refine ⟨hfiles.append.append.append, hfetched ▸ hdone, .inr ⟨intent, seq, fetched, hintent, ?_,
      ?_, hvalid, ?_, rfl⟩⟩
    all_goals simp [Protocol.history]

theorem fetch_ok {told : Text} (h : Stocked o job told l) :
    wp (rules o spec job) (fetch o spec job)
      (fun rest t => FilesReady o job t told ∧ Settled t ∧ FetchReady o spec job t rest)
      (fun _ => Settled) l := by
  unfold fetch
  rw [wp_ite]
  refine ⟨fun hrepo => ?_, fun _ => ?_⟩
  · rw [wp_bind, wp_deny]
    refine ⟨fun _ => h.2.1, fun href => ?_⟩
    rw [wp_bind, wp_ask]
    have hrepo : job.fetch_repo = [] := List.isEmpty_iff.mp hrepo
    refine ⟨⟨hrepo, List.isEmpty_iff.mp (by simpa using href), told, h.1⟩, ?_⟩
    intro (prepared : Except WorkerFailure Text)
    have hsettled : Settled (l ++ [⟨.prepare, prepared⟩]) :=
      ⟨by simpa [began, finished] using h.2.1.completed,
        by simpa [recorded, resolved] using h.2.1.recorded⟩
    refine wp_computed (fun rest hrest => ?_) fun _ _ => hsettled
    subst hrest
    exact ⟨h.1.append, hsettled, .inl ⟨hrepo, by simp [Protocol.history]⟩⟩
  · rw [wp_bind]
    exact wp_computed (fun intent hintent => run_ok h hintent) fun _ _ => h.2.1

/-- What a job is told is its layout, its files and its repository, each so. -/
def Prepared (o : Outside) (spec : WorkerSpec) (job : Job) (brief : Text) (l : Trace) : Prop :=
  ∃ told rest, brief = layout spec ++ told ++ rest ∧ FilesReady o job l told ∧
    FetchReady o spec job l rest

theorem prepare_ok {downloads : Bool} :
    wp (rules o spec job) (prepare o downloads spec job)
      (fun brief t => Prepared o spec job brief t ∧ Settled t) (fun _ => Settled) [] := by
  unfold prepare
  rw [wp_bind]
  refine wp_mono files_ok (fun told t ht => ?_) fun _ _ => id
  rw [wp_bind]
  exact wp_mono (fetch_ok ht) (fun rest t hrest => ⟨⟨told, rest, rfl, hrest.1, hrest.2.2⟩,
    hrest.2.1⟩) fun _ _ => id

end Functions

def outside : Outside where
  validate _ := true
  fetch_grant _ repo := some repo
  valid_fetch_ref _ := true
  github_repo _ := true
  from_str _ := some [.object [("id", .string "F1"), ("name", .string "a b.csv")]]
  input_limit := 1000

def worker : WorkerSpec where
  machine := ⟨Loader.text "box", Loader.text "ssh", Loader.text "box", []⟩
  workspace := ⟨Loader.text "w", Loader.text "/work/worker1", Loader.text "write"⟩
  subfolders := true
  gpu_confine := none
  slot := 1
  excluded_env := []
  worker_id := Loader.text "w-1"
  network := []
  approvals := []
  auto_approve := []

def job : Job := ⟨Loader.text "j1", 2, Loader.text "w-1", Loader.text "s",
  Loader.text "owner/project", Loader.text "main", [Loader.text "F1"]⟩

def answers (_ : Trace) : (q : Query) → Answer q
  | .session_attachments _ => some [[]]
  | .tempdir => true
  | .resolve _ => .ok []
  | .save _ _ _ => .ok 12
  | .place inputs => .ok (inputs.map fun input => ⟨input.id, input.name, input.name, input.size⟩)
  | .record _ => true
  | .begin_fetch _ => some (some 7)
  | .fetch intent => some (.ok ⟨intent.path, List.replicate 40 'a'⟩)
  | .finish_fetch _ _ => some true
  | .prepare => .ok []

end Fridica.Workers.Fetch
