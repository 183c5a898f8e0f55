import LintLocator.Proofs.Run.Endings
import LintLocator.Proofs.Text.Splitting
import Mathlib.Data.List.Forall2

/-!
# What a run hears

What a run should ask of the linters, and what it should hear from them, can be said without jobs
that are done, reports and failures.  An `Inquiry` is a question to a linter, the inquiries of some
settings follow from the files that match the patterns, and `Answered` says that the linters answer
them in turn and what they find.  A run comes to a number exactly when it hears everything and tells
all that has a place.

* `Finding`, `Finding.Tells`: a message, and the diagnostic that it amounts to;
* `Settings.inquiries`, `Answered`, `RunOptions.Hears`: what the linters are to be asked, and all
  that they find;
* `answered_iff_collect`, `filterMap_verdict?_eq_iff`: collecting reports is hearing, and telling
  leaves no delimited message out;
* `completes_iff_answered`, `run_eq_ok_iff`, `run_eq_zero_iff`: the same for batches and for runs.
-/

namespace LintLocator

/-! ## What is asked and heard -/

/-- A message of a linter about a file, and the delimiter that is looked for in it. -/
structure Finding where
  filename : String
  delimiter : String
  message : String
  deriving DecidableEq, Repr, Inhabited

namespace Finding

/-- The delimiter occurs in the message, so the message says where it belongs. -/
def IsDelimited (f : Finding) : Prop := f.delimiter.toList <:+: f.message.toList

instance : DecidablePred IsDelimited := fun f =>
  inferInstanceAs (Decidable (f.delimiter.toList <:+: f.message.toList))

/-- The diagnostic has the text of the message, and the position is where its fragment leads. -/
def Tells (s : Surroundings) (f : Finding) (d : Diagnostic) : Prop :=
  ∃ fragment, RunOptions.splitMessage f.delimiter f.message = some (fragment, d.message) ∧
    (Document.resolve s.files (s.pathOf f.filename) ("$." ++ fragment)).result = .ok d.position ∧
    d.file = f.filename

end Finding

/-- What a linter is asked: conftest about the files that match a pattern, and kubeval about one
file. -/
inductive Inquiry where
  | conftest (job : ConftestJob) (pattern : String) (files : List String)
  | kubeval (job : KubevalJob) (file : String)
  deriving DecidableEq, Repr

namespace Inquiry

/-- The call in which it is asked. -/
def call : Inquiry → LinterCall
  | conftest job _ files => ⟨.conftest, job.arguments files⟩
  | kubeval job file => ⟨.kubeval, job.arguments file⟩

/-- The delimiter in the messages of the linter. -/
def delimiter (o : RunOptions) : Inquiry → String
  | conftest .. => o.delimiter
  | kubeval .. => defaultDelimiter

/-- What the linter says in its output, if this can be understood: conftest's failures, and its
warnings if they count, and kubeval's errors. -/
def findings? (o : RunOptions) : Inquiry → (output : List UInt8) → Option (List Finding)
  | conftest job _ _, output =>
    (ConftestResult.readAll? output).map fun results => results.flatMap fun r =>
      (r.failures ++ if job.failOnWarn then r.warnings else []).map
        fun message => ⟨r.filename, o.delimiter, message⟩
  | kubeval _ file, output =>
    (KubevalResult.readAll? output).map fun results => results.flatMap fun r =>
      r.errors.map fun message => ⟨file, defaultDelimiter, message⟩

end Inquiry

/-- The files that match a pattern; none if it cannot be searched for. -/
def Surroundings.matching (s : Surroundings) (pattern : String) : List String :=
  (Glob.expand s.files s.folder pattern).toOption.getD []

/-- What is asked about a pattern: nothing if no file matches it. -/
def ConftestJob.inquiries (job : ConftestJob) (s : Surroundings) (pattern : String) :
    List Inquiry :=
  match s.matching pattern with
  | [] => []
  | files => [.conftest job pattern files]

def KubevalJob.inquiries (job : KubevalJob) (s : Surroundings) (pattern : String) :
    List Inquiry :=
  (s.matching pattern).map (.kubeval job)

namespace Settings

/-- All patterns of all jobs. -/
def patterns (settings : Settings) : List String :=
  settings.conftest.flatMap ConftestJob.files ++ settings.kubeval.flatMap KubevalJob.files

/-- All that the jobs want to know, job by job. -/
def inquiriesByJob (settings : Settings) (s : Surroundings) : List (List Inquiry) :=
  settings.conftest.map (fun job => job.files.flatMap (job.inquiries s)) ++
    settings.kubeval.map fun job => job.files.flatMap (job.inquiries s)

/-- All that the jobs want to know, in the order in which it is asked. -/
def inquiries (settings : Settings) (s : Surroundings) : List Inquiry :=
  (settings.inquiriesByJob s).flatten

end Settings

/-- The linters are there and answer in turn, each knowing of the calls before, and these are the
findings in their outputs. -/
inductive Answered (o : RunOptions) (s : Surroundings) :
    List LinterCall → List Inquiry → List Finding → Prop where
  | nil (before : List LinterCall) : Answered o s before [] []
  | cons {before : List LinterCall} {i : Inquiry} {is : List Inquiry} {output : LinterOutput}
      {here later : List Finding} (started : s.answer before i.call = some output)
      (understood : i.findings? o output.stdout = some here)
      (rest : Answered o s (before ++ [i.call]) is later) :
      Answered o s before (i :: is) (here ++ later)

/-- The settings can be read, every pattern can be searched for, and the linters answer everything:
these are all of their findings. -/
def RunOptions.Hears (o : RunOptions) (s : Surroundings) (findings : List Finding) : Prop :=
  ∃ settings, Settings.load s.files (s.pathOf o.settingsFile) = .ok settings ∧
    (∀ pattern ∈ settings.patterns, ∃ files, Glob.expand s.files s.folder pattern = .ok files) ∧
    Answered o s [] (settings.inquiries s) findings

/-! ## Answers and checks -/

/-- The messages of some reports. -/
def findingsOf (delimiter : String) (reports : List Report) : List Finding :=
  reports.flatMap fun r => r.messages.map fun message => ⟨r.filename, delimiter, message⟩

theorem findingsOf_append (delimiter : String) (rs rs' : List Report) :
    findingsOf delimiter (rs ++ rs') = findingsOf delimiter rs ++ findingsOf delimiter rs' :=
  List.flatMap_append

/-- Where every record that is read becomes a report, the findings are the messages in the
records. -/
theorem findings_of_records {α : Type} (report : α → Report) {records : Option (List α)}
    {decoded : Except Failure (List Report)} {delimiter : String} {findings : List Finding}
    (hsome : ∀ rs, records = some rs → decoded = .ok (rs.map report))
    (hnone : records = none → ∃ f, decoded = .error f) :
    (records.map fun rs => rs.flatMap fun r =>
        (report r).messages.map fun message => ⟨(report r).filename, delimiter, message⟩) =
        some findings ↔
      ∃ reports, decoded = .ok reports ∧ findingsOf delimiter reports = findings := by
  cases hrecords : records with
  | none =>
    obtain ⟨f, hf⟩ := hnone hrecords
    simp [hf]
  | some rs =>
    simp only [hsome rs hrecords, Option.map_some, Option.some_inj, Except.ok.injEq,
      exists_eq_left', findingsOf, List.flatMap_map]

namespace Inquiry

/-- The check in which it is asked. -/
def check : Inquiry → Check
  | conftest job pattern files => job.checkOf pattern files
  | kubeval job file => job.checkOf file

@[simp] theorem call_check (i : Inquiry) : i.check.call = i.call := by cases i <;> rfl

/-- A check understands what can be understood, and its reports hold the findings. -/
theorem findings?_eq_some_iff {o : RunOptions} {i : Inquiry} {output : List UInt8}
    {findings : List Finding} :
    i.findings? o output = some findings ↔
      ∃ reports, i.check.decode output = .ok reports ∧
        findingsOf (i.delimiter o) reports = findings := by
  cases i with
  | conftest job pattern files =>
    refine findings_of_records (ConftestResult.report job.failOnWarn)
      (fun rs h => ?_) fun h => ?_
    · simp only [check, ConftestJob.checkOf, Lint.conftestReports, h]
      rfl
    · simp only [check, ConftestJob.checkOf, Lint.conftestReports, h]
      exact ⟨_, rfl⟩
  | kubeval job file =>
    refine findings_of_records (KubevalResult.report file) (fun rs h => ?_) fun h => ?_
    · simp only [check, KubevalJob.checkOf, Lint.kubevalReports, h]
      rfl
    · simp only [check, KubevalJob.checkOf, Lint.kubevalReports, h]
      exact ⟨_, rfl⟩

end Inquiry

/-! ## What is asked and what is done -/

theorem Surroundings.matching_of_ok {s : Surroundings} {pattern : String} {files : List String}
    (h : Glob.expand s.files s.folder pattern = .ok files) : s.matching pattern = files := by
  rw [matching, h]
  rfl

/-- In a batch, these inquiries are made. -/
structure Batch.Asks (o : RunOptions) (t : Batch) (is : List Inquiry) : Prop where
  steps : t.steps = is.map fun i => .ok i.check
  delimiter : ∀ i ∈ is, i.delimiter o = t.delimiter

theorem Batch.Asks.calls {o : RunOptions} {t : Batch} {is : List Inquiry} (h : t.Asks o is) :
    t.calls = is.map Inquiry.call := by
  rw [Batch.calls, h.steps, List.flatMap_map]
  show (is.flatMap fun i => [i.check.call]) = _
  rw [← List.map_eq_flatMap]
  simp only [Inquiry.call_check]

/-- The steps for a pattern are the checks in which the inquiries are made.  There is a failure
among them if the pattern cannot be searched for. -/
structure StepsAsk (o : RunOptions) (s : Surroundings) (delimiter pattern : String)
    (steps : List (Except Failure Check)) (is : List Inquiry) : Prop where
  asked : ∀ files, Glob.expand s.files s.folder pattern = .ok files →
    steps = is.map fun i => .ok i.check
  failed : ∀ f, Glob.expand s.files s.folder pattern = .error f → .error f ∈ steps
  delimited : ∀ i ∈ is, i.delimiter o = delimiter

theorem ConftestJob.stepsAsk (o : RunOptions) (s : Surroundings) (job : ConftestJob)
    (pattern : String) :
    StepsAsk o s o.delimiter pattern (job.steps s pattern) (job.inquiries s pattern) := by
  refine ⟨fun files h => ?_, fun f h => ?_, fun i hi => ?_⟩
  · rw [steps, inquiries, h, Surroundings.matching_of_ok h]
    cases files with
    | nil => rfl
    | cons file files => rfl
  · rw [steps, h]
    exact List.mem_singleton_self _
  · rw [inquiries] at hi
    split at hi
    · cases hi
    · obtain rfl := List.mem_singleton.mp hi
      rfl

theorem KubevalJob.stepsAsk (o : RunOptions) (s : Surroundings) (job : KubevalJob)
    (pattern : String) :
    StepsAsk o s defaultDelimiter pattern (job.steps s pattern) (job.inquiries s pattern) := by
  refine ⟨fun files h => ?_, fun f h => ?_, fun i hi => ?_⟩
  · rw [steps, inquiries, h, Surroundings.matching_of_ok h, List.map_map]
    rfl
  · rw [steps, h]
    exact List.mem_singleton_self _
  · obtain ⟨file, -, rfl⟩ := List.mem_map.mp hi
    rfl

section Jobs

variable {o : RunOptions} {s : Surroundings} {delimiter : String} {τ : Type}
  {files : τ → List String} {steps : τ → String → List (Except Failure Check)}
  {inquiries : τ → String → List Inquiry} {jobs : List τ}

/-- If all patterns can be searched for, the batches of some jobs make their inquiries. -/
theorem jobs_ask
    (h : ∀ job pattern, StepsAsk o s delimiter pattern (steps job pattern) (inquiries job pattern))
    (hfound : ∀ pattern ∈ jobs.flatMap files,
      ∃ found, Glob.expand s.files s.folder pattern = .ok found) :
    List.Forall₂ (Batch.Asks o)
      (jobs.map fun job => ⟨(files job).flatMap (steps job), delimiter⟩)
      (jobs.map fun job => (files job).flatMap (inquiries job)) := by
  refine List.forall₂_map_left_iff.mpr (List.forall₂_map_right_iff.mpr
    (List.forall₂_same.mpr fun job hjob => ⟨?_, fun i hi => ?_⟩))
  · rw [List.map_flatMap]
    refine List.flatMap_congr fun pattern hmem => ?_
    obtain ⟨found, hexpand⟩ := hfound pattern (List.mem_flatMap.mpr ⟨job, hjob, hmem⟩)
    exact (h job pattern).asked found hexpand
  · obtain ⟨pattern, -, hi⟩ := List.mem_flatMap.mp hi
    exact (h job pattern).delimited i hi

/-- If there is no failure among the steps of some jobs, all patterns can be searched for. -/
theorem found_of_jobs
    (h : ∀ job pattern, StepsAsk o s delimiter pattern (steps job pattern) (inquiries job pattern))
    (hok : ∀ job ∈ jobs, ∀ step ∈ (files job).flatMap (steps job), ∃ c, step = .ok c) :
    ∀ pattern ∈ jobs.flatMap files, ∃ found, Glob.expand s.files s.folder pattern = .ok found := by
  intro pattern hmem
  obtain ⟨job, hjob, hmem⟩ := List.mem_flatMap.mp hmem
  cases hexpand : Glob.expand s.files s.folder pattern with
  | ok found => exact ⟨found, rfl⟩
  | error f =>
    have hfailed := (h job pattern).failed f hexpand
    obtain ⟨c, hc⟩ := hok job hjob _ (List.mem_flatMap.mpr ⟨pattern, hmem, hfailed⟩)
    cases hc

end Jobs

namespace Settings

variable {o : RunOptions} {s : Surroundings} {settings : Settings}

/-- If all patterns can be searched for, the batches make all inquiries, job by job. -/
theorem batches_ask
    (hfound : ∀ pattern ∈ settings.patterns,
      ∃ files, Glob.expand s.files s.folder pattern = .ok files) :
    List.Forall₂ (Batch.Asks o) (settings.batches o s) (settings.inquiriesByJob s) := by
  obtain ⟨hconftest, hkubeval⟩ := List.forall_mem_append.mp hfound
  exact List.rel_append (jobs_ask (ConftestJob.stepsAsk o s) hconftest)
    (jobs_ask (KubevalJob.stepsAsk o s) hkubeval)

/-- If there is no failure among the steps of the batches, all patterns can be searched for. -/
theorem found_of_batches
    (hok : ∀ t ∈ settings.batches o s, ∀ step ∈ t.steps, ∃ c, step = .ok c) :
    ∀ pattern ∈ settings.patterns, ∃ files, Glob.expand s.files s.folder pattern = .ok files := by
  obtain ⟨hconftest, hkubeval⟩ := List.forall_mem_append.mp hok
  exact List.forall_mem_append.mpr
    ⟨found_of_jobs (ConftestJob.stepsAsk o s) (List.forall_mem_map.mp hconftest),
      found_of_jobs (KubevalJob.stepsAsk o s) (List.forall_mem_map.mp hkubeval)⟩

end Settings

/-! ## Collecting is hearing -/

namespace Surroundings

theorem attempt_of_answer {s : Surroundings} {before : List LinterCall} {c : Check}
    {output : LinterOutput} (h : s.answer before c.call = some output) :
    s.attempt before (.ok c) = ⟨c.decode output.stdout, [c.call], []⟩ := by
  rw [attempt, h]

/-- A step succeeds when its check is answered and understood. -/
theorem attempt_eq_ok_iff {s : Surroundings} {before : List LinterCall}
    {step : Except Failure Check} {reports : List Report} :
    (s.attempt before step).result = .ok reports ↔
      ∃ c output, step = .ok c ∧ s.answer before c.call = some output ∧
        c.decode output.stdout = .ok reports := by
  cases step with
  | error f => simp [attempt, Account.failed]
  | ok c =>
    cases hanswer : s.answer before c.call with
    | none => simp [attempt, hanswer, Account.failed]
    | some output => simp [attempt_of_answer hanswer, hanswer]

/-- Steps succeed when the first one does and so do the others behind its call. -/
theorem collect_cons_eq_ok_iff {s : Surroundings} {before : List LinterCall}
    {step : Except Failure Check} {steps : List (Except Failure Check)} {reports : List Report} :
    (s.collect before (step :: steps)).result = .ok reports ↔
      ∃ c output here later, step = .ok c ∧ s.answer before c.call = some output ∧
        c.decode output.stdout = .ok here ∧
        (s.collect (before ++ [c.call]) steps).result = .ok later ∧ here ++ later = reports := by
  rw [collect, Account.inTurn_cons, Account.result_andThen_eq_ok_iff]
  simp only [Account.result_map_eq_ok_iff, attempt_eq_ok_iff]
  constructor
  · rintro ⟨here, ⟨c, output, rfl, hanswer, hdecode⟩, later, hlater, rfl⟩
    rw [attempt_of_answer hanswer] at hlater
    exact ⟨c, output, here, later, rfl, hanswer, hdecode, hlater, rfl⟩
  · rintro ⟨c, output, here, later, rfl, hanswer, hdecode, hlater, rfl⟩
    rw [attempt_of_answer hanswer]
    exact ⟨here, ⟨c, output, rfl, hanswer, hdecode⟩, later, hlater, rfl⟩

/-- Reports are only collected where no step is a failure. -/
theorem steps_ok_of_collect {s : Surroundings} {before : List LinterCall}
    {steps : List (Except Failure Check)} {reports : List Report}
    (h : (s.collect before steps).result = .ok reports) :
    ∀ step ∈ steps, ∃ c, step = .ok c := by
  induction steps generalizing before reports with
  | nil => exact fun _ hmem => nomatch hmem
  | cons step steps ih =>
    obtain ⟨c, output, here, later, rfl, -, -, hlater, -⟩ := collect_cons_eq_ok_iff.mp h
    exact List.forall_mem_cons.mpr ⟨⟨c, rfl⟩, ih hlater⟩

end Surroundings

section Hearing

variable {o : RunOptions} {s : Surroundings}

theorem answered_nil_iff {before : List LinterCall} {findings : List Finding} :
    Answered o s before [] findings ↔ findings = [] :=
  ⟨fun h => by cases h; rfl, fun h => h ▸ .nil before⟩

theorem answered_cons_iff {before : List LinterCall} {i : Inquiry} {is : List Inquiry}
    {findings : List Finding} :
    Answered o s before (i :: is) findings ↔
      ∃ output here later, s.answer before i.call = some output ∧
        i.findings? o output.stdout = some here ∧
        Answered o s (before ++ [i.call]) is later ∧ here ++ later = findings := by
  constructor
  · rintro (_ | ⟨started, understood, rest⟩)
    exact ⟨_, _, _, started, understood, rest, rfl⟩
  · rintro ⟨output, here, later, started, understood, rest, rfl⟩
    exact .cons started understood rest

/-- What is asked first is answered first. -/
theorem answered_append_iff {before : List LinterCall} {is js : List Inquiry}
    {findings : List Finding} :
    Answered o s before (is ++ js) findings ↔
      ∃ first second, Answered o s before is first ∧
        Answered o s (before ++ is.map Inquiry.call) js second ∧ first ++ second = findings := by
  induction is generalizing before findings with
  | nil => simp [answered_nil_iff]
  | cons i is ih =>
    simp only [List.cons_append, answered_cons_iff, ih, List.map_cons]
    constructor
    · rintro ⟨output, here, _, started, understood, ⟨first, second, hfirst, hsecond, rfl⟩, rfl⟩
      rw [List.append_assoc] at hsecond
      exact ⟨here ++ first, second, ⟨output, here, first, started, understood, hfirst, rfl⟩,
        hsecond, List.append_assoc ..⟩
    · rintro ⟨_, second, ⟨output, here, first, started, understood, hfirst, rfl⟩, hsecond, rfl⟩
      refine ⟨output, here, first ++ second, started, understood, ⟨first, second, hfirst, ?_, rfl⟩,
        (List.append_assoc ..).symm⟩
      rwa [List.append_assoc]

/-- **Collecting is hearing.**  The reports of a batch are collected exactly when its inquiries are
answered, and their messages are the findings. -/
theorem answered_iff_collect {delimiter : String} {before : List LinterCall} {is : List Inquiry}
    (hdelimiter : ∀ i ∈ is, i.delimiter o = delimiter) {findings : List Finding} :
    Answered o s before is findings ↔
      ∃ reports, (s.collect before (is.map fun i => .ok i.check)).result = .ok reports ∧
        findingsOf delimiter reports = findings := by
  induction is generalizing before findings with
  | nil =>
    have hnil : (s.collect before []).result = .ok [] := rfl
    rw [answered_nil_iff, List.map_nil, hnil]
    refine ⟨fun h => ⟨[], rfl, h.symm⟩, ?_⟩
    rintro ⟨reports, hreports, rfl⟩
    obtain rfl := Except.ok.inj hreports
    rfl
  | cons i is ih =>
    obtain ⟨rfl, hothers⟩ := List.forall_mem_cons.mp hdelimiter
    simp only [List.map_cons, answered_cons_iff, Inquiry.findings?_eq_some_iff, ih hothers,
      Surroundings.collect_cons_eq_ok_iff, Except.ok.injEq]
    constructor
    · rintro ⟨output, _, _, started, ⟨here, hhere, rfl⟩, ⟨later, hlater, rfl⟩, rfl⟩
      rw [← i.call_check] at started hlater
      exact ⟨here ++ later, ⟨i.check, output, here, later, rfl, started, hhere, hlater, rfl⟩,
        findingsOf_append ..⟩
    · rintro ⟨_, ⟨_, output, here, later, rfl, started, hhere, hlater, rfl⟩, rfl⟩
      rw [i.call_check] at started hlater
      exact ⟨output, _, _, started, ⟨here, hhere, rfl⟩, ⟨later, hlater, rfl⟩,
        (findingsOf_append ..).symm⟩

end Hearing

/-! ## Telling what was found -/

namespace Finding

/-- What a finding says: nothing without a delimiter, and otherwise a diagnostic or a failure. -/
def verdict? (s : Surroundings) (f : Finding) : Option (Except Failure Diagnostic) :=
  (RunOptions.splitMessage f.delimiter f.message).map fun parts =>
    s.verdict f.filename parts.1 parts.2

theorem filterMap_verdict? (s : Surroundings) (delimiter : String) (reports : List Report) :
    (findingsOf delimiter reports).filterMap (verdict? s) = s.verdicts delimiter reports := by
  rw [findingsOf, List.filterMap_flatMap, Surroundings.verdicts]
  refine List.flatMap_congr fun r _ => ?_
  rw [List.filterMap_map, Surroundings.verdictsOf, List.map_filterMap]
  rfl

theorem verdict?_eq_none_iff {s : Surroundings} {f : Finding} :
    f.verdict? s = none ↔ ¬ f.IsDelimited := by
  rw [verdict?, Option.map_eq_none_iff, RunOptions.splitMessage, Option.map_eq_none_iff,
    Text.breakOn_eq_none_iff]
  rfl

/-- Where something can be written, a diagnostic tells what is found. -/
theorem verdict?_eq_some_ok_iff {s : Surroundings} (hw : s.writable = true) {f : Finding}
    {d : Diagnostic} : f.verdict? s = some (.ok d) ↔ f.Tells s d := by
  rw [verdict?, Option.map_eq_some_iff, Tells]
  constructor
  · rintro ⟨⟨fragment, text⟩, hsplit, hverdict⟩
    rw [Surroundings.verdict] at hverdict
    cases hresolve : (Document.resolve s.files (s.pathOf f.filename) ("$." ++ fragment)).result with
    | error e =>
      rw [hresolve] at hverdict
      cases hverdict
    | ok position =>
      rw [hresolve, hw] at hverdict
      obtain rfl := Except.ok.inj hverdict
      exact ⟨fragment, hsplit, hresolve, rfl⟩
  · rintro ⟨fragment, hsplit, hresolve, hfile⟩
    refine ⟨_, hsplit, ?_⟩
    rw [Surroundings.verdict, hresolve, hw, ← hfile]
    rfl

/-- **Everything found is told.**  The delimited findings are told one by one, and nothing else. -/
theorem filterMap_verdict?_eq_iff {s : Surroundings} (hw : s.writable = true)
    {findings : List Finding} {told : List Diagnostic} :
    findings.filterMap (verdict? s) = told.map .ok ↔
      List.Forall₂ (Tells s) (findings.filter IsDelimited) told := by
  induction findings generalizing told with
  | nil => simp [eq_comm]
  | cons f findings ih =>
    by_cases hf : f.IsDelimited
    · obtain ⟨v, hv⟩ := Option.ne_none_iff_exists'.mp fun h => verdict?_eq_none_iff.mp h hf
      rw [List.filterMap_cons_some hv, List.filter_cons_of_pos (by simpa using hf),
        List.forall₂_cons_left_iff]
      constructor
      · intro h
        obtain ⟨d, more, rfl, hd, hmore⟩ := List.map_eq_cons_iff.mp h.symm
        exact ⟨d, more, (verdict?_eq_some_ok_iff hw).mp (hd ▸ hv), ih.mp hmore.symm, rfl⟩
      · rintro ⟨d, more, hd, hmore, rfl⟩
        obtain rfl := Option.some.inj (hv.symm.trans ((verdict?_eq_some_ok_iff hw).mpr hd))
        rw [List.map_cons, ih.mpr hmore]
    · rw [List.filterMap_cons_none (verdict?_eq_none_iff.mpr hf),
        List.filter_cons_of_neg (by simpa using hf), ih]

end Finding

/-! ## A run that comes to a number -/

section Counting

variable {o : RunOptions} {s : Surroundings}

/-- **Batches are done exactly when all inquiries are answered and everything found is told.** -/
theorem completes_iff_answered {ts : List Batch} {iss : List (List Inquiry)}
    (hasks : List.Forall₂ (Batch.Asks o) ts iss) {before : List LinterCall}
    {told : List Diagnostic} :
    Completes s before ts told ↔
      ∃ findings, Answered o s before iss.flatten findings ∧
        findings.filterMap (Finding.verdict? s) = told.map .ok := by
  induction hasks generalizing before told with
  | nil =>
    constructor
    · rintro ⟨⟩
      exact ⟨[], .nil before, rfl⟩
    · rintro ⟨findings, hanswered, hsaid⟩
      obtain rfl := answered_nil_iff.mp hanswered
      obtain rfl := List.map_eq_nil_iff.mp hsaid.symm
      exact .nil before
  | @cons t is ts iss htask _ ih =>
    have hcollect := @answered_iff_collect o s t.delimiter before is htask.delimiter
    rw [List.flatten_cons]
    constructor
    · rintro (_ | ⟨collected, said, rest⟩)
      rw [htask.steps] at collected
      rw [htask.calls] at rest
      obtain ⟨later, hlater, hmore⟩ := ih.mp rest
      refine ⟨_, answered_append_iff.mpr ⟨_, later, hcollect.mpr ⟨_, collected, rfl⟩, hlater, rfl⟩,
        ?_⟩
      rw [List.filterMap_append, Finding.filterMap_verdict?, said, hmore, List.map_append]
    · rintro ⟨_, hanswered, hsaid⟩
      obtain ⟨here, later, hhere, hlater, rfl⟩ := answered_append_iff.mp hanswered
      obtain ⟨reports, collected, rfl⟩ := hcollect.mp hhere
      rw [List.filterMap_append, Finding.filterMap_verdict?] at hsaid
      obtain ⟨first, more, rfl, hfirst, hmore⟩ := List.map_eq_append_iff.mp hsaid.symm
      rw [← htask.calls] at hlater
      rw [← htask.steps] at collected
      exact .cons collected hfirst.symm (ih.mpr ⟨later, hlater, hmore.symm⟩)

/-- Where batches are done, no step is a failure. -/
theorem Completes.steps_ok {before : List LinterCall} {ts : List Batch} {told : List Diagnostic}
    (h : Completes s before ts told) : ∀ t ∈ ts, ∀ step ∈ t.steps, ∃ c, step = .ok c := by
  induction h with
  | nil => exact fun _ hmem => nomatch hmem
  | cons collected _ _ ih =>
    exact List.forall_mem_cons.mpr ⟨Surroundings.steps_ok_of_collect collected, ih⟩

/-- Where everything is heard and told, a run comes to the number of diagnostics and has written
them. -/
theorem run_of_hears (hw : s.writable = true) {findings : List Finding} {told : List Diagnostic}
    (hhears : o.Hears s findings)
    (htold : List.Forall₂ (Finding.Tells s) (findings.filter Finding.IsDelimited) told) :
    (o.run s).run.result = .ok told.length ∧
      (o.run s).run.output = String.join (told.map o.line) := by
  obtain ⟨settings, hload, hfound, hanswered⟩ := hhears
  have hdone : Completes s [] (settings.batches o s) told :=
    (completes_iff_answered (Settings.batches_ask hfound)).mpr
      ⟨findings, hanswered, (Finding.filterMap_verdict?_eq_iff hw).mpr htold⟩
  have haccount := o.account_run s
  rw [RunOptions.reference_of_ok hload, hdone.inTurn_eq o] at haccount
  exact ⟨congrArg Account.result haccount,
    congrArg (fun a : Account Nat => String.join a.lines) haccount⟩

/-- **A run comes to a number exactly when everything is heard and told.** -/
theorem run_eq_ok_iff (hw : s.writable = true) {n : Nat} :
    (o.run s).run.result = .ok n ↔
      ∃ findings told, o.Hears s findings ∧
        List.Forall₂ (Finding.Tells s) (findings.filter Finding.IsDelimited) told ∧
        told.length = n := by
  constructor
  · intro h
    have hresult : (o.reference s).result = .ok n := o.account_run s ▸ h
    cases hload : Settings.load s.files (s.pathOf o.settingsFile) with
    | error f =>
      rw [RunOptions.reference_of_error hload] at hresult
      cases hresult
    | ok settings =>
      rw [RunOptions.reference_of_ok hload] at hresult
      -- a run that fails does not come to a number
      obtain ⟨told, hdone⟩ | ⟨earlier, batch, told, f, hfails⟩ |
        ⟨earlier, batch, told, f, hfails⟩ := exists_ending s (settings.batches o s)
      · have hfound := Settings.found_of_batches hdone.steps_ok
        obtain ⟨findings, hanswered, hsaid⟩ :=
          (completes_iff_answered (Settings.batches_ask hfound)).mp hdone
        rw [hdone.inTurn_eq o] at hresult
        exact ⟨findings, told, ⟨settings, hload, hfound, hanswered⟩,
          (Finding.filterMap_verdict?_eq_iff hw).mp hsaid, Except.ok.inj hresult⟩
      · obtain ⟨started, -, heq⟩ := hfails.inTurn_eq o
        rw [heq] at hresult
        cases hresult
      · rw [hfails.inTurn_eq o] at hresult
        cases hresult
  · rintro ⟨findings, told, hhears, htold, rfl⟩
    exact (run_of_hears hw hhears htold).1

/-- **A run comes to nothing exactly when everything is heard and no message has its delimiter.** -/
theorem run_eq_zero_iff (hw : s.writable = true) :
    (o.run s).run.result = .ok 0 ↔
      ∃ findings, o.Hears s findings ∧ ∀ f ∈ findings, ¬ f.IsDelimited := by
  rw [run_eq_ok_iff hw]
  constructor
  · rintro ⟨findings, told, hhears, htold, hlength⟩
    obtain rfl := List.length_eq_zero_iff.mp hlength
    have hnone := List.forall₂_nil_right_iff.mp htold
    exact ⟨findings, hhears, by simpa using List.filter_eq_nil_iff.mp hnone⟩
  · rintro ⟨findings, hhears, hnone⟩
    refine ⟨findings, [], hhears, ?_, rfl⟩
    rw [List.filter_eq_nil_iff.mpr (by simpa using hnone)]
    exact .nil

end Counting

end LintLocator
