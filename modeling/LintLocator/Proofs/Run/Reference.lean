import LintLocator.Proofs.Run.Account
import LintLocator.Run

/-!
# What a run amounts to

A run is put together from loops within loops: jobs, patterns, files, reports and messages.  Here it
is flattened.  A job is a `Batch`: a list of calls with what becomes of their outputs, and a
delimiter.  Doing a batch is collecting reports and then telling what their messages say, and a run
does one batch after the other.

* `Settings.batches`: the jobs in their order, those for conftest first;
* `Surroundings.collect`, `RunOptions.tell`, `Batch.account`: what comes of the parts of a batch;
* `RunOptions.reference`: what comes of a run;
* `account_run`: this is what others see of a run.
-/

namespace LintLocator

open Work

/-- A call of a linter and what becomes of its output. -/
structure Check where
  call : LinterCall
  decode : List UInt8 → Except Failure (List Report)

/-- A job without its patterns. -/
structure Batch where
  /-- The calls in their order.  A pattern that cannot be searched for fails where its calls would
  stand. -/
  steps : List (Except Failure Check)
  /-- What stands behind the fragment in a message. -/
  delimiter : String

namespace ConftestJob

/-- The check of all files that match a pattern. -/
def checkOf (job : ConftestJob) (pattern : String) (files : List String) : Check :=
  ⟨⟨.conftest, job.arguments files⟩, fun output =>
    (Lint.conftestReports output job.failOnWarn).mapError
      (Failure.within (.checking .conftest pattern))⟩

/-- One call with all files that match a pattern, and none if there are none. -/
def steps (job : ConftestJob) (s : Surroundings) (pattern : String) :
    List (Except Failure Check) :=
  match Glob.expand s.files s.folder pattern with
  | .error f => [.error f]
  | .ok [] => []
  | .ok files => [.ok (job.checkOf pattern files)]

end ConftestJob

namespace KubevalJob

/-- The check of a file. -/
def checkOf (job : KubevalJob) (file : String) : Check :=
  ⟨⟨.kubeval, job.arguments file⟩, fun output =>
    (Lint.kubevalReports output file).result.mapError
      (Failure.within (.checking .kubeval file))⟩

/-- One call for each file that matches a pattern. -/
def steps (job : KubevalJob) (s : Surroundings) (pattern : String) :
    List (Except Failure Check) :=
  match Glob.expand s.files s.folder pattern with
  | .error f => [.error f]
  | .ok files => files.map fun file => .ok (job.checkOf file)

end KubevalJob

/-- The jobs in their order, those for conftest before those for kubeval. -/
def Settings.batches (settings : Settings) (o : RunOptions) (s : Surroundings) : List Batch :=
  settings.conftest.map (fun job => ⟨job.files.flatMap (job.steps s), o.delimiter⟩) ++
    settings.kubeval.map fun job => ⟨job.files.flatMap (job.steps s), defaultDelimiter⟩

/-! ## The reference -/

namespace Surroundings

/-- What comes of one step: the call, unless there is no such program, and the reports in its
output. -/
def attempt (s : Surroundings) (before : List LinterCall) :
    Except Failure Check → Account (List Report)
  | .error f => .failed f
  | .ok c =>
    match s.answer before c.call with
    | none => .failed ⟨[.running c.call], .notInstalled⟩
    | some output => ⟨c.decode output.stdout, [c.call], []⟩

/-- What comes of all steps of a batch: their reports in their order. -/
def collect (s : Surroundings) (before : List LinterCall) (steps : List (Except Failure Check)) :
    Account (List Report) :=
  .inTurn (· ++ ·) [] s.attempt before steps

/-- What a message with a delimiter says: a diagnostic that can be written, or a failure. -/
def verdict (s : Surroundings) (filename fragment text : String) : Except Failure Diagnostic :=
  match (Document.resolve s.files (s.pathOf filename) ("$." ++ fragment)).result with
  | .error e => .error ⟨[.processing fragment], .notLocated e⟩
  | .ok position =>
    if s.writable then .ok ⟨filename, position, text⟩
    else .error ⟨[.printing text], .outputClosed⟩

/-- What the messages of a report say.  Those without a delimiter say nothing. -/
def verdictsOf (s : Surroundings) (delimiter : String) (r : Report) :
    List (Except Failure Diagnostic) :=
  (r.messages.filterMap (RunOptions.splitMessage delimiter)).map fun parts =>
    s.verdict r.filename parts.1 parts.2

/-- What all messages say, report by report. -/
def verdicts (s : Surroundings) (delimiter : String) (reports : List Report) :
    List (Except Failure Diagnostic) :=
  reports.flatMap (s.verdictsOf delimiter)

end Surroundings

namespace RunOptions

/-- A diagnostic as a line of the output. -/
def line (o : RunOptions) (d : Diagnostic) : String := d.format o.template ++ "\n"

/-- What comes of a message: one line, or a failure. -/
def tell (o : RunOptions) : Except Failure Diagnostic → Account Nat
  | .error f => .failed f
  | .ok d => ⟨.ok 1, [], [o.line d]⟩

/-- What comes of some messages: the number of lines. -/
def tellAll (o : RunOptions) (messages : List (Except Failure Diagnostic)) : Account Nat :=
  .inTurn (· + ·) 0 (fun _ => o.tell) [] messages

end RunOptions

/-- What comes of a batch.  All calls are made before anything is told. -/
def Batch.account (o : RunOptions) (s : Surroundings) (before : List LinterCall) (t : Batch) :
    Account Nat :=
  (s.collect before t.steps).andThen fun reports => o.tellAll (s.verdicts t.delimiter reports)

/-- What comes of a run: the batches one after the other, if the settings can be read. -/
def RunOptions.reference (o : RunOptions) (s : Surroundings) : Account Nat :=
  match Settings.load s.files (s.pathOf o.settingsFile) with
  | .error f => .failed f
  | .ok settings => .inTurn (· + ·) 0 (Batch.account o s) [] (settings.batches o s)

theorem RunOptions.reference_of_ok {o : RunOptions} {s : Surroundings} {settings : Settings}
    (h : Settings.load s.files (s.pathOf o.settingsFile) = .ok settings) :
    o.reference s = .inTurn (· + ·) 0 (Batch.account o s) [] (settings.batches o s) := by
  -- `rw [reference]` would have the loading of settings evaluated
  show (match Settings.load s.files (s.pathOf o.settingsFile) with
    | .error f => Account.failed f
    | .ok settings => .inTurn (· + ·) 0 (Batch.account o s) [] (settings.batches o s)) = _
  rw [h]

theorem RunOptions.reference_of_error {o : RunOptions} {s : Surroundings} {f : Failure}
    (h : Settings.load s.files (s.pathOf o.settingsFile) = .error f) :
    o.reference s = .failed f := by
  show (match Settings.load s.files (s.pathOf o.settingsFile) with
    | .error f => Account.failed f
    | .ok settings => .inTurn (· + ·) 0 (Batch.account o s) [] (settings.batches o s)) = _
  rw [h]

/-! ## Collecting reports -/

namespace Surroundings

theorem yields_noteEnd (call : LinterCall) (output : LinterOutput) :
    Yields (noteEnd call output) fun _ => .done () := by
  have hstderr : Yields
      (if !output.stderr.isEmpty then
        Work.note (.debug (call.linter.program ++ " stderr: " ++ Utf8.decodeShown output.stderr))
      else pure ()) fun _ => .done () := by
    split
    · exact .note _
    · exact .pure ()
  rw [noteEnd]
  split
  · exact (Yields.note _).bind fun _ => hstderr
  · exact hstderr

/-- A linter is told the calls made before it. -/
theorem yields_start (s : Surroundings) (call : LinterCall) :
    Yields (s.start call) fun before =>
      match s.answer before call with
      | none => .failed ⟨[.running call], .notInstalled⟩
      | some output => ⟨.ok output.stdout, [call], []⟩ := by
  rw [start]
  refine ((Yields.note _).bind fun _ => Yields.calls.bind
    (k := fun before _ => match s.answer before call with
      | none => .failed ⟨[.running call], .notInstalled⟩
      | some output => ⟨.ok output.stdout, [call], []⟩) fun before => ?_).congr fun before => ?_
  · cases s.answer before call with
    | none => exact .fail _
    | some output =>
      exact (Yields.started call).bind fun _ => (yields_noteEnd call output).bind fun _ => .pure _
  · simp [Account.andThen, Account.done]

/-- Starting a linter and decoding its output is an attempt. -/
theorem yields_attempt (s : Surroundings) (call : LinterCall)
    {decode : List UInt8 → Work (List Report)}
    {decode' : List UInt8 → Except Failure (List Report)}
    (h : ∀ output, Yields (decode output) fun _ => ⟨decode' output, [], []⟩) :
    Yields (s.start call >>= decode) fun before => s.attempt before (.ok ⟨call, decode'⟩) := by
  refine ((s.yields_start call).bind h).congr fun before => ?_
  rw [attempt]
  cases s.answer before call with
  | none => rfl
  | some output => simp [Account.andThen]

theorem collect_singleton (s : Surroundings) (before : List LinterCall)
    (step : Except Failure Check) : s.collect before [step] = s.attempt before step :=
  Account.inTurn_singleton before step

/-- All that comes of the members of a list is collected step by step. -/
theorem yields_gather (s : Surroundings) {τ : Type} {steps : τ → List (Except Failure Check)}
    {f : τ → Work (List Report)}
    (h : ∀ t, Yields (f t) fun before => s.collect before (steps t)) (ts : List τ) :
    Yields (Work.gather f ts) fun before => s.collect before (ts.flatMap steps) := by
  have hflatten : ∀ bs : List (List Report), bs.flatten = bs.foldr (· ++ ·) [] := by
    intro bs
    induction bs with
    | nil => rfl
    | cons b bs ih => rw [List.flatten_cons, ih, List.foldr_cons]
  simp only [Work.gather, hflatten]
  exact Yields.inTurn h ts

theorem yields_filesMatching (s : Surroundings) (pattern : String) :
    Yields (s.filesMatching pattern) fun _ =>
      ⟨Glob.expand s.files s.folder pattern, [], []⟩ := by
  rw [filesMatching]
  have hwarning : ∀ files : List String, Yields
      (do if files.isEmpty then Work.note (.warn ("no files match " ++ pattern))
          return files) fun _ => .done files := by
    intro files
    split
    · exact (Yields.note _).bind fun _ => .pure files
    · exact .pure files
  refine ((Yields.ofExcept _).bind hwarning).congr fun before => ?_
  cases Glob.expand s.files s.folder pattern with
  | error f => rfl
  | ok files => rfl

end Surroundings

namespace ConftestJob

theorem yields_check (job : ConftestJob) (s : Surroundings) (pattern : String) :
    Yields (job.check s pattern) fun before => s.collect before (job.steps s pattern) := by
  have hfiles : ∀ files : List String, Yields
      (if files.isEmpty then return []
        else s.start ⟨.conftest, job.arguments files⟩ >>= fun output =>
          (Work.ofExcept (Lint.conftestReports output job.failOnWarn)).within
            (.checking .conftest pattern))
      fun before => if files.isEmpty then .done [] else
        s.attempt before (.ok (job.checkOf pattern files)) := by
    intro files
    split
    · exact .pure []
    · exact s.yields_attempt _ fun output => (Yields.ofExcept _).within _
  rw [check]
  refine ((s.yields_filesMatching pattern).bind hfiles).congr fun before => ?_
  rw [steps]
  cases Glob.expand s.files s.folder pattern with
  | error f => rw [s.collect_singleton]; rfl
  | ok files =>
    cases files with
    | nil => rfl
    | cons file files =>
      rw [s.collect_singleton]
      simp [Account.andThen]

/-- The reports of a job are collected pattern by pattern. -/
theorem yields_reports (job : ConftestJob) (s : Surroundings) :
    Yields (job.reports s) fun before => s.collect before (job.files.flatMap (job.steps s)) :=
  s.yields_gather (job.yields_check s) job.files

end ConftestJob

namespace KubevalJob

theorem yields_check (job : KubevalJob) (s : Surroundings) (file : String) :
    Yields (job.check s file) fun before => s.collect before [.ok (job.checkOf file)] := by
  simp only [s.collect_singleton]
  exact s.yields_attempt _ fun output => (Yields.ofOutcome _).within _

theorem yields_checkAll (job : KubevalJob) (s : Surroundings) (pattern : String) :
    Yields (job.checkAll s pattern) fun before => s.collect before (job.steps s pattern) := by
  rw [checkAll]
  refine ((s.yields_filesMatching pattern).bind fun files =>
    s.yields_gather (job.yields_check s) files).congr fun before => ?_
  rw [steps]
  cases Glob.expand s.files s.folder pattern with
  | error f => rw [s.collect_singleton]; rfl
  | ok files => simp [Account.andThen, ← List.map_eq_flatMap]

/-- The reports of a job are collected pattern by pattern, and file by file for each. -/
theorem yields_reports (job : KubevalJob) (s : Surroundings) :
    Yields (job.reports s) fun before => s.collect before (job.files.flatMap (job.steps s)) :=
  s.yields_gather (job.yields_checkAll s) job.files

end KubevalJob

/-! ## Telling what the messages say -/

namespace RunOptions

theorem yields_locate (s : Surroundings) (filename fragment : String) :
    Yields (locate s filename fragment) fun _ =>
      ⟨(Document.resolve s.files (s.pathOf filename) ("$." ++ fragment)).result.mapError
        fun e => ⟨[.processing fragment], .notLocated e⟩, [], []⟩ :=
  Yields.ofOutcome _

theorem yields_print (o : RunOptions) (s : Surroundings) (d : Diagnostic) :
    Yields (o.print s d) fun _ =>
      if s.writable then ⟨.ok (), [], [o.line d]⟩ else .failed (.because .outputClosed) := by
  rw [print, Surroundings.write]
  split
  · exact .wrote _
  · exact .fail _

theorem tellAll_singleton (o : RunOptions) (message : Except Failure Diagnostic) :
    o.tellAll [message] = o.tell message :=
  Account.inTurn_singleton [] message

/-- Whatever the members of a list tell is told in turn. -/
theorem yields_total (o : RunOptions) {τ : Type} {messages : τ → List (Except Failure Diagnostic)}
    {f : τ → Work Nat} (h : ∀ t, Yields (f t) fun _ => o.tellAll (messages t)) (ts : List τ) :
    Yields (Work.total f ts) fun _ => o.tellAll (ts.flatMap messages) := by
  have hturn : ∀ t, Yields (f t) fun before =>
      .inTurn (· + ·) 0 (fun _ => o.tell) before (messages t) := fun t =>
    (h t).congr fun before => Account.inTurn_const [] before _
  exact (Yields.inTurn hturn ts).congr fun before => Account.inTurn_const before [] _

/-- A message is told if it has a delimiter. -/
theorem yields_printMessage (o : RunOptions) (s : Surroundings)
    (filename delimiter message : String) :
    Yields (o.printMessage s filename delimiter message) fun _ =>
      o.tellAll (s.verdictsOf delimiter ⟨filename, [message]⟩) := by
  cases hsplit : splitMessage delimiter message with
  | none =>
    rw [printMessage, hsplit]
    simp only [Surroundings.verdictsOf, List.filterMap_cons_none hsplit, List.filterMap_nil,
      List.map_nil]
    exact (Yields.note _).bind fun _ => .pure 0
  | some parts =>
    obtain ⟨fragment, text⟩ := parts
    rw [printMessage, hsplit]
    simp only [Surroundings.verdictsOf, List.filterMap_cons_some hsplit, List.filterMap_nil,
      List.map_cons, List.map_nil, tellAll_singleton]
    refine ((yields_locate s filename fragment).bind fun position =>
      ((o.yields_print s ⟨filename, position, text⟩).within (.printing text)).bind
        fun _ => .pure 1).congr fun before => ?_
    rw [Surroundings.verdict]
    cases (Document.resolve s.files (s.pathOf filename) ("$." ++ fragment)).result with
    | error e => rfl
    | ok position =>
      by_cases hwritable : s.writable = true
      · simp only [hwritable, if_true]
        rfl
      · simp only [hwritable]
        rfl

theorem verdictsOf_eq_flatMap (s : Surroundings) (delimiter : String) (r : Report) :
    s.verdictsOf delimiter r =
      r.messages.flatMap fun message => s.verdictsOf delimiter ⟨r.filename, [message]⟩ := by
  obtain ⟨filename, messages⟩ := r
  induction messages with
  | nil => rfl
  | cons message messages ih =>
    rw [List.flatMap_cons, ← ih, Surroundings.verdictsOf, Surroundings.verdictsOf,
      Surroundings.verdictsOf, ← List.map_append, ← List.filterMap_append]
    rfl

theorem yields_printReport (o : RunOptions) (s : Surroundings) (delimiter : String) (r : Report) :
    Yields (o.printReport s delimiter r) fun _ => o.tellAll (s.verdictsOf delimiter r) := by
  rw [verdictsOf_eq_flatMap]
  exact o.yields_total (o.yields_printMessage s r.filename delimiter) r.messages

/-! ## Whole runs -/

/-- Collecting the reports of a job and printing them is doing a batch. -/
theorem yields_batch (o : RunOptions) (s : Surroundings) {collecting : Work (List Report)}
    (t : Batch) (h : Yields collecting fun before => s.collect before t.steps) :
    Yields (collecting >>= Work.total (o.printReport s t.delimiter)) fun before =>
      t.account o s before :=
  h.bind fun reports => o.yields_total (o.yields_printReport s t.delimiter) reports

/-- Doing jobs is doing the batches that they stand for in turn. -/
theorem yields_batches (o : RunOptions) (s : Surroundings) {τ : Type} {f : τ → Work Nat}
    {batch : τ → Batch} (h : ∀ job, Yields (f job) fun before => (batch job).account o s before)
    (jobs : List τ) :
    Yields (Work.total f jobs) fun before =>
      .inTurn (· + ·) 0 (Batch.account o s) before (jobs.map batch) := by
  have hturn : ∀ job, Yields (f job) fun before =>
      .inTurn (· + ·) 0 (Batch.account o s) before [batch job] := fun job =>
    (h job).congr fun before => (Account.inTurn_singleton before _).symm
  rw [List.map_eq_flatMap]
  exact Yields.inTurn hturn jobs

/-- What a run comes to, whatever has happened before. -/
theorem yields_run (o : RunOptions) (s : Surroundings) :
    Yields (o.run s) fun before =>
      match Settings.load s.files (s.pathOf o.settingsFile) with
      | .error f => .failed f
      | .ok settings => .inTurn (· + ·) 0 (Batch.account o s) before (settings.batches o s) := by
  have hjobs : ∀ settings : Settings, Yields
      (do let fromConftest ← Work.total (o.doConftestJob s) settings.conftest
          let fromKubeval ← Work.total (o.doKubevalJob s) settings.kubeval
          return fromConftest + fromKubeval)
      fun before => .inTurn (· + ·) 0 (Batch.account o s) before (settings.batches o s) := by
    intro settings
    simp only [Settings.batches, Account.inTurn_append]
    exact (o.yields_batches s
        (fun job => o.yields_batch s ⟨_, o.delimiter⟩ (job.yields_reports s)) _).bind fun n =>
      (o.yields_batches s
        (fun job => o.yields_batch s ⟨_, defaultDelimiter⟩ (job.yields_reports s)) _).bind_pure
          (n + ·)
  rw [run]
  refine ((Yields.ofExcept _).bind hjobs).congr fun before => ?_
  cases Settings.load s.files (s.pathOf o.settingsFile) with
  | error f => rfl
  | ok settings => simp [Account.andThen]

/-- **A run comes to what the reference says.** -/
theorem account_run (o : RunOptions) (s : Surroundings) :
    (o.run s).run.account = o.reference s :=
  o.yields_run s []

end RunOptions
end LintLocator
