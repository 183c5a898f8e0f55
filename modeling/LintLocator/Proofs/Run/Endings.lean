import LintLocator.Proofs.Run.Reference
import Mathlib.Data.List.Infix

/-!
# How runs end

A run that has read its settings ends in one of three ways: it does all of its batches, it fails
while the reports of a batch are collected, or it fails at a message of a batch.  A failure does not
take back what has been written, and a batch writes nothing before all of its reports are there.  So
what is in the output tells how far the run has come.

* `Completes`: some batches are done, and these are their diagnostics;
* `FailsCollecting`, `FailsTelling`: the batches before one are done, and then there is a failure;
* `run_endings`: what the result, the calls and the output are in each case, and that there is
  no other.
-/

namespace LintLocator

variable {β σ : Type}

namespace Account

/-- Calls that are planned for each member of a list are made in their order.  All of them are made
if nothing fails. -/
theorem calls_inTurn {op : β → β → β} {e : β} {f : List LinterCall → σ → Account β}
    {planned : σ → List LinterCall} (hbegin : ∀ before x, (f before x).calls <+: planned x)
    (hok : ∀ before x b, (f before x).result = .ok b → (f before x).calls = planned x)
    (before : List LinterCall) (xs : List σ) :
    (inTurn op e f before xs).calls <+: xs.flatMap planned ∧
      ∀ b, (inTurn op e f before xs).result = .ok b →
        (inTurn op e f before xs).calls = xs.flatMap planned := by
  induction xs generalizing before with
  | nil => exact ⟨List.nil_prefix, fun _ _ => rfl⟩
  | cons x xs ih =>
    rw [inTurn_cons, List.flatMap_cons]
    cases hx : (f before x).result with
    | error g =>
      rw [andThen_of_error hx]
      refine ⟨(hbegin before x).trans (List.prefix_append _ _), fun b hb => ?_⟩
      cases hb
    | ok c =>
      obtain ⟨hrest, hrestOk⟩ := ih (before ++ (f before x).calls)
      rw [andThen_of_ok hx, hok before x c hx]
      refine ⟨(List.prefix_append_right_inj _).mpr ?_, fun b hb => ?_⟩
      · rwa [hok before x c hx] at hrest
      · rw [hok before x c hx] at hrestOk
        cases hxs : (inTurn op e f (before ++ planned x) xs).result with
        | error g =>
          simp only [map, hxs] at hb
          cases hb
        | ok d => exact congrArg _ (hrestOk d hxs)

/-- Where no member writes anything, nothing is written. -/
theorem lines_inTurn {op : β → β → β} {e : β} {f : List LinterCall → σ → Account β}
    (h : ∀ before x, (f before x).lines = []) (before : List LinterCall) (xs : List σ) :
    (inTurn op e f before xs).lines = [] := by
  induction xs generalizing before with
  | nil => rfl
  | cons x xs ih =>
    rw [inTurn_cons]
    cases hx : (f before x).result with
    | error g => rw [andThen_of_error hx, h]
    | ok b => rw [andThen_of_ok hx, h, lines_map, ih, List.nil_append]

end Account

/-! ## One batch -/

/-- The calls of a step, if its pattern can be searched for. -/
def callsOf (step : Except Failure Check) : List LinterCall :=
  (step.toOption.map Check.call).toList

/-- The calls of a batch. -/
def Batch.calls (t : Batch) : List LinterCall := t.steps.flatMap callsOf

/-- The calls of some batches. -/
def plan (ts : List Batch) : List LinterCall := ts.flatMap Batch.calls

@[simp] theorem plan_append (ts us : List Batch) : plan (ts ++ us) = plan ts ++ plan us :=
  List.flatMap_append

theorem plan_singleton (t : Batch) : plan [t] = t.calls := by
  rw [plan, List.flatMap_singleton]

namespace Surroundings

/-- While reports are collected, the calls are made in their order. -/
theorem calls_collect (s : Surroundings) (before : List LinterCall) (t : Batch) :
    (s.collect before t.steps).calls <+: t.calls ∧
      ∀ reports, (s.collect before t.steps).result = .ok reports →
        (s.collect before t.steps).calls = t.calls := by
  refine Account.calls_inTurn (fun before step => ?_) (fun before step reports h => ?_) before
    t.steps
  · cases step with
    | error f => exact List.nil_prefix
    | ok c =>
      rw [attempt]
      cases s.answer before c.call with
      | none => exact List.nil_prefix
      | some output => exact List.prefix_rfl
  · cases step with
    | error f => cases h
    | ok c =>
      rw [attempt] at h ⊢
      cases hanswer : s.answer before c.call with
      | none =>
        rw [hanswer] at h
        cases h
      | some output => rfl

/-- While reports are collected, nothing is written. -/
theorem lines_collect (s : Surroundings) (before : List LinterCall)
    (steps : List (Except Failure Check)) : (s.collect before steps).lines = [] := by
  refine Account.lines_inTurn (fun before step => ?_) before steps
  cases step with
  | error f => rfl
  | ok c =>
    rw [attempt]
    cases s.answer before c.call with
    | none => rfl
    | some output => rfl

end Surroundings

/-- Messages succeed up to the first failure, if there is one. -/
theorem exists_told {ε α : Type} (vs : List (Except ε α)) :
    ∃ told : List α, vs = told.map .ok ∨ ∃ f rest, vs = told.map .ok ++ .error f :: rest := by
  induction vs with
  | nil => exact ⟨[], .inl rfl⟩
  | cons v vs ih =>
    cases v with
    | error f => exact ⟨[], .inr ⟨f, vs, rfl⟩⟩
    | ok a =>
      obtain ⟨told, rfl | ⟨f, rest, rfl⟩⟩ := ih
      · exact ⟨a :: told, .inl rfl⟩
      · exact ⟨a :: told, .inr ⟨f, rest, rfl⟩⟩

namespace RunOptions

/-- Messages that all succeed become one line each. -/
theorem tellAll_map_ok (o : RunOptions) (told : List Diagnostic) :
    o.tellAll (told.map .ok) = ⟨.ok told.length, [], told.map o.line⟩ := by
  induction told with
  | nil => rfl
  | cons d told ih =>
    have htell : (o.tell (.ok d)).result = .ok 1 := rfl
    rw [tellAll] at ih
    rw [tellAll, List.map_cons, Account.inTurn_cons, Account.andThen_of_ok htell,
      Account.inTurn_const _ [], ih]
    simp only [Account.map, Except.map, tell, List.length_cons, List.map_cons, List.nil_append,
      List.singleton_append, Nat.add_comm]

/-- Messages are told up to the first failure. -/
theorem tellAll_append_error (o : RunOptions) (told : List Diagnostic) (f : Failure)
    (rest : List (Except Failure Diagnostic)) :
    o.tellAll (told.map .ok ++ .error f :: rest) = ⟨.error f, [], told.map o.line⟩ := by
  have htold := o.tellAll_map_ok told
  rw [tellAll] at htold
  rw [tellAll, Account.inTurn_append, htold, Account.andThen_of_ok rfl, Account.inTurn_cons]
  simp [tell, Account.map, Except.map, Account.failed, Account.andThen]

/-- While messages are told, no linter is started. -/
theorem calls_tellAll (o : RunOptions) (messages : List (Except Failure Diagnostic)) :
    (o.tellAll messages).calls = [] := by
  obtain ⟨told, rfl | ⟨f, rest, rfl⟩⟩ := exists_told messages
  · rw [tellAll_map_ok]
  · rw [tellAll_append_error]

end RunOptions

namespace Batch

variable {o : RunOptions} {s : Surroundings} {before : List LinterCall} {t : Batch}

theorem account_of_collecting {f : Failure}
    (h : (s.collect before t.steps).result = .error f) :
    t.account o s before = ⟨.error f, (s.collect before t.steps).calls, []⟩ := by
  rw [account, Account.andThen_of_error h, s.lines_collect]

theorem account_of_collected {reports : List Report}
    (h : (s.collect before t.steps).result = .ok reports) :
    t.account o s before =
      ⟨(o.tellAll (s.verdicts t.delimiter reports)).result,
        t.calls, (o.tellAll (s.verdicts t.delimiter reports)).lines⟩ := by
  rw [account, Account.andThen_of_ok h, s.lines_collect, (s.calls_collect before t).2 reports h,
    o.calls_tellAll, List.nil_append, List.append_nil]

/-- A batch makes its calls in their order, and all of them if it is done. -/
theorem calls_account (o : RunOptions) (s : Surroundings) (before : List LinterCall) (t : Batch) :
    (t.account o s before).calls <+: t.calls ∧
      ∀ n, (t.account o s before).result = .ok n → (t.account o s before).calls = t.calls := by
  cases hcollect : (s.collect before t.steps).result with
  | error f =>
    rw [account_of_collecting hcollect]
    exact ⟨(s.calls_collect before t).1, fun n hn => nomatch hn⟩
  | ok reports =>
    rw [account_of_collected hcollect]
    exact ⟨List.prefix_rfl, fun _ _ => rfl⟩

end Batch

/-- Batches make their calls in the order of the plan. -/
theorem RunOptions.calls_batches (o : RunOptions) (s : Surroundings) (before : List LinterCall)
    (batches : List Batch) :
    (Account.inTurn (· + ·) 0 (Batch.account o s) before batches).calls <+: plan batches :=
  (Account.calls_inTurn (fun before t => (Batch.calls_account o s before t).1)
    (fun before t => (Batch.calls_account o s before t).2) before batches).1

/-! ## Some batches -/

/-- The batches are done, and these are their diagnostics. -/
inductive Completes (s : Surroundings) : List LinterCall → List Batch → List Diagnostic → Prop where
  | nil (before : List LinterCall) : Completes s before [] []
  | cons {before : List LinterCall} {t : Batch} {ts : List Batch} {reports : List Report}
      {told more : List Diagnostic} (collected : (s.collect before t.steps).result = .ok reports)
      (said : s.verdicts t.delimiter reports = told.map .ok)
      (rest : Completes s (before ++ t.calls) ts more) :
      Completes s before (t :: ts) (told ++ more)

/-- The batches before one are done with these diagnostics, and then its reports cannot be
collected. -/
def FailsCollecting (s : Surroundings) (batches earlier : List Batch) (batch : Batch)
    (told : List Diagnostic) (f : Failure) : Prop :=
  (∃ later, batches = earlier ++ batch :: later) ∧ Completes s [] earlier told ∧
    (s.collect (plan earlier) batch.steps).result = .error f

/-- The batches before one are done, and then one of its messages fails.  The diagnostics are those
of the batches before it and those of its messages before this one. -/
def FailsTelling (s : Surroundings) (batches earlier : List Batch) (batch : Batch)
    (told : List Diagnostic) (f : Failure) : Prop :=
  (∃ later, batches = earlier ++ batch :: later) ∧
    ∃ before here : List Diagnostic, told = before ++ here ∧ Completes s [] earlier before ∧
      ∃ reports rest, (s.collect (plan earlier) batch.steps).result = .ok reports ∧
        s.verdicts batch.delimiter reports = here.map .ok ++ .error f :: rest

section Endings

variable {s : Surroundings}

/-- Batches that are done have made all of their calls and written all of their diagnostics. -/
theorem Completes.inTurn_eq {before : List LinterCall} {ts : List Batch} {told : List Diagnostic}
    (h : Completes s before ts told) (o : RunOptions) :
    Account.inTurn (· + ·) 0 (Batch.account o s) before ts =
      ⟨.ok told.length, plan ts, told.map o.line⟩ := by
  induction h with
  | nil before => rfl
  | @cons before t ts reports told more hcollected hsaid _ ih =>
    have haccount : t.account o s before = ⟨.ok told.length, t.calls, told.map o.line⟩ := by
      rw [Batch.account_of_collected hcollected, hsaid, o.tellAll_map_ok]
    rw [Account.inTurn_cons, haccount, Account.andThen_of_ok rfl, ih]
    simp only [Account.map, Except.map, plan, List.flatMap_cons, List.length_append,
      List.map_append]

/-- A failure behind batches that are done ends everything, and what has been done stays. -/
theorem Completes.inTurn_of_error {earlier : List Batch} {told : List Diagnostic}
    (h : Completes s [] earlier told) (o : RunOptions) {batch : Batch} {f : Failure}
    {calls : List LinterCall} {lines : List String}
    (hbatch : batch.account o s (plan earlier) = ⟨.error f, calls, lines⟩) (later : List Batch) :
    Account.inTurn (· + ·) 0 (Batch.account o s) [] (earlier ++ batch :: later) =
      ⟨.error f, plan earlier ++ calls, told.map o.line ++ lines⟩ := by
  rw [Account.inTurn_append, h.inTurn_eq o, Account.andThen_of_ok rfl, List.nil_append,
    Account.inTurn, hbatch]
  rfl

theorem FailsCollecting.inTurn_eq {batches earlier : List Batch} {batch : Batch}
    {told : List Diagnostic} {f : Failure} (h : FailsCollecting s batches earlier batch told f)
    (o : RunOptions) :
    ∃ started, started <+: batch.calls ∧
      Account.inTurn (· + ·) 0 (Batch.account o s) [] batches =
        ⟨.error f, plan earlier ++ started, told.map o.line⟩ := by
  obtain ⟨⟨later, rfl⟩, hearlier, hcollect⟩ := h
  refine ⟨_, (s.calls_collect (plan earlier) batch).1, ?_⟩
  rw [hearlier.inTurn_of_error o (Batch.account_of_collecting hcollect), List.append_nil]

theorem FailsTelling.inTurn_eq {batches earlier : List Batch} {batch : Batch}
    {told : List Diagnostic} {f : Failure} (h : FailsTelling s batches earlier batch told f)
    (o : RunOptions) :
    Account.inTurn (· + ·) 0 (Batch.account o s) [] batches =
      ⟨.error f, plan (earlier ++ [batch]), told.map o.line⟩ := by
  obtain ⟨⟨later, rfl⟩, before, here, rfl, hearlier, reports, rest, hcollect, hsaid⟩ := h
  have hbatch : batch.account o s (plan earlier) = ⟨.error f, batch.calls, here.map o.line⟩ := by
    rw [Batch.account_of_collected hcollect, hsaid, o.tellAll_append_error]
  rw [hearlier.inTurn_of_error o hbatch, plan_append, plan_singleton, List.map_append]

/-- Any batches are done, or one of them fails behind others that are done. -/
theorem completes_or_fails (before : List LinterCall) (batches : List Batch) :
    ∃ told, Completes s before batches told ∨
      ∃ earlier batch later, batches = earlier ++ batch :: later ∧
        Completes s before earlier told ∧
        ((∃ f, (s.collect (before ++ plan earlier) batch.steps).result = .error f) ∨
          ∃ reports, ∃ here : List Diagnostic, ∃ f rest,
            (s.collect (before ++ plan earlier) batch.steps).result = .ok reports ∧
            s.verdicts batch.delimiter reports = here.map .ok ++ .error f :: rest) := by
  induction batches generalizing before with
  | nil => exact ⟨[], .inl (.nil before)⟩
  | cons t ts ih =>
    -- the first batch fails in one of its two phases, or the others decide
    cases hcollected : (s.collect before t.steps).result with
    | error f =>
      refine ⟨[], .inr ⟨[], t, ts, rfl, .nil before, .inl ⟨f, ?_⟩⟩⟩
      rwa [plan, List.flatMap_nil, List.append_nil]
    | ok reports =>
      obtain ⟨here, hsaid | ⟨f, rest, hsaid⟩⟩ := exists_told (s.verdicts t.delimiter reports)
      · obtain ⟨more, hmore | ⟨earlier, batch, later, rfl, hearlier, hfails⟩⟩ :=
          ih (before ++ t.calls)
        · exact ⟨here ++ more, .inl (.cons hcollected hsaid hmore)⟩
        · rw [List.append_assoc, ← plan_singleton, ← plan_append, List.singleton_append] at hfails
          exact ⟨here ++ more, .inr ⟨t :: earlier, batch, later, rfl,
            .cons hcollected hsaid hearlier, hfails⟩⟩
      · refine ⟨[], .inr ⟨[], t, ts, rfl, .nil before, .inr ⟨reports, here, f, rest, ?_, hsaid⟩⟩⟩
        rwa [plan, List.flatMap_nil, List.append_nil]

/-- There is no other way to end. -/
theorem exists_ending (s : Surroundings) (batches : List Batch) :
    (∃ told, Completes s [] batches told) ∨
      (∃ earlier batch told f, FailsCollecting s batches earlier batch told f) ∨
      ∃ earlier batch told f, FailsTelling s batches earlier batch told f := by
  obtain ⟨told, h | ⟨earlier, batch, later, hsplit, hearlier, ⟨f, hcollect⟩ |
    ⟨reports, here, f, rest, hcollect, hsaid⟩⟩⟩ := completes_or_fails (s := s) [] batches
  · exact .inl ⟨told, h⟩
  · exact .inr (.inl ⟨earlier, batch, told, f, ⟨later, hsplit⟩, hearlier, hcollect⟩)
  · exact .inr (.inr ⟨earlier, batch, told ++ here, f, ⟨later, hsplit⟩, told, here, rfl, hearlier,
      reports, rest, hcollect, hsaid⟩)

end Endings

namespace RunOptions

/-- **How runs end.**  What others see of a run is what the reference says.  The calls are made as
planned, up to a failure.  When all batches are done, the result is the number of diagnostics.  When
the reports of a batch cannot be collected, the output holds the diagnostics of the batches before
it; when one of its messages fails, also those of the messages before this one, and nothing more has
been started.  One of these is always the case. -/
theorem run_endings (o : RunOptions) (s : Surroundings) :
    (o.run s).run.account = o.reference s ∧
      (o.run s).run.output = String.join (o.reference s).lines ∧
      ∀ settings, Settings.load s.files (s.pathOf o.settingsFile) = .ok settings →
        (o.run s).run.calls <+: plan (settings.batches o s) ∧
        (∀ told, Completes s [] (settings.batches o s) told →
          (o.run s).run.account =
            ⟨.ok told.length, plan (settings.batches o s), told.map o.line⟩) ∧
        (∀ earlier batch told f,
          FailsCollecting s (settings.batches o s) earlier batch told f →
          ∃ started, started <+: batch.calls ∧
            (o.run s).run.account = ⟨.error f, plan earlier ++ started, told.map o.line⟩) ∧
        (∀ earlier batch told f,
          FailsTelling s (settings.batches o s) earlier batch told f →
          (o.run s).run.account =
            ⟨.error f, plan (earlier ++ [batch]), told.map o.line⟩) ∧
        ((∃ told, Completes s [] (settings.batches o s) told) ∨
          (∃ earlier batch told f,
            FailsCollecting s (settings.batches o s) earlier batch told f) ∨
          ∃ earlier batch told f,
            FailsTelling s (settings.batches o s) earlier batch told f) := by
  have haccount := o.account_run s
  refine ⟨haccount, congrArg (fun a : Account Nat => String.join a.lines) haccount,
    fun settings hload => ?_⟩
  rw [reference_of_ok hload] at haccount
  refine ⟨?_, fun told h => ?_, fun earlier batch told f h => ?_, fun earlier batch told f h => ?_,
    exists_ending s _⟩
  · show (o.run s).run.account.calls <+: _
    rw [haccount]
    exact o.calls_batches s [] (settings.batches o s)
  · exact haccount.trans (h.inTurn_eq o)
  · obtain ⟨started, hstarted, heq⟩ := h.inTurn_eq o
    exact ⟨started, hstarted, haccount.trans heq⟩
  · exact haccount.trans (h.inTurn_eq o)

end RunOptions

/-- The bytes of an ASCII text. -/
def asciiBytes (text : String) : List UInt8 := text.toList.map fun c => c.toNat.toUInt8

/-- A folder with the file `a`, in which conftest finds something and kubeval is gone after its
first call. -/
def vanishing : Surroundings where
  files := .folder
    [("a", .file (asciiBytes "k: 1")),
      ("s", .file (asciiBytes "conftest:\n- files: [a]\nkubeval:\n- files: [a, a]"))]
  folder := ""
  answer := fun before call =>
    match call.linter, before.length with
    | .conftest, _ =>
      some ⟨asciiBytes
        "[\x7b\"filename\": \"a\", \"failures\": [\x7b\"msg\": \"k: no\"\x7d]\x7d]", [], 1⟩
    | .kubeval, 1 => some ⟨asciiBytes "[\x7b\"errors\": [\"k: bad\"]\x7d]", [], 1⟩
    | .kubeval, _ => none

theorem eq_ok_of_toOption {ε α : Type} {x : Except ε α} {a : α} (h : x.toOption = some a) :
    x = .ok a := by
  cases x with
  | error e => cases h
  | ok b => rw [Option.some.inj h]

theorem exists_eq_error_of_toOption {ε α : Type} {x : Except ε α} (h : x.toOption = none) :
    ∃ e, x = .error e := by
  cases x with
  | error e => exact ⟨e, rfl⟩
  | ok b => cases h

namespace RunOptions

/-- What conftest has found is printed.  What kubeval has found in its first call is not, since its
second call fails. -/
theorem run_endings_of_vanishing :
    ∃ f started, started <+: [⟨.kubeval, ["a", "-o", "json"]⟩, ⟨.kubeval, ["a", "-o", "json"]⟩] ∧
      (run ⟨"s", "%f:%l:%c: %m", ": "⟩ vanishing).run.account =
        ⟨.error f, ⟨.conftest, ["test", "a", "-p", "", "-o", "json"]⟩ :: started,
          ["a:1:4: no\n"]⟩ := by
  let o : RunOptions := ⟨"s", "%f:%l:%c: %m", ": "⟩
  let settings : Settings := ⟨[⟨["a"], "", none, false, false, [], false, []⟩],
    [⟨["a", "a"], false, [], false, [], []⟩]⟩
  have hload : Settings.load vanishing.files (vanishing.pathOf "s") = .ok settings :=
    eq_ok_of_toOption (by decide +kernel)
  let policies : Batch := ⟨["a"].flatMap (settings.conftest[0].steps vanishing), ": "⟩
  let schemas : Batch := ⟨["a", "a"].flatMap (settings.kubeval[0].steps vanishing), ": "⟩
  have hpolicies : (vanishing.collect [] policies.steps).result = .ok [⟨"a", ["k: no"]⟩] :=
    eq_ok_of_toOption (by decide +kernel)
  have hplan : plan [policies] = [⟨.conftest, ["test", "a", "-p", "", "-o", "json"]⟩] := by
    decide +kernel
  have hresolve : (Document.resolve vanishing.files (vanishing.pathOf "a") ("$." ++ "k")).result =
      .ok ⟨1, 4⟩ := eq_ok_of_toOption (by decide +kernel)
  have hsplit : splitMessage ": " "k: no" = some ("k", "no") := by decide +kernel
  have hsaid : vanishing.verdicts ": " [⟨"a", ["k: no"]⟩] = [⟨"a", ⟨1, 4⟩, "no"⟩].map .ok := by
    simp only [Surroundings.verdicts, Surroundings.verdictsOf, List.flatMap_cons,
      List.flatMap_nil, List.filterMap_cons_some hsplit, List.filterMap_nil, List.map_cons,
      List.map_nil, Surroundings.verdict, hresolve]
    rfl
  obtain ⟨f, hschemas⟩ : ∃ f, (vanishing.collect (plan [policies]) schemas.steps).result =
      .error f := exists_eq_error_of_toOption (by rw [hplan]; decide +kernel)
  have hfails : FailsCollecting vanishing (settings.batches o vanishing) [policies] schemas
      ([⟨"a", ⟨1, 4⟩, "no"⟩] ++ []) f :=
    ⟨⟨[], rfl⟩, .cons hpolicies hsaid (.nil _), hschemas⟩
  obtain ⟨started, hstarted, haccount⟩ :=
    ((run_endings o vanishing).2.2 settings hload).2.2.1 _ _ _ _ hfails
  have hcalls : schemas.calls =
      [⟨.kubeval, ["a", "-o", "json"]⟩, ⟨.kubeval, ["a", "-o", "json"]⟩] := by decide +kernel
  have hline : o.line ⟨"a", ⟨1, 4⟩, "no"⟩ = "a:1:4: no\n" := by decide +kernel
  refine ⟨f, started, hcalls ▸ hstarted, ?_⟩
  rw [haccount, hplan, List.append_nil, List.map_cons, List.map_nil, hline, List.singleton_append]

end RunOptions
end LintLocator
