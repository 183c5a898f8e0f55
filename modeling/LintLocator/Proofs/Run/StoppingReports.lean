import LintLocator.Proofs.Run.Account
import LintLocator.Proofs.Text.Splitting
import LintLocator.Run.Reporting

/-!
# Where a report stops

A report goes through its messages one by one.  A message without the delimiter leaves a warning.
Any other message is cut at the first delimiter, its fragment is looked up, and a line is written.
The first message for which one of the two is not possible ends the report: what has been written
stays, and the messages behind it leave no trace at all.

A report changes nothing but the trace.  The options and the surroundings are what it is given, and
they are no part of what it hands back, so the whole effect of a report is in its `Progress`.

* `CutsInto`: the two parts of a message;
* `Passes`, `Fails`: what one message leaves, without and with a failure;
* `PassesAll`: what messages leave that do not end the report;
* `passes_or_fails`, `exists_first_failure`: there is no other way;
* `printReport_stops_at_first_failure`: the result, the trace and the output of a report.
-/

namespace LintLocator

/-! ## Work on the members of a list -/

namespace Work

variable {α β : Type}

theorem bind_pure_apply (w : Work α) (g : α → β) (past : List RunEvent) :
    (w >>= fun a => pure (g a)) past = ⟨(w past).result.map g, (w past).trace⟩ := by
  cases h : (w past).result with
  | error f =>
    rw [bind_apply_of_error h]
    rfl
  | ok a =>
    rw [bind_apply_of_ok h, pure_apply, List.append_nil]
    rfl

variable {f : α → Work Nat} {a : α} {past trace : List RunEvent}

/-- A member that comes to a number is counted, and the others go on behind its trace. -/
theorem total_cons_of_ok {n : Nat} (h : f a past = ⟨.ok n, trace⟩) (as : List α) :
    total f (a :: as) past =
      ⟨(total f as (past ++ trace)).result.map (n + ·),
        trace ++ (total f as (past ++ trace)).trace⟩ := by
  have hresult : (f a past).result = .ok n := by rw [h]
  rw [total, each_cons_bind, bind_apply_of_ok hresult, h, bind_pure_apply, total, bind_pure_apply]
  cases (each f as (past ++ trace)).result <;> rfl

/-- A member that fails is the last one. -/
theorem total_cons_of_error {g : Failure} (h : f a past = ⟨.error g, trace⟩) (as : List α) :
    total f (a :: as) past = ⟨.error g, trace⟩ := by
  have hresult : (f a past).result = .error g := by rw [h]
  rw [total, each_cons_bind, bind_apply_of_error hresult, h]

end Work

namespace RunOptions

/-! ## The parts of a message -/

/-- The message is cut where the delimiter occurs first: the fragment is the shortest text in the
message that the delimiter stands behind. -/
structure CutsInto (delimiter message fragment text : String) : Prop where
  whole : fragment ++ delimiter ++ text = message
  first : ∀ fragment' text', fragment' ++ delimiter ++ text' = message →
    fragment.length ≤ fragment'.length

section Parts

variable {delimiter message fragment text : String}

theorem splitMessage_eq_some_iff :
    splitMessage delimiter message = some (fragment, text) ↔
      CutsInto delimiter message fragment text := by
  unfold splitMessage
  rw [Option.map_eq_some_iff]
  constructor
  · rintro ⟨⟨p, r⟩, hcut, hparts⟩
    obtain ⟨rfl, rfl⟩ := Prod.mk.inj hparts
    obtain ⟨hwhole, hfirst⟩ := Text.shortest_of_breakOn hcut
    refine ⟨String.toList_inj.mp (by simpa using hwhole.symm), fun fragment' text' h => ?_⟩
    rw [String.length_ofList, ← String.length_toList]
    exact hfirst fragment'.toList text'.toList (by simp [← h])
  · rintro ⟨rfl, hfirst⟩
    refine ⟨(fragment.toList, text.toList), Text.breakOn_eq_some_iff_shortest.mpr
      ⟨by simp, fun p' r' h => ?_⟩, by simp⟩
    rw [String.length_toList, ← String.length_ofList]
    exact hfirst (String.ofList p') (String.ofList r')
      (String.toList_inj.mp (by simpa using h.symm))

theorem splitMessage_eq_none_iff :
    splitMessage delimiter message = none ↔ ¬ delimiter.toList <:+: message.toList := by
  rw [splitMessage, Option.map_eq_none_iff, Text.breakOn_eq_none_iff]

/-- A message in which the delimiter occurs can be cut. -/
theorem exists_cutsInto_iff :
    (∃ fragment text, CutsInto delimiter message fragment text) ↔
      delimiter.toList <:+: message.toList := by
  constructor
  · rintro ⟨fragment, text, rfl, -⟩
    exact ⟨fragment.toList, text.toList, by simp⟩
  · intro h
    obtain ⟨parts, hparts⟩ := Option.ne_none_iff_exists'.mp fun hnone =>
      splitMessage_eq_none_iff.mp hnone h
    exact ⟨parts.1, parts.2, splitMessage_eq_some_iff.mp hparts⟩

/-- There is only one way to cut a message. -/
theorem CutsInto.eq_and_eq {fragment' text' : String} (h : CutsInto delimiter message fragment text)
    (h' : CutsInto delimiter message fragment' text') : fragment = fragment' ∧ text = text' := by
  have hsame := (splitMessage_eq_some_iff.mpr h).symm.trans (splitMessage_eq_some_iff.mpr h')
  exact Prod.mk.inj (Option.some.inj hsame)

end Parts

/-! ## What one message leaves -/

/-- What a message leaves that does not end the report: the diagnostics that it becomes, at most one
of them, and its trace. -/
inductive Passes (o : RunOptions) (s : Surroundings) (filename delimiter : String) :
    (message : String) → List Diagnostic → List RunEvent → Prop where
  /-- Without the delimiter there is a warning and nothing else. -/
  | ignored {message : String} (h : ∀ fragment text, fragment ++ delimiter ++ text ≠ message) :
      Passes o s filename delimiter message []
        [.noted (.warn ("ignoring unsupported output: " ++ message))]
  /-- The fragment leads somewhere, and a line is written. -/
  | told {message fragment text : String} {position : Position} {log : List LogEntry}
      (cut : CutsInto delimiter message fragment text)
      (found : Document.resolve s.files (s.pathOf filename) ("$." ++ fragment) = ⟨.ok position, log⟩)
      (writable : s.writable = true) :
      Passes o s filename delimiter message [⟨filename, position, text⟩]
        (log.map .noted ++
          [.wrote (Diagnostic.format ⟨filename, position, text⟩ o.template ++ "\n")])

/-- What a message leaves that ends the report: a failure and its trace. -/
inductive Fails (s : Surroundings) (filename delimiter : String) :
    (message : String) → Failure → List RunEvent → Prop where
  /-- The fragment leads nowhere. -/
  | unresolved {message fragment text : String} {e : LocateError} {log : List LogEntry}
      (cut : CutsInto delimiter message fragment text)
      (lost : Document.resolve s.files (s.pathOf filename) ("$." ++ fragment) = ⟨.error e, log⟩) :
      Fails s filename delimiter message ⟨[.processing fragment], .notLocated e⟩ (log.map .noted)
  /-- The fragment leads somewhere, but the output takes no line. -/
  | unwritten {message fragment text : String} {position : Position} {log : List LogEntry}
      (cut : CutsInto delimiter message fragment text)
      (found : Document.resolve s.files (s.pathOf filename) ("$." ++ fragment) = ⟨.ok position, log⟩)
      (closed : s.writable = false) :
      Fails s filename delimiter message ⟨[.printing text], .outputClosed⟩ (log.map .noted)

/-- The fragment leads somewhere, and what is said can be written. -/
def Succeeds (s : Surroundings) (filename fragment : String) : Prop :=
  (∃ position, (Document.resolve s.files (s.pathOf filename) ("$." ++ fragment)).result =
    .ok position) ∧ s.writable = true

section Message

variable {o : RunOptions} {s : Surroundings} {filename delimiter message : String}

theorem locate_apply {fragment : String} {result : Except LocateError Position}
    {log : List LogEntry}
    (h : Document.resolve s.files (s.pathOf filename) ("$." ++ fragment) = ⟨result, log⟩)
    (past : List RunEvent) :
    locate s filename fragment past =
      ⟨result.mapError fun e => ⟨[.processing fragment], .notLocated e⟩, log.map .noted⟩ := by
  unfold locate
  rw [h]
  rfl

theorem print_within_of_writable (hw : s.writable = true) (d : Diagnostic) (a : Activity)
    (past : List RunEvent) :
    (o.print s d).within a past = ⟨.ok (), [.wrote (d.format o.template ++ "\n")]⟩ := by
  unfold print Surroundings.write
  rw [if_pos hw]
  rfl

theorem print_within_of_closed (hw : s.writable = false) (d : Diagnostic) (a : Activity)
    (past : List RunEvent) :
    (o.print s d).within a past = ⟨.error ⟨[a], .outputClosed⟩, []⟩ := by
  unfold print Surroundings.write
  rw [if_neg (by simp [hw])]
  rfl

/-- The fragment of a message is looked up before its text is written. -/
theorem printMessage_of_cutsInto {fragment text : String}
    (h : CutsInto delimiter message fragment text) :
    o.printMessage s filename delimiter message =
      (locate s filename fragment >>= fun position =>
        (o.print s ⟨filename, position, text⟩).within (.printing text) >>= fun _ => pure 1) := by
  unfold printMessage
  rw [splitMessage_eq_some_iff.mpr h]

/-- A message that passes is told, or passed over, whatever has happened before. -/
theorem Passes.printMessage_eq {told : List Diagnostic} {trace : List RunEvent}
    (h : Passes o s filename delimiter message told trace) (past : List RunEvent) :
    o.printMessage s filename delimiter message past = ⟨.ok told.length, trace⟩ := by
  cases h with
  | ignored h =>
    have hnone : splitMessage delimiter message = none := by
      rw [splitMessage_eq_none_iff, ← exists_cutsInto_iff]
      rintro ⟨fragment, text, hcut⟩
      exact h fragment text hcut.whole
    rw [printMessage, hnone]
    rfl
  | @told fragment text position log cut found writable =>
    have hlocate := locate_apply found past
    have hprint := print_within_of_writable (o := o) writable ⟨filename, position, text⟩
      (.printing text) (past ++ log.map .noted)
    rw [printMessage_of_cutsInto cut, Work.bind_apply_of_ok (by rw [hlocate]; rfl), hlocate]
    simp only [Work.bind_apply_of_ok (congrArg Progress.result hprint), hprint, Work.pure_apply,
      List.append_nil, List.length_singleton]

theorem Fails.printMessage_eq {f : Failure} {trace : List RunEvent}
    (h : Fails s filename delimiter message f trace) (past : List RunEvent) :
    o.printMessage s filename delimiter message past = ⟨.error f, trace⟩ := by
  cases h with
  | @unresolved fragment _ e log cut lost =>
    have hlocate := locate_apply lost past
    rw [printMessage_of_cutsInto cut, Work.bind_apply_of_error (by rw [hlocate]; rfl), hlocate]
  | @unwritten fragment text position log cut found closed =>
    have hlocate := locate_apply found past
    have hprint := print_within_of_closed (o := o) closed ⟨filename, position, text⟩
      (.printing text) (past ++ log.map .noted)
    rw [printMessage_of_cutsInto cut, Work.bind_apply_of_ok (by rw [hlocate]; rfl), hlocate]
    simp only [Work.bind_apply_of_error (congrArg Progress.result hprint), hprint, List.append_nil]

/-- Every message passes or fails. -/
theorem passes_or_fails (o : RunOptions) (s : Surroundings) (filename delimiter message : String) :
    (∃ told trace, Passes o s filename delimiter message told trace) ∨
      ∃ f trace, Fails s filename delimiter message f trace := by
  by_cases hdelimited : delimiter.toList <:+: message.toList
  · obtain ⟨fragment, text, hcut⟩ := exists_cutsInto_iff.mpr hdelimited
    cases hresolve : Document.resolve s.files (s.pathOf filename) ("$." ++ fragment) with
    | mk result log =>
      cases result with
      | error e => exact .inr ⟨_, _, .unresolved hcut hresolve⟩
      | ok position =>
        by_cases hw : s.writable = true
        · exact .inl ⟨_, _, .told hcut hresolve hw⟩
        · exact .inr ⟨_, _, .unwritten hcut hresolve (by simpa using hw)⟩
  · refine .inl ⟨_, _, .ignored fun fragment text h => hdelimited ?_⟩
    exact ⟨fragment.toList, text.toList, by simp [← h]⟩

/-- A message that passes and has the delimiter succeeds. -/
theorem Passes.succeeds {told : List Diagnostic} {trace : List RunEvent}
    (h : Passes o s filename delimiter message told trace) {fragment text : String}
    (hcut : CutsInto delimiter message fragment text) : Succeeds s filename fragment := by
  cases h with
  | ignored h => exact absurd hcut.whole (h fragment text)
  | told cut found writable =>
    obtain ⟨rfl, -⟩ := cut.eq_and_eq hcut
    exact ⟨⟨_, congrArg Outcome.result found⟩, writable⟩

/-- A message that fails has the delimiter and does not succeed.  Its failure begins with what was
done to one of its parts. -/
theorem Fails.exists_cutsInto {f : Failure} {trace : List RunEvent}
    (h : Fails s filename delimiter message f trace) :
    ∃ fragment text, CutsInto delimiter message fragment text ∧
      ¬ Succeeds s filename fragment ∧ f.chain.head? = some
        (if (Document.resolve s.files (s.pathOf filename) ("$." ++ fragment)).result.isOk
          then "printing " ++ text else "processing " ++ fragment) := by
  cases h with
  | unresolved cut lost =>
    refine ⟨_, _, cut, ?_, ?_⟩
    · rintro ⟨⟨position, hfound⟩, -⟩
      rw [lost] at hfound
      cases hfound
    · rw [lost]
      rfl
  | unwritten cut found closed =>
    refine ⟨_, _, cut, ?_, ?_⟩
    · rintro ⟨-, hw⟩
      rw [closed] at hw
      cases hw
    · rw [found]
      rfl

/-- One diagnostic is told for a message with the delimiter, and none for another one. -/
theorem Passes.length_eq {told : List Diagnostic} {trace : List RunEvent}
    (h : Passes o s filename delimiter message told trace) :
    told.length = if delimiter.toList <:+: message.toList then 1 else 0 := by
  cases h with
  | ignored h =>
    rw [if_neg]
    · rfl
    · rintro hdelimited
      obtain ⟨fragment, text, hcut⟩ := exists_cutsInto_iff.mpr hdelimited
      exact h fragment text hcut.whole
  | told cut found writable =>
    rw [if_pos (exists_cutsInto_iff.mp ⟨_, _, cut⟩)]
    rfl

theorem texts_noted (log : List LogEntry) :
    (log.map RunEvent.noted).filterMap RunEvent.text? = [] := by
  simp [RunEvent.text?]

theorem Passes.texts {told : List Diagnostic} {trace : List RunEvent}
    (h : Passes o s filename delimiter message told trace) :
    trace.filterMap RunEvent.text? = told.map fun d => d.format o.template ++ "\n" := by
  cases h with
  | ignored => rfl
  | told cut found writable =>
    rw [List.filterMap_append, texts_noted]
    rfl

theorem Fails.texts {f : Failure} {trace : List RunEvent}
    (h : Fails s filename delimiter message f trace) : trace.filterMap RunEvent.text? = [] := by
  cases h with
  | unresolved => exact texts_noted _
  | unwritten => exact texts_noted _

end Message

/-! ## What all messages leave -/

/-- What messages leave none of which ends the report. -/
inductive PassesAll (o : RunOptions) (s : Surroundings) (filename delimiter : String) :
    (messages : List String) → List Diagnostic → List RunEvent → Prop where
  | nil : PassesAll o s filename delimiter [] [] []
  | cons {message : String} {messages : List String} {here later : List Diagnostic}
      {trace more : List RunEvent} (first : Passes o s filename delimiter message here trace)
      (rest : PassesAll o s filename delimiter messages later more) :
      PassesAll o s filename delimiter (message :: messages) (here ++ later) (trace ++ more)

section Messages

variable {o : RunOptions} {s : Surroundings} {filename delimiter : String}
  {messages : List String} {told : List Diagnostic} {trace : List RunEvent}

theorem PassesAll.total_eq (h : PassesAll o s filename delimiter messages told trace)
    (past : List RunEvent) :
    Work.total (o.printMessage s filename delimiter) messages past = ⟨.ok told.length, trace⟩ := by
  induction h generalizing past with
  | nil => rfl
  | cons first rest ih =>
    rw [Work.total_cons_of_ok (first.printMessage_eq past), ih, List.length_append]
    rfl

/-- The first message that fails ends the report. -/
theorem PassesAll.total_of_fails (h : PassesAll o s filename delimiter messages told trace)
    {message : String} {f : Failure} {last : List RunEvent}
    (hfails : Fails s filename delimiter message f last) (later : List String)
    (past : List RunEvent) :
    Work.total (o.printMessage s filename delimiter) (messages ++ message :: later) past =
      ⟨.error f, trace ++ last⟩ := by
  induction h generalizing past with
  | nil => exact Work.total_cons_of_error (hfails.printMessage_eq past) later
  | cons first rest ih =>
    rw [List.cons_append, Work.total_cons_of_ok (first.printMessage_eq past), ih,
      List.append_assoc]
    rfl

/-- Messages all pass, or they pass up to the first one that fails. -/
theorem exists_first_failure (o : RunOptions) (s : Surroundings) (filename delimiter : String)
    (messages : List String) :
    (∃ told trace, PassesAll o s filename delimiter messages told trace) ∨
      ∃ before message later told trace f last, messages = before ++ message :: later ∧
        PassesAll o s filename delimiter before told trace ∧
        Fails s filename delimiter message f last := by
  induction messages with
  | nil => exact .inl ⟨[], [], .nil⟩
  | cons message messages ih =>
    obtain ⟨here, trace, hpasses⟩ | ⟨f, last, hfails⟩ :=
      passes_or_fails o s filename delimiter message
    · obtain ⟨told, more, hrest⟩ | ⟨before, m, later, told, more, f, last, rfl, hrest, hfails⟩ := ih
      · exact .inl ⟨_, _, .cons hpasses hrest⟩
      · exact .inr ⟨message :: before, m, later, _, _, f, last, rfl, .cons hpasses hrest, hfails⟩
    · exact .inr ⟨[], message, messages, [], [], f, last, rfl, .nil, hfails⟩

theorem PassesAll.succeeds (h : PassesAll o s filename delimiter messages told trace) :
    ∀ message ∈ messages, ∀ fragment text, CutsInto delimiter message fragment text →
      Succeeds s filename fragment := by
  induction h with
  | nil => exact fun _ hmem => nomatch hmem
  | cons first rest ih => exact List.forall_mem_cons.mpr ⟨fun _ _ => first.succeeds, ih⟩

/-- One diagnostic is told for each message with the delimiter. -/
theorem PassesAll.length_eq (h : PassesAll o s filename delimiter messages told trace) :
    told.length = messages.countP fun message => delimiter.toList <:+: message.toList := by
  induction h with
  | nil => rfl
  | cons first rest ih =>
    rw [List.length_append, first.length_eq, ih, List.countP_cons, Nat.add_comm]
    simp only [decide_eq_true_eq]

/-- The lines that are written are those of the diagnostics, in their order. -/
theorem PassesAll.texts (h : PassesAll o s filename delimiter messages told trace) :
    trace.filterMap RunEvent.text? = told.map fun d => d.format o.template ++ "\n" := by
  induction h with
  | nil => rfl
  | cons first rest ih => rw [List.filterMap_append, first.texts, ih, List.map_append]

end Messages

/-- **A report stops at the first message that fails.**  It comes to a number just if every message
with the delimiter succeeds, and then it is the number of these messages, one line is written for
each of them, in their order, and one warning is noted for each of the others.  Otherwise the first
message that fails gives the failure, which begins with what was done to its fragment or to its
text.  The messages before it leave what they would leave anyway, the message itself leaves what was
noted when its fragment was looked up, and what stands behind it has no influence. -/
theorem printReport_stops_at_first_failure (o : RunOptions) (s : Surroundings) (delimiter : String)
    (r : Report) (past : List RunEvent) :
    let p := o.printReport s delimiter r past
    (∀ n, p.result = .ok n ↔
      (∀ message ∈ r.messages, ∀ fragment text, CutsInto delimiter message fragment text →
        Succeeds s r.filename fragment) ∧
      n = r.messages.countP fun message => delimiter.toList <:+: message.toList) ∧
    (∀ n, p.result = .ok n → ∃ told, told.length = n ∧
      PassesAll o s r.filename delimiter r.messages told p.trace ∧
      p.output = String.join (told.map fun d => d.format o.template ++ "\n")) ∧
    (∀ f, p.result = .error f → ∃ before message later told trace last,
      r.messages = before ++ message :: later ∧
      PassesAll o s r.filename delimiter before told trace ∧
      Fails s r.filename delimiter message f last ∧
      (∃ fragment text, CutsInto delimiter message fragment text ∧ f.chain.head? = some
        (if (Document.resolve s.files (s.pathOf r.filename) ("$." ++ fragment)).result.isOk
          then "printing " ++ text else "processing " ++ fragment)) ∧
      p.trace = trace ++ last ∧
      p.output = String.join (told.map fun d => d.format o.template ++ "\n") ∧
      ∀ later' past',
        o.printReport s delimiter ⟨r.filename, before ++ message :: later'⟩ past' = p) := by
  intro p
  obtain ⟨filename, messages⟩ := r
  obtain ⟨told, trace, hall⟩ | ⟨before, message, later, told, trace, f, last, rfl, hall, hfails⟩ :=
    exists_first_failure o s filename delimiter messages
  · have hp : p = ⟨.ok told.length, trace⟩ := hall.total_eq past
    rw [hp]
    refine ⟨fun n => ?_, fun n hn => ?_, fun f hf => nomatch hf⟩
    · rw [← hall.length_eq]
      exact ⟨fun h => ⟨hall.succeeds, (Except.ok.inj h).symm⟩, fun h => congrArg Except.ok h.2.symm⟩
    · exact ⟨told, Except.ok.inj hn, hall, congrArg String.join hall.texts⟩
  · have hp : ∀ later' past', o.printReport s delimiter ⟨filename, before ++ message :: later'⟩
        past' = ⟨.error f, trace ++ last⟩ := hall.total_of_fails hfails
    obtain ⟨fragment, text, hcut, hnot, hhead⟩ := hfails.exists_cutsInto
    have htexts : (trace ++ last).filterMap RunEvent.text? =
        told.map fun d => d.format o.template ++ "\n" := by
      rw [List.filterMap_append, hall.texts, hfails.texts, List.append_nil]
    rw [show p = _ from hp later past]
    refine ⟨fun n => ⟨fun h => (nomatch h), fun h => ?_⟩, fun n hn => (nomatch hn), ?_⟩
    · exact absurd (h.1 message (by simp) fragment text hcut) hnot
    · rintro f' ⟨⟩
      exact ⟨before, message, later, told, trace, last, rfl, hall, hfails,
        ⟨fragment, text, hcut, hhead⟩, rfl, congrArg String.join htexts, hp⟩

/-- The third message fails.  The first one has been written, and the last one, which would succeed,
is not looked at. -/
example :
    let files : FileTree := .folder [("a", .file ("k: 1".toList.map fun c => c.toNat.toUInt8))]
    let p := printReport {} ⟨files, "", fun _ _ => none, true⟩ ": "
      ⟨"a", ["k: x: y", "k", "z: y", "k: z"]⟩ []
    p.output = "a:1:4: x: y\n" ∧ p.log.map LogEntry.level = [.warn, .debug] := by
  decide +kernel

end RunOptions
end LintLocator
