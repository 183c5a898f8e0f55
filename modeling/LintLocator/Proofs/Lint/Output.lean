import LintLocator.Lint.Decoding
import LintLocator.Proofs.Json.Fields

/-!
# What linters write and what is read in it

A linter writes an array with an object for each thing it has looked at.  `ConftestResult.IsWritten`
and `KubevalResult.IsWritten` say what such an object may look like: its fields come in any order,
others may stand among them, and a list that is empty may be left out.  However an output is
written, there is one report for each of its objects, in their order, with all of the messages.

An output of conftest is read in the same way whether warnings count or not, so warnings can only
add messages at the end of a report.
-/

namespace LintLocator

open Json (Term Blanks TextAt TextAtOrEmpty ListAt document)

/-! ## Objects as they may be written -/

namespace ConftestResult

/-- A finding is an object with a message. -/
def IsFinding (t : Term) (msg : String) : Prop := ∃ ms, t.IsObjectOf ms ∧ TextAt ms "msg" msg

/-- The members of an object for a result. -/
structure HasFields (ms : List (String × Term)) (r : ConftestResult) : Prop where
  filename : TextAt ms "filename" r.filename
  warnings : ListAt IsFinding ms "warnings" r.warnings
  failures : ListAt IsFinding ms "failures" r.failures

/-- An object for a result. -/
def IsWritten (t : Term) (r : ConftestResult) : Prop := ∃ ms, t.IsObjectOf ms ∧ HasFields ms r

theorem IsFinding.message? {t : Term} {msg : String} (h : IsFinding t msg) :
    message? t.value = some msg := by
  obtain ⟨ms, hms, v, hv, hmsg⟩ := h
  have hfields : t.value.fields? ["msg"] = some [some v.value] := by
    rw [hms.fields?, List.mapM_cons, hv.only?]
    rfl
  rw [ConftestResult.message?, hfields]
  exact hmsg.text?_value

/-- **An object for a result is read as that result.** -/
theorem IsWritten.ofJson? {t : Term} {r : ConftestResult} (h : IsWritten t r) :
    ofJson? t.value = some r := by
  obtain ⟨ms, hms, ⟨v, hv, hfilename⟩, hwarnings, hfailures⟩ := h
  obtain ⟨w, hw, hwarnings⟩ := hwarnings.exists_only? IsFinding.message?
  obtain ⟨f, hf, hfailures⟩ := hfailures.exists_only? IsFinding.message?
  have hfields : t.value.fields? ["filename", "warnings", "failures"] =
      some [some v.value, w, f] := by
    rw [hms.fields?, List.mapM_cons, List.mapM_cons, List.mapM_cons, hv.only?, hw, hf]
    rfl
  rw [ConftestResult.ofJson?, hfields]
  simp only [hfilename.text?_value, hwarnings, hfailures]
  rfl

end ConftestResult

namespace KubevalResult

/-- The members of an object for a result. -/
structure HasFields (ms : List (String × Term)) (r : KubevalResult) : Prop where
  filename : TextAtOrEmpty ms "filename" r.filename
  kind : TextAtOrEmpty ms "kind" r.kind
  status : TextAtOrEmpty ms "status" r.status
  errors : ListAt Term.IsText ms "errors" r.errors

/-- An object for a result. -/
def IsWritten (t : Term) (r : KubevalResult) : Prop := ∃ ms, t.IsObjectOf ms ∧ HasFields ms r

/-- **An object for a result is read as that result.** -/
theorem IsWritten.ofJson? {t : Term} {r : KubevalResult} (h : IsWritten t r) :
    ofJson? t.value = some r := by
  obtain ⟨ms, hms, hfilename, hkind, hstatus, herrors⟩ := h
  obtain ⟨n, hn, hfilename⟩ := hfilename.exists_only?
  obtain ⟨k, hk, hkind⟩ := hkind.exists_only?
  obtain ⟨s, hs, hstatus⟩ := hstatus.exists_only?
  obtain ⟨e, he, herrors⟩ := herrors.exists_only? Term.IsText.text?_value
  have hfields : t.value.fields? ["filename", "kind", "status", "errors"] = some [n, k, s, e] := by
    rw [hms.fields?, List.mapM_cons, List.mapM_cons, List.mapM_cons, List.mapM_cons, hn, hk, hs,
      he]
    rfl
  rw [KubevalResult.ofJson?, hfields]
  simp only [hfilename, hkind, hstatus, herrors]
  rfl

end KubevalResult

/-! ## Outputs -/

namespace Report

variable {t : Term}

/-- An output that holds an array is not blank. -/
theorem isBlankOutput_document {ts : List Term} (h : t.items? = some ts) (before after : Blanks) :
    isBlankOutput (document before t after) = false := by
  have hbracket : '[' ∈ t.text := by
    cases t with
    | emptyArray gap => exact List.mem_cons_self
    | array items => exact List.mem_cons_self
    | literal | string | emptyObject | object => cases h
  rw [isBlankOutput, List.all_eq_false]
  refine ⟨0x5B, List.mem_flatMap.mpr ⟨'[', ?_, ?_⟩, by decide⟩
  · exact List.mem_append_right _ (List.mem_append_left _ hbracket)
  · decide

/-- **The records of an output** are read one by one. -/
theorem records?_document {α : Type} {R : Term → α → Prop} {read : Json.Value → Option α}
    (hread : ∀ {t a}, R t a → read t.value = some a) {xs : List α} (h : t.IsArrayOf R xs)
    (before after : Blanks) : records? read (document before t after) = some xs := by
  obtain ⟨ts, hitems, hts⟩ := h
  rw [records?, isBlankOutput_document hitems, Json.Value.read?_document,
    t.value_of_items? hitems]
  exact Json.mapM_of_forall₂ hread hts

end Report

namespace Lint

theorem conftestReports_document {t : Term} {results : List ConftestResult}
    (h : t.IsArrayOf ConftestResult.IsWritten results) (before after : Blanks)
    (failOnWarn : Bool) :
    conftestReports (document before t after) failOnWarn =
      .ok (results.map (ConftestResult.report failOnWarn)) := by
  rw [conftestReports, ConftestResult.readAll?,
    Report.records?_document ConftestResult.IsWritten.ofJson? h]

theorem kubevalReports_document {t : Term} {results : List KubevalResult}
    (h : t.IsArrayOf KubevalResult.IsWritten results) (before after : Blanks) (file : String) :
    (kubevalReports (document before t after) file).result =
      .ok (results.map (KubevalResult.report file)) := by
  rw [kubevalReports, KubevalResult.readAll?,
    Report.records?_document KubevalResult.IsWritten.ofJson? h]

/-- Warnings stand behind the failures, if they count. -/
theorem report_eq (failOnWarn : Bool) (r : ConftestResult) :
    r.report failOnWarn =
      ⟨r.filename, if failOnWarn then r.failures ++ r.warnings else r.failures⟩ := by
  cases failOnWarn with
  | false => exact congrArg (Report.mk r.filename) (List.append_nil r.failures)
  | true => rfl

/-- **Warnings only add messages** at the end of a report, whatever the output is. -/
theorem conftestReports_extend (output : List UInt8) :
    (∃ e, conftestReports output false = .error e ∧ conftestReports output true = .error e) ∨
      ∃ rs ss, conftestReports output false = .ok rs ∧ conftestReports output true = .ok ss ∧
        List.Forall₂ (fun r s => r.filename = s.filename ∧ r.messages <+: s.messages) rs ss := by
  cases h : ConftestResult.readAll? output with
  | none =>
    refine .inl ⟨undecodable .conftest, ?_, ?_⟩
    · rw [conftestReports, h]
    · rw [conftestReports, h]
  | some results =>
    refine .inr ⟨results.map (ConftestResult.report false),
      results.map (ConftestResult.report true), ?_, ?_, ?_⟩
    · rw [conftestReports, h]
    · rw [conftestReports, h]
    · rw [List.forall₂_map_left_iff, List.forall₂_map_right_iff, List.forall₂_same]
      intro r _
      rw [report_eq, report_eq]
      exact ⟨rfl, List.prefix_append r.failures r.warnings⟩

/-- The reports are about the messages and nothing else. -/
theorem map_kubeval_report (file : String) (results : List KubevalResult) :
    results.map (KubevalResult.report file) =
      (results.map KubevalResult.errors).map (Report.mk file) := by
  rw [List.map_map]
  rfl

/-- **What becomes of the output of a linter.**

* An array of objects for results of conftest, however it is written, gives one report for each of
  them, in their order, with the failures and, if they count, the warnings behind them.
* Whatever the output is, it is understood with warnings just if it is without, and warnings only
  add messages at the end of a report.
* An array of objects for results of kubeval, however it is written, gives one report for each of
  them, in their order, about the file that kubeval was started for.
* The file names, kinds and statuses in those objects do not matter for the reports. -/
theorem reports_of_output :
    (∀ {t : Term} {results : List ConftestResult} (before after : Blanks) (failOnWarn : Bool),
      t.IsArrayOf ConftestResult.IsWritten results →
        conftestReports (document before t after) failOnWarn =
          .ok (results.map fun r =>
            ⟨r.filename, if failOnWarn then r.failures ++ r.warnings else r.failures⟩)) ∧
      (∀ output : List UInt8,
        (∃ e, conftestReports output false = .error e ∧ conftestReports output true = .error e) ∨
          ∃ rs ss, conftestReports output false = .ok rs ∧ conftestReports output true = .ok ss ∧
            List.Forall₂ (fun r s => r.filename = s.filename ∧ r.messages <+: s.messages) rs ss) ∧
      (∀ {t : Term} {results : List KubevalResult} (before after : Blanks) (file : String),
        t.IsArrayOf KubevalResult.IsWritten results →
          (kubevalReports (document before t after) file).result =
            .ok (results.map fun r => ⟨file, r.errors⟩)) ∧
      ∀ {t u : Term} {rs ss : List KubevalResult} (before after start stop : Blanks)
        (file : String), t.IsArrayOf KubevalResult.IsWritten rs →
          u.IsArrayOf KubevalResult.IsWritten ss →
            rs.map KubevalResult.errors = ss.map KubevalResult.errors →
              (kubevalReports (document before t after) file).result =
                (kubevalReports (document start u stop) file).result := by
  refine ⟨?_, conftestReports_extend, ?_, ?_⟩
  · intro t results before after failOnWarn h
    rw [conftestReports_document h]
    exact congrArg Except.ok (List.map_congr_left fun r _ => report_eq failOnWarn r)
  · intro t results before after file h
    exact kubevalReports_document h before after file
  · intro t u rs ss before after start stop file ht hu herrors
    rw [kubevalReports_document ht, kubevalReports_document hu, map_kubeval_report,
      map_kubeval_report, herrors]

/-! ### An output of either linter -/

namespace Sample

/-- No blanks. -/
def nothing : Blanks := ⟨[], List.forall_mem_nil _⟩

/-- Whether a character can stand for itself in a string. -/
def isPlain (c : Char) : Bool := ' ' ≤ c ∧ c ≠ '"' ∧ c ≠ '\\'

/-- Characters that stand for themselves. -/
def plain (s : String) (h : s.toList.all isPlain = true) : List Json.Piece :=
  s.toList.pmap .plain fun c hc => of_decide_eq_true (List.all_eq_true.mp h c hc)

theorem spells_plain {s : String} (h : s.toList.all isPlain = true) :
    Json.Spells (plain s h) s.toList := Json.spells_plain _ _

theorem isText_plain {s : String} (h : s.toList.all isPlain = true) :
    Term.IsText (.string (plain s h)) s := ⟨_, rfl, spells_plain h⟩

/-- A name with nothing around it. -/
def named (ps : List Json.Piece) : Json.Name := ⟨nothing, ps, nothing, nothing⟩

/-- The name `filename`, whose first letter is escaped. -/
def filename : List Json.Piece := .code ['0', '0', '6', '6'] 0x66 rfl rfl :: plain "ilename" rfl

theorem spells_filename : Json.Spells filename "filename".toList := by
  have hcode : Json.IsCode ['0', '0', '6', '6'] 'f'.toNat :=
    ⟨[0, 0, 6, 6], .cons (.inl rfl) (.cons (.inl rfl) (.cons (.inl rfl) (.cons (.inl rfl) .nil))),
      rfl⟩
  exact .code hcode (spells_plain rfl)

/-- The message `k: 😀`, whose face is escaped as a surrogate pair. -/
def message : Term :=
  .string (plain "k: " rfl ++
    [.code ['d', '8', '3', 'd'] 0xD83D rfl rfl, .code ['D', 'E', '0', '0'] 0xDE00 rfl rfl])

theorem isText_message : message.IsText "k: 😀" := by
  have hhigh : Json.IsCode ['d', '8', '3', 'd'] 0xD83D :=
    ⟨[13, 8, 3, 13], .cons (.inl rfl) (.cons (.inl rfl) (.cons (.inl rfl) (.cons (.inl rfl) .nil))),
      rfl⟩
  have hlow : Json.IsCode ['D', 'E', '0', '0'] 0xDE00 :=
    ⟨[13, 14, 0, 0], .cons (.inr rfl) (.cons (.inr rfl) (.cons (.inl rfl) (.cons (.inl rfl) .nil))),
      rfl⟩
  exact ⟨_, rfl, .plain (.plain (.plain (.pair hhigh hlow (by decide) rfl .nil)))⟩

def null : Term := .literal ['n', 'u', 'l', 'l'] (.inr (.inr (.inl rfl)))

/-- An array of one item. -/
def only (t : Term) : Term := .array (.last nothing t nothing)

theorem isArrayOf_only {α : Type} {R : Term → α → Prop} {t : Term} {a : α} (h : R t a) :
    (only t).IsArrayOf R [a] := ⟨[t], rfl, .cons h .nil⟩

/-- A finding of conftest. -/
def finding : Term := .object (.last (named (plain "msg" rfl)) message nothing)

theorem isFinding_finding : ConftestResult.IsFinding finding "k: 😀" :=
  ⟨[("msg", message)], ⟨_, rfl, .cons ⟨spells_plain rfl, rfl⟩ .nil⟩, _, ⟨[], [], rfl, by simp⟩,
    isText_message⟩

/-- An object that serves both linters. -/
def record (file : Term) : Term :=
  .object
    (.more (named (plain "warnings" rfl)) null nothing
    (.more (named (plain "errors" rfl)) (only message) nothing
    (.more (named filename) file nothing
    (.last (named (plain "failures" rfl)) (only finding) nothing))))

theorem isObjectOf_record (file : Term) :
    (record file).IsObjectOf [("warnings", null), ("errors", only message), ("filename", file),
      ("failures", only finding)] :=
  ⟨_, rfl, .cons ⟨spells_plain rfl, rfl⟩ (.cons ⟨spells_plain rfl, rfl⟩
    (.cons ⟨spells_filename, rfl⟩ (.cons ⟨spells_plain rfl, rfl⟩ .nil)))⟩

theorem conftest_record {file : Term} {s : String} (h : file.IsText s) :
    (only (record file)).IsArrayOf ConftestResult.IsWritten [⟨s, [], ["k: 😀"]⟩] := by
  refine isArrayOf_only ⟨_, isObjectOf_record file, ?_, ?_, ?_⟩
  · exact ⟨file, ⟨_ :: _ :: [], [_], rfl, by simp⟩, h⟩
  · exact .inr ⟨rfl, .inr ⟨null, ⟨[], _, rfl, by simp⟩, _, rfl⟩⟩
  · exact .inl ⟨only finding, ⟨_ :: _ :: _ :: [], [], rfl, by simp⟩,
      isArrayOf_only isFinding_finding⟩

theorem kubeval_record {file : Term} {s : String} (h : file.IsText s) :
    (only (record file)).IsArrayOf KubevalResult.IsWritten [⟨s, "", "", ["k: 😀"]⟩] := by
  refine isArrayOf_only ⟨_, isObjectOf_record file, ?_, ?_, ?_, ?_⟩
  · exact .inl ⟨file, ⟨_ :: _ :: [], [_], rfl, by simp⟩, h⟩
  · exact .inr ⟨by simp [Json.Lacks], rfl⟩
  · exact .inr ⟨by simp [Json.Lacks], rfl⟩
  · exact .inl ⟨only message, ⟨[_], _ :: _ :: [], rfl, by simp⟩, isArrayOf_only isText_message⟩

end Sample

open Sample

/-- One output that both linters might have written.  Nothing changes for kubeval if the name of
the file in it is another one. -/
theorem reports_of_output_of_sample :
    let file : Term := .string (plain "a" rfl)
    let other : Term := .string (plain "b" rfl)
    let output := document nothing (only (record file)) nothing
    output = Utf8.encode ("[\x7b\"warnings\":null,\"errors\":[\"k: \\ud83d\\uDE00\"]," ++
        "\"\\u0066ilename\":\"a\"," ++
        "\"failures\":[\x7b\"msg\":\"k: \\ud83d\\uDE00\"\x7d]\x7d]").toList ∧
      conftestReports output true = .ok [⟨"a", ["k: 😀"]⟩] ∧
      (∃ rs ss, conftestReports output false = .ok rs ∧ conftestReports output true = .ok ss ∧
        List.Forall₂ (fun r s => r.filename = s.filename ∧ r.messages <+: s.messages) rs ss) ∧
      (kubevalReports output "c").result = .ok [⟨"c", ["k: 😀"]⟩] ∧
      (kubevalReports output "c").result =
        (kubevalReports (document nothing (only (record other)) nothing) "c").result := by
  intro file other output
  have hfile : file.IsText "a" := isText_plain rfl
  have hother : other.IsText "b" := isText_plain rfl
  obtain ⟨hconftest, hwarnings, hkubeval, hsame⟩ := reports_of_output
  have hreports := hconftest nothing nothing true (conftest_record hfile)
  refine ⟨by decide +kernel, hreports, ?_, hkubeval nothing nothing "c" (kubeval_record hfile),
    hsame nothing nothing nothing nothing "c" (kubeval_record hfile) (kubeval_record hother) rfl⟩
  rcases hwarnings output with ⟨e, -, herror⟩ | hboth
  · exact absurd (hreports.symm.trans herror) (by simp)
  · exact hboth

end Lint
end LintLocator
