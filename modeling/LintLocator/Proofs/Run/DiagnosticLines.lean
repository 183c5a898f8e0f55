import LintLocator.Proofs.Run.Endings
import LintLocator.Proofs.Run.Templates
import LintLocator.Proofs.Text.Decimal
import LintLocator.Proofs.Text.Splitting

/-!
# Diagnostics and lines

Whoever reads the output line by line takes each line for a diagnostic.  Every diagnostic is written
with one line feed behind it, but a line feed in a message is written like any other character.  So
there are as many lines as diagnostics only if nothing that is filled into the template brings line
feeds along, and of the four slots only the one for the message can do that.

* `Diagnostic.count_format`: the line feeds in a diagnostic are those of its message, once for each
  slot;
* `Text.splitOn_lines_iff`: lines are read back if none of them holds a line feed;
* `RunOptions.lines_of_printReport`: what is read back from the output for a report.
-/

namespace LintLocator

/-! ## Lines -/

namespace Text

/-- **Lines are read back if they are lines.** -/
theorem splitOn_lines_iff (ls : List (List Char)) :
    splitOn ['\n'] (ls.flatMap (· ++ ['\n'])) = ls ++ [[]] ↔ ∀ l ∈ ls, '\n' ∉ l := by
  constructor
  · intro h l hl hmem
    have hpiece : l ∈ splitOn ['\n'] (ls.flatMap (· ++ ['\n'])) := by
      rw [h]
      exact List.mem_append_left _ hl
    exact not_infix_of_mem_splitOn (by simp) _ _ hpiece ((List.singleton_infix_iff _ _).mpr hmem)
  · intro h
    induction ls with
    | nil => rfl
    | cons l ls ih =>
      obtain ⟨hl, hls⟩ := List.forall_mem_cons.mp h
      have hfirst : ¬ ['\n'] <:+: l ++ ['\n'].dropLast := by
        simpa [List.singleton_infix_iff] using hl
      rw [List.flatMap_cons, splitOn_append_append (by simp) hfirst, ih hls]
      rfl

end Text

/-! ## Line feeds in a diagnostic -/

namespace Diagnostic

variable {template : String} {d : Diagnostic}

/-- Only the message brings line feeds into a diagnostic. -/
theorem count_fill {p : Piece} (hp : p ∈ pieces template.toList)
    (htemplate : '\n' ∉ template.toList) (hfile : '\n' ∉ d.file.toList) :
    (p.fill d).count '\n' = if p = .slot .message then d.message.toList.count '\n' else 0 := by
  have hnumber : ∀ n : Nat, '\n' ∉ (toString n).toList := fun n hmem =>
    absurd (Decimal.isDigit_of_mem_toString hmem) (by decide)
  cases p with
  | literal c =>
    have hc : c ≠ '\n' := by
      rintro rfl
      exact htemplate (mem_of_literal_mem hp)
    simp [Piece.fill, hc]
  | slot s =>
    cases s with
    | file => simpa [Piece.fill, List.count_eq_zero] using hfile
    | line => simpa [Piece.fill, List.count_eq_zero] using hnumber d.position.line
    | column => simpa [Piece.fill, List.count_eq_zero] using hnumber d.position.column
    | message => simp [Piece.fill]

/-- **The line feeds in a diagnostic** are those of its message, as often as the template shows
it. -/
theorem count_format (htemplate : '\n' ∉ template.toList) (hfile : '\n' ∉ d.file.toList) :
    (d.format template).toList.count '\n' =
      (pieces template.toList).count (.slot .message) * d.message.toList.count '\n' := by
  have hpieces : ∀ ps : List Piece, (∀ p ∈ ps, p ∈ pieces template.toList) →
      (ps.flatMap (Piece.fill d)).count '\n' =
        ps.count (.slot .message) * d.message.toList.count '\n' := by
    intro ps hps
    induction ps with
    | nil => simp
    | cons p ps ih =>
      obtain ⟨hp, hps⟩ := List.forall_mem_cons.mp hps
      rw [List.flatMap_cons, List.count_append, ih hps, count_fill hp htemplate hfile,
        List.count_cons]
      by_cases hmessage : p = .slot .message
      · simp [hmessage, Nat.add_mul, Nat.add_comm]
      · simp [hmessage]
  rw [format, String.toList_ofList]
  exact hpieces _ fun p hp => hp

/-- A diagnostic is a line unless the template shows a message that is none. -/
theorem newline_notMem_format_iff (htemplate : '\n' ∉ template.toList)
    (hfile : '\n' ∉ d.file.toList) :
    '\n' ∉ (d.format template).toList ↔
      .slot .message ∉ pieces template.toList ∨ '\n' ∉ d.message.toList := by
  rw [← List.count_eq_zero, count_format htemplate hfile, Nat.mul_eq_zero, List.count_eq_zero,
    List.count_eq_zero]

/-- What is written for diagnostics: each of them and a line feed. -/
def written (template : String) (ds : List Diagnostic) : List Char :=
  (ds.map fun d => (d.format template).toList).flatMap (· ++ ['\n'])

/-- The line feeds in what is written: one for each diagnostic, and those of the messages. -/
theorem count_written {ds : List Diagnostic} (htemplate : '\n' ∉ template.toList)
    (hfiles : ∀ d ∈ ds, '\n' ∉ d.file.toList) :
    (written template ds).count '\n' = ds.length +
      (pieces template.toList).count (.slot .message) *
        (ds.flatMap fun d => d.message.toList).count '\n' := by
  induction ds with
  | nil => rfl
  | cons d ds ih =>
    obtain ⟨hd, hds⟩ := List.forall_mem_cons.mp hfiles
    have ih := ih hds
    rw [written] at ih
    rw [written, List.map_cons, List.flatMap_cons, List.count_append, List.count_append, ih,
      count_format htemplate hd, List.count_singleton_self, List.length_cons, List.flatMap_cons,
      List.count_append, Nat.mul_add]
    omega

/-- Diagnostics are read back from what is written for them if no message that is shown holds a line
feed. -/
theorem splitOn_written_iff {ds : List Diagnostic} (htemplate : '\n' ∉ template.toList)
    (hfiles : ∀ d ∈ ds, '\n' ∉ d.file.toList) :
    Text.splitOn ['\n'] (written template ds) =
        (ds.map fun d => (d.format template).toList) ++ [[]] ↔
      .slot .message ∉ pieces template.toList ∨ ∀ d ∈ ds, '\n' ∉ d.message.toList := by
  rw [written, Text.splitOn_lines_iff, List.forall_mem_map]
  have hlines : ∀ d ∈ ds, ('\n' ∉ (d.format template).toList ↔
      .slot .message ∉ pieces template.toList ∨ '\n' ∉ d.message.toList) :=
    fun d hd => newline_notMem_format_iff htemplate (hfiles d hd)
  rw [forall₂_congr hlines]
  simp only [forall_or_left]

end Diagnostic

/-! ## The output for a report -/

namespace RunOptions

variable {o : RunOptions} {s : Surroundings} {delimiter : String} {r : Report}
  {past : List RunEvent} {n : Nat}

/-- What a report comes to, if it comes to an end: each message with a delimiter becomes one
diagnostic, and these are written in their order. -/
theorem exists_told_of_printReport (h : (o.printReport s delimiter r past).result = .ok n) :
    ∃ told : List Diagnostic, told.length = n ∧ s.verdictsOf delimiter r = told.map .ok ∧
      (o.printReport s delimiter r past).output = String.join (told.map o.line) := by
  have haccount := o.yields_printReport s delimiter r past
  obtain ⟨told, htold | ⟨f, rest, htold⟩⟩ := exists_told (s.verdictsOf delimiter r)
  · rw [htold, tellAll_map_ok] at haccount
    have hresult : (.ok told.length : Except Failure Nat) = .ok n :=
      (congrArg Account.result haccount).symm.trans h
    have hlines : (o.printReport s delimiter r past).trace.filterMap RunEvent.text? =
        told.map o.line := congrArg Account.lines haccount
    exact ⟨told, Except.ok.inj hresult, htold, congrArg String.join hlines⟩
  · rw [htold, tellAll_append_error] at haccount
    have hresult : (.error f : Except Failure Nat) = .ok n :=
      (congrArg Account.result haccount).symm.trans h
    cases hresult

/-- A message that becomes a diagnostic is about the reported file, and what stands behind its
delimiter is the text of the diagnostic. -/
theorem told_of_verdictsOf {told : List Diagnostic} (h : s.verdictsOf delimiter r = told.map .ok) :
    told.map Diagnostic.message =
        (r.messages.filterMap (splitMessage delimiter)).map Prod.snd ∧
      ∀ d ∈ told, d.file = r.filename := by
  have hverdict : ∀ {fragment text : String} {d : Diagnostic},
      s.verdict r.filename fragment text = .ok d → d.message = text ∧ d.file = r.filename := by
    intro fragment text d hd
    rw [Surroundings.verdict] at hd
    split at hd
    · cases hd
    · split at hd
      · cases hd
        exact ⟨rfl, rfl⟩
      · cases hd
  rw [Surroundings.verdictsOf] at h
  generalize r.messages.filterMap (splitMessage delimiter) = parts at h
  induction parts generalizing told with
  | nil =>
    obtain rfl := List.map_eq_nil_iff.mp h.symm
    exact ⟨rfl, fun d hd => absurd hd List.not_mem_nil⟩
  | cons part parts ih =>
    obtain ⟨d, told, rfl, hd, htold⟩ := List.map_eq_cons_iff.mp h.symm
    obtain ⟨hmessage, hfile⟩ := hverdict hd.symm
    obtain ⟨hmessages, hfiles⟩ := ih htold.symm
    exact ⟨by rw [List.map_cons, List.map_cons, hmessage, hmessages],
      List.forall_mem_cons.mpr ⟨hfile, hfiles⟩⟩

/-- **What a report leaves in the output.**  Where neither the template nor the name of the file
holds a line feed, a report that comes to an end leaves one diagnostic for each message with a
delimiter, each with a line feed behind it.  The other line feeds in the output are those of the
texts, as often as the template shows them.  So whoever splits the output into lines reads the
diagnostics back exactly if no text holds a line feed or no text is shown. -/
theorem lines_of_printReport (htemplate : '\n' ∉ o.template.toList)
    (hfile : '\n' ∉ r.filename.toList) (h : (o.printReport s delimiter r past).result = .ok n) :
    ∃ told : List Diagnostic, told.length = n ∧
      told.map Diagnostic.message =
        (r.messages.filterMap (splitMessage delimiter)).map Prod.snd ∧
      (∀ d ∈ told, d.file = r.filename) ∧
      let output := (o.printReport s delimiter r past).output.toList
      output = (told.map fun d => (d.format o.template).toList).flatMap (· ++ ['\n']) ∧
      output.count '\n' = n + (Diagnostic.pieces o.template.toList).count (.slot .message) *
        (told.flatMap fun d => d.message.toList).count '\n' ∧
      (Text.splitOn ['\n'] output = (told.map fun d => (d.format o.template).toList) ++ [[]] ↔
        .slot .message ∉ Diagnostic.pieces o.template.toList ∨
          ∀ d ∈ told, '\n' ∉ d.message.toList) := by
  obtain ⟨told, hlength, htold, houtput⟩ := exists_told_of_printReport h
  obtain ⟨hmessages, hfiles⟩ := told_of_verdictsOf htold
  have hwritten : (String.join (told.map o.line)).toList = Diagnostic.written o.template told := by
    rw [String.toList_join, Diagnostic.written, List.flatMap_map, List.flatMap_map]
    exact List.flatMap_congr fun d _ => String.toList_append
  have hnone : ∀ d ∈ told, '\n' ∉ d.file.toList := fun d hd => by rwa [hfiles d hd]
  refine ⟨told, hlength, hmessages, hfiles, ?_⟩
  rw [houtput, hwritten]
  refine ⟨rfl, ?_, Diagnostic.splitOn_written_iff htemplate hnone⟩
  rw [← hlength]
  exact Diagnostic.count_written htemplate hnone

/-- A folder with the file `a`, whose only key is `k`. -/
def oneKey : Surroundings where
  files := .folder [("a", .file (asciiBytes "k: 1"))]
  folder := ""
  answer := fun _ _ => none

/-- One message is in two lines, one has no delimiter, and one ends with a carriage return.  Two
diagnostics are written in three lines. -/
theorem lines_of_printReport_of_two_lines :
    let o : RunOptions := ⟨"s", "%f:%l:%c: %m", ": "⟩
    let r : Report := ⟨"a", ["k: x\ny", "k", "k: z\r"]⟩
    ∃ told : List Diagnostic, told.length = 2 ∧
      told.map Diagnostic.message = ["x\ny", "z\r"] ∧
      (o.printReport oneKey ": " r []).output.toList.count '\n' = 3 ∧
      Text.splitOn ['\n'] (o.printReport oneKey ": " r []).output.toList ≠
        (told.map fun d => (d.format o.template).toList) ++ [[]] := by
  intro o r
  have hresult : (o.printReport oneKey ": " r []).result = .ok 2 :=
    eq_ok_of_toOption (by decide +kernel)
  obtain ⟨told, hlength, hmessages, -, -, -, hreads⟩ :=
    lines_of_printReport (by decide +kernel) (by decide +kernel) hresult
  have hparts : (r.messages.filterMap (splitMessage ": ")).map Prod.snd = ["x\ny", "z\r"] := by
    decide +kernel
  have hmessage : "x\ny" ∈ told.map Diagnostic.message := by simp [hmessages, hparts]
  obtain ⟨d, hd, hbroken⟩ := List.mem_map.mp hmessage
  refine ⟨told, hlength, hmessages.trans hparts, by decide +kernel, fun h => ?_⟩
  rcases hreads.mp h with hslot | hnone
  · exact absurd hslot (by decide +kernel)
  · exact absurd (hnone d hd) (by rw [hbroken]; decide +kernel)

/-- Not every report leaves as many lines as diagnostics: a text with a line feed becomes two. -/
theorem two_lines_of_one_message :
    ¬ ∀ (o : RunOptions) (s : Surroundings) (delimiter : String) (r : Report)
      (past : List RunEvent) (n : Nat), '\n' ∉ o.template.toList → '\n' ∉ r.filename.toList →
        (o.printReport s delimiter r past).result = .ok n →
          (o.printReport s delimiter r past).output.toList.count '\n' = n := by
  intro hall
  have hresult : (printReport ⟨"s", "%f:%l:%c: %m", ": "⟩ oneKey ": " ⟨"a", ["k: x\ny"]⟩
      []).result = .ok 1 := eq_ok_of_toOption (by decide +kernel)
  have hcount := hall _ _ _ _ _ _ (by decide +kernel) (by decide +kernel) hresult
  exact absurd hcount (by decide +kernel)

end RunOptions
end LintLocator
