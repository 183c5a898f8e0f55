import LintLocator.Lint.Arguments
import LintLocator.Proofs.Text.Splitting
import Mathlib.Data.List.Basic
import Mathlib.Data.List.Forall2
import Mathlib.Data.List.Nodup

/-!
# What a command line says

A linter is started with files and with flags, and a flag may have a value behind it.  Values are
taken from the settings as they are, so any of them may look like a flag, and a flag that is not in
use leaves no gap.  A command line can be told apart from all others nevertheless: the flags come in
a fixed order, each at most once, and each of them always takes the same number of values.  So
whatever stands where a flag may stand is a flag.

* `Lint.Flag`: a flag of a command line, in use or not;
* `Lint.eq_of_written_eq`: rows of the same flags that are written alike are alike;
* `ConftestJob.flags_eq_iff`, `KubevalJob.flags_eq_iff`: what the flags of a job depend on;
* `Lint.arguments_eq_iff`: what two jobs with one command line have in common.
-/

namespace LintLocator
namespace Lint

/-! ## Rows of flags -/

/-- A flag that may stand on a command line, and what stands behind it if it does. -/
structure Flag where
  name : String
  values? : Option (List String)
  deriving DecidableEq, Repr

namespace Flag

/-- What is written for a flag. -/
def written (x : Flag) : List String :=
  match x.values? with
  | some values => x.name :: values
  | none => []

/-- Two uses of one flag, which always takes the same number of values. -/
structure Fits (x y : Flag) : Prop where
  name : x.name = y.name
  length : ∀ vs ∈ x.values?, ∀ ws ∈ y.values?, vs.length = ws.length

end Flag

/-- What is written for a row of flags begins with the name of one of them. -/
theorem mem_names_of_head? {xs : List Flag} {w : String}
    (h : w ∈ (xs.flatMap Flag.written).head?) : w ∈ xs.map Flag.name := by
  induction xs with
  | nil => cases h
  | cons x xs ih =>
    obtain ⟨name, _ | values⟩ := x
    · exact List.mem_cons_of_mem _ (ih h)
    · cases h
      exact List.mem_cons_self

theorem map_name_eq {xs ys : List Flag} (h : List.Forall₂ Flag.Fits xs ys) :
    xs.map Flag.name = ys.map Flag.name := by
  induction h with
  | nil => rfl
  | cons hxy _ ih => rw [List.map_cons, List.map_cons, hxy.name, ih]

/-- A flag in use is not taken for one of the flags behind it. -/
theorem cons_ne_written {name : String} {rest : List String} {ys : List Flag}
    (h : name ∉ ys.map Flag.name) : name :: rest ≠ ys.flatMap Flag.written := by
  intro heq
  refine h (mem_names_of_head? ?_)
  rw [← heq]
  rfl

/-- **Rows of flags can be told apart** by what is written for them, even if values look like
flags. -/
theorem eq_of_written_eq {xs ys : List Flag} (h : List.Forall₂ Flag.Fits xs ys)
    (hnames : (xs.map Flag.name).Nodup)
    (heq : xs.flatMap Flag.written = ys.flatMap Flag.written) : xs = ys := by
  induction h with
  | nil => rfl
  | @cons x y xs ys hxy hrest ih =>
    rw [List.map_cons, List.nodup_cons] at hnames
    obtain ⟨hnew, hnames⟩ := hnames
    have hnew' : x.name ∉ ys.map Flag.name := map_name_eq hrest ▸ hnew
    obtain ⟨name, values⟩ := x
    obtain ⟨name', values'⟩ := y
    obtain rfl : name = name' := hxy.name
    -- the first word tells whether the flag is in use, since no later flag has its name
    cases values with
    | none =>
      cases values' with
      | none => rw [ih hnames heq]
      | some ws =>
        have heq : xs.flatMap Flag.written = name :: (ws ++ ys.flatMap Flag.written) := heq
        exact absurd heq.symm (cons_ne_written hnew)
    | some vs =>
      cases values' with
      | none =>
        have heq : name :: (vs ++ xs.flatMap Flag.written) = ys.flatMap Flag.written := heq
        exact absurd heq (cons_ne_written hnew')
      | some ws =>
        obtain ⟨hvalues, hwritten⟩ :=
          List.append_inj (List.cons.inj heq).2 (hxy.length vs rfl ws rfl)
        rw [hvalues, ih hnames hwritten]

/-! ## The values of flags -/

/-- The value of a flag for a list. -/
def joined? (values : List String) : Option String :=
  if values.isEmpty then none else some (Text.joinWith "," values)

/-- Two lists that are passed in the same way: both are empty, or none is and they are the same with
commas between the members. -/
def SameJoined (xs ys : List String) : Prop :=
  (xs = [] ↔ ys = []) ∧ Text.joinWith "," xs = Text.joinWith "," ys

/-- A flag without a value. -/
def Flag.plain (name : String) (on : Bool) : Flag := ⟨name, if on then some [] else none⟩

/-- A flag with one value. -/
def Flag.valued (name : String) (value? : Option String) : Flag := ⟨name, value?.map ([·])⟩

theorem written_plain (name : String) (on : Bool) :
    (Flag.plain name on).written = switch name on := by
  cases on <;> rfl

theorem written_valued_joined (name : String) (values : List String) :
    (Flag.valued name (joined? values)).written = listed name values := by
  cases values <;> rfl

theorem Flag.fits_plain (name : String) (on on' : Bool) :
    (Flag.plain name on).Fits (Flag.plain name on') := by
  refine ⟨rfl, fun vs hvs ws hws => ?_⟩
  cases on <;> cases hvs
  cases on' <;> cases hws
  rfl

theorem Flag.fits_valued (name : String) (value? value'? : Option String) :
    (Flag.valued name value?).Fits (Flag.valued name value'?) := by
  refine ⟨rfl, fun vs hvs ws hws => ?_⟩
  cases value? <;> cases hvs
  cases value'? <;> cases hws
  rfl

theorem Flag.plain_inj {name : String} {on on' : Bool} :
    Flag.plain name on = Flag.plain name on' ↔ on = on' := by
  cases on <;> cases on' <;> simp [Flag.plain]

theorem Flag.valued_inj {name : String} {value? value'? : Option String} :
    Flag.valued name value? = Flag.valued name value'? ↔ value? = value'? := by
  cases value? <;> cases value'? <;> simp [Flag.valued]

theorem joined?_eq_iff {xs ys : List String} : joined? xs = joined? ys ↔ SameJoined xs ys := by
  cases xs <;> cases ys <;> simp [joined?, SameJoined]

end Lint

open Lint

/-! ## The flags of jobs -/

namespace ConftestJob

/-- The input format, if there is one to speak of. -/
def format? (job : ConftestJob) : Option String := job.input.filter (· != "")

/-- The flags behind the files and the policy. -/
def flags (job : ConftestJob) : List Flag :=
  [.valued "-i" job.format?, .plain "--combine" job.combine,
    .plain "--all-namespaces" job.allNamespaces, .valued "--data" (joined? job.data),
    .valued "--namespace" (joined? job.namespaces)]

theorem written_format (job : ConftestJob) :
    (Flag.valued "-i" job.format?).written = job.inputArguments := by
  cases h : job.input with
  | none => simp [format?, inputArguments, h, Flag.valued, Flag.written]
  | some format =>
    by_cases hformat : format = "" <;>
      simp [format?, inputArguments, h, hformat, Option.filter_some, Flag.valued, Flag.written]

theorem arguments_eq (job : ConftestJob) (files : List String) :
    job.arguments files =
      "test" :: (files ++ "-p" :: (job.policy :: "-o" :: "json" :: job.flags.flatMap Flag.written))
      := by
  simp [arguments, flags, written_format, written_plain, written_valued_joined]

theorem fits_flags (a b : ConftestJob) : List.Forall₂ Flag.Fits a.flags b.flags :=
  .cons (Flag.fits_valued ..) <| .cons (Flag.fits_plain ..) <| .cons (Flag.fits_plain ..) <|
    .cons (Flag.fits_valued ..) <| .cons (Flag.fits_valued ..) .nil

theorem nodup_names (job : ConftestJob) : (job.flags.map Flag.name).Nodup := by
  show ["-i", "--combine", "--all-namespaces", "--data", "--namespace"].Nodup
  decide

theorem getD_format? (job : ConftestJob) : job.format?.getD "" = job.input.getD "" := by
  cases h : job.input with
  | none => simp [format?, h]
  | some format =>
    by_cases hformat : format = "" <;> simp [format?, h, hformat, Option.filter_some]

/-- An empty format is no format. -/
theorem format?_ne (job : ConftestJob) : job.format? ≠ some "" := by
  simp [format?, Option.filter_eq_some_iff]

theorem format?_eq_iff {a b : ConftestJob} :
    a.format? = b.format? ↔ a.input.getD "" = b.input.getD "" := by
  rw [← getD_format?, ← getD_format?]
  have ha := a.format?_ne
  have hb := b.format?_ne
  cases hx : a.format? <;> cases hy : b.format? <;> simp_all

theorem flags_eq_iff {a b : ConftestJob} :
    a.flags = b.flags ↔ a.input.getD "" = b.input.getD "" ∧ a.combine = b.combine ∧
      a.allNamespaces = b.allNamespaces ∧ SameJoined a.data b.data ∧
      SameJoined a.namespaces b.namespaces := by
  simp [flags, Flag.valued_inj, Flag.plain_inj, joined?_eq_iff, format?_eq_iff]

end ConftestJob

namespace KubevalJob

/-- The flags behind the file. -/
def flags (job : KubevalJob) : List Flag :=
  [.plain "--strict" job.strict, .plain "--ignore-missing-schemas" job.ignoreMissingSchemas,
    .valued "--ignored-filename-patterns" (joined? job.ignoredFilenamePatterns),
    .valued "--skip-kinds" (joined? job.skipKinds),
    .valued "--schema-location" job.schemaLocations.head?,
    .valued "--additional-schema-locations" (joined? job.schemaLocations.tail)]

theorem written_schemas (job : KubevalJob) :
    (Flag.valued "--schema-location" job.schemaLocations.head?).written ++
        listed "--additional-schema-locations" job.schemaLocations.tail =
      job.schemaArguments := by
  cases h : job.schemaLocations <;> simp [schemaArguments, h, Flag.valued, Flag.written, listed]

theorem arguments_eq (job : KubevalJob) (file : String) :
    job.arguments file = file :: "-o" :: "json" :: job.flags.flatMap Flag.written := by
  simp [arguments, flags, ← written_schemas, written_plain, written_valued_joined]

theorem fits_flags (a b : KubevalJob) : List.Forall₂ Flag.Fits a.flags b.flags :=
  .cons (Flag.fits_plain ..) <| .cons (Flag.fits_plain ..) <| .cons (Flag.fits_valued ..) <|
    .cons (Flag.fits_valued ..) <| .cons (Flag.fits_valued ..) <| .cons (Flag.fits_valued ..) .nil

theorem nodup_names (job : KubevalJob) : (job.flags.map Flag.name).Nodup := by
  show ["--strict", "--ignore-missing-schemas", "--ignored-filename-patterns", "--skip-kinds",
    "--schema-location", "--additional-schema-locations"].Nodup
  decide

theorem flags_eq_iff {a b : KubevalJob} :
    a.flags = b.flags ↔ a.strict = b.strict ∧ a.ignoreMissingSchemas = b.ignoreMissingSchemas ∧
      SameJoined a.ignoredFilenamePatterns b.ignoredFilenamePatterns ∧
      SameJoined a.skipKinds b.skipKinds ∧
      a.schemaLocations.head? = b.schemaLocations.head? ∧
      SameJoined a.schemaLocations.tail b.schemaLocations.tail := by
  simp [flags, Flag.valued_inj, Flag.plain_inj, joined?_eq_iff]

end KubevalJob

/-! ## Command lines -/

namespace Lint

/-- **Command lines say what jobs say.**  Two jobs for conftest are started with the same arguments
just if the files are the same and so is all that is passed on: lists are the same with commas
between their members, and an empty input format is none.  The values may be any texts, only the
files must not look like the flag of the policy.  For kubeval, even the file may be any text. -/
theorem arguments_eq_iff :
    (∀ (a b : ConftestJob) (fs gs : List String), "-p" ∉ fs → "-p" ∉ gs →
      (a.arguments fs = b.arguments gs ↔ fs = gs ∧ a.policy = b.policy ∧
        a.input.getD "" = b.input.getD "" ∧ a.combine = b.combine ∧
        a.allNamespaces = b.allNamespaces ∧ SameJoined a.data b.data ∧
        SameJoined a.namespaces b.namespaces)) ∧
    (∀ (a b : KubevalJob) (f g : String),
      (a.arguments f = b.arguments g ↔ f = g ∧ a.strict = b.strict ∧
        a.ignoreMissingSchemas = b.ignoreMissingSchemas ∧
        SameJoined a.ignoredFilenamePatterns b.ignoredFilenamePatterns ∧
        SameJoined a.skipKinds b.skipKinds ∧
        a.schemaLocations.head? = b.schemaLocations.head? ∧
        SameJoined a.schemaLocations.tail b.schemaLocations.tail)) := by
  constructor
  · intro a b fs gs hfs hgs
    have hflags : a.flags.flatMap Flag.written = b.flags.flatMap Flag.written ↔
        a.flags = b.flags :=
      ⟨eq_of_written_eq (a.fits_flags b) a.nodup_names, fun h => by rw [h]⟩
    rw [a.arguments_eq, b.arguments_eq, List.cons.injEq, Text.append_cons_inj_left hfs hgs]
    simp only [List.cons.injEq, true_and, hflags, ConftestJob.flags_eq_iff]
  · intro a b f g
    have hflags : a.flags.flatMap Flag.written = b.flags.flatMap Flag.written ↔
        a.flags = b.flags :=
      ⟨eq_of_written_eq (a.fits_flags b) a.nodup_names, fun h => by rw [h]⟩
    rw [a.arguments_eq, b.arguments_eq]
    simp only [List.cons.injEq, true_and, hflags, KubevalJob.flags_eq_iff]

/-- Values that are written like flags are still values.  Lists that differ in their commas only
are passed in the same way, but a list without members is not passed like one with an empty
member. -/
theorem arguments_eq_iff_of_flags_as_values :
    let job (data namespaces : List String) : ConftestJob :=
      { policy := "-p", input := some "--combine", data, namespaces }
    "-p" ∉ ["-i", "--data"] ∧
      (job ["--namespace", "k"] []).arguments ["-i", "--data"] =
        (job ["--namespace,k"] []).arguments ["-i", "--data"] ∧
      (job ["--namespace,k"] []).arguments ["-i", "--data"] ≠
        (job ["--namespace,k"] [""]).arguments ["-i", "--data"] := by
  intro job
  have hfiles : "-p" ∉ ["-i", "--data"] := by decide
  refine ⟨hfiles, ?_, fun h => ?_⟩
  · refine (arguments_eq_iff.1 _ _ _ _ hfiles hfiles).mpr
      ⟨rfl, rfl, rfl, rfl, rfl, ⟨by simp [job], by decide⟩, Iff.rfl, rfl⟩
  · obtain ⟨-, -, -, -, -, -, hempty, -⟩ := (arguments_eq_iff.1 _ _ _ _ hfiles hfiles).mp h
    exact absurd (hempty.mp rfl) (by simp [job])

end Lint
end LintLocator
