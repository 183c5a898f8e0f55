import LintLocator.Document.Locate
import Mathlib.Init

/-!
# The document that settles a search

`Search.runFrom` walks through the documents with a number and the last failed look-up in its hands.
What it comes to can be said without walking, of the whole list at once:

* `Search.settles?`: the answer of one result, if it settles the matter.  The answer of a search is
  that of the *first* result that has one.
* `Search.failure?`: the look-up error of a document that is passed over.  If nothing settles the
  matter, the answer is the *last* of these errors, whatever empty documents come after it.
* `Search.note`: what the log says of a result that is passed over.

`cases_of_settles` says which answers there are.  `runFrom_cons_of_settles` and
`runFrom_cons_of_passes` say what one result does, and `runFrom_eq` follows by induction.  The main
statement is `Search.run_eq_reference`.
-/

namespace LintLocator
namespace Document
namespace Search

variable {s : Search} {number : Nat} {last : Option LookupError} {d : Decoded}

/-- The answer of the result with the number `number`, if it settles the matter: the text goes
wrong, a document is neither empty nor a mapping, or the path leads somewhere in it. -/
def settles? (s : Search) (number : Nat) : Decoded → Option (Except LocateError Position)
  | .malformed => some (.error (.malformed s.file))
  | .document t =>
    if t.isNull then none
    else if t.kind = .mapping then (s.path.lookup t).toOption.map fun u => .ok u.pos
    else some (.error (.notAMapping s.file number t.kind))

/-- The error of the look-up in a mapping in which the path leads nowhere. -/
def failure? (s : Search) : Decoded → Option LookupError
  | .document t =>
    match t.kind, s.path.lookup t with
    | .mapping, .error e => some e
    | _, _ => none
  | .malformed => none

/-- What the log says of a result that is passed over. -/
def note (s : Search) (number : Nat) (d : Decoded) : LogEntry :=
  match s.failure? d with
  | some e => s.failedNote number e
  | none => s.emptyNote number

/-- The outcome of a search, told from the results as a whole. -/
def reference (s : Search) (ds : List Decoded) : Location where
  result :=
    match ds.zipIdx.findSome? fun d => s.settles? d.2 d.1 with
    | some answer => answer
    | none => .error (s.exhausted (ds.filterMap s.failure?).getLast?)
  log :=
    (ds.zipIdx.takeWhile fun d => (s.settles? d.2 d.1).isNone).map fun d => s.note d.2 d.1

/-! ## One result -/

theorem kind_of_isNull {t : Tree} (h : t.isNull = true) : t.kind = .scalar := by
  cases t with
  | scalar => rfl
  | sequence => exact absurd h (by simp [Tree.isNull])
  | mapping => exact absurd h (by simp [Tree.isNull])

theorem settles?_of_isNull {t : Tree} (h : t.isNull = true) :
    s.settles? number (.document t) = none := by
  rw [settles?, if_pos h]

theorem settles?_of_mapping {t : Tree} (h : t.kind = .mapping) :
    s.settles? number (.document t) = (s.path.lookup t).toOption.map fun u => .ok u.pos := by
  have hnull : ¬ t.isNull = true := fun hnull => by
    rw [kind_of_isNull hnull] at h
    cases h
  rw [settles?, if_neg hnull, if_pos h]

/-- A document that is neither empty nor a mapping settles the matter. -/
theorem settles?_of_not_mapping {t : Tree} (hnull : t.isNull = false) (hkind : t.kind ≠ .mapping) :
    s.settles? number (.document t) = some (.error (.notAMapping s.file number t.kind)) := by
  rw [settles?, if_neg (by simp [hnull]), if_neg hkind]

/-- A search ends at a text that goes wrong, with a position, or at a document that is not a
mapping, which is named. -/
theorem cases_of_settles {answer : Except LocateError Position}
    (h : s.settles? number d = some answer) :
    answer = .error (.malformed s.file) ∨ (∃ u : Tree, answer = .ok u.pos) ∨
      ∃ found, answer = .error (.notAMapping s.file number found) := by
  cases d with
  | malformed => exact .inl (Option.some.inj h).symm
  | document t =>
    cases hnull : t.isNull with
    | true =>
      rw [settles?_of_isNull hnull] at h
      cases h
    | false =>
      by_cases hkind : t.kind = .mapping
      · rw [settles?_of_mapping hkind] at h
        obtain ⟨u, -, rfl⟩ := Option.map_eq_some_iff.mp h
        exact .inr (.inl ⟨u, rfl⟩)
      · rw [settles?_of_not_mapping hnull hkind] at h
        exact .inr (.inr ⟨t.kind, (Option.some.inj h).symm⟩)

/-- A result that settles the matter ends the search. -/
theorem runFrom_cons_of_settles {answer : Except LocateError Position}
    (h : s.settles? number d = some answer) (later : List Decoded) :
    s.runFrom number last (d :: later) = ⟨answer, []⟩ := by
  cases d with
  | malformed =>
    obtain rfl := Option.some.inj h
    rfl
  | document t =>
    rw [runFrom]
    cases hnull : t.isNull with
    | true =>
      rw [settles?_of_isNull hnull] at h
      cases h
    | false =>
      rw [if_neg Bool.false_ne_true]
      by_cases hkind : t.kind = .mapping
      · rw [settles?_of_mapping hkind] at h
        rw [if_neg (by simp [hkind])]
        cases hlookup : s.path.lookup t with
        | error e => exact absurd h (by simp [hlookup, Except.toOption])
        | ok u =>
          simp only [hlookup, Except.toOption, Option.map_some, Option.some.injEq] at h
          rw [← h]
          rfl
      · rw [settles?_of_not_mapping hnull hkind] at h
        obtain rfl := Option.some.inj h
        rw [if_pos (by simpa using hkind)]
        rfl

/-- Any other result is noted, and its error is remembered if it has one. -/
theorem runFrom_cons_of_passes (h : s.settles? number d = none) (later : List Decoded) :
    s.runFrom number last (d :: later) =
      (s.runFrom (number + 1) ((s.failure? d).or last) later).after (s.note number d) := by
  cases d with
  | malformed => cases h
  | document t =>
    rw [runFrom]
    cases hnull : t.isNull with
    | true =>
      rw [if_pos rfl]
      simp [note, failure?, kind_of_isNull hnull]
    | false =>
      rw [if_neg Bool.false_ne_true]
      by_cases hkind : t.kind = .mapping
      · rw [settles?_of_mapping hkind] at h
        rw [if_neg (by simp [hkind])]
        cases hlookup : s.path.lookup t with
        | error e => simp [note, failure?, hkind, hlookup]
        | ok u => exact absurd h (by simp [hlookup, Except.toOption])
      · rw [settles?_of_not_mapping hnull hkind] at h
        cases h

/-! ## All results -/

/-- What is remembered in the end: the last error, or what was remembered before. -/
theorem getLast?_failures_or (s : Search) (d : Decoded) (ds : List Decoded)
    (last : Option LookupError) :
    ((d :: ds).filterMap s.failure?).getLast?.or last =
      (ds.filterMap s.failure?).getLast?.or ((s.failure? d).or last) := by
  cases hd : s.failure? d with
  | none => simp [hd]
  | some e =>
    rw [List.filterMap_cons_some hd, List.getLast?_cons]
    cases (ds.filterMap s.failure?).getLast? <;> rfl

/-- The search from any point on.  By induction on the results: the number counts all of them, and
what is remembered counts only if none of them has an error. -/
theorem runFrom_eq (s : Search) (number : Nat) (last : Option LookupError) (ds : List Decoded) :
    s.runFrom number last ds =
      { result :=
          match (ds.zipIdx number).findSome? fun d => s.settles? d.2 d.1 with
          | some answer => answer
          | none => .error (s.exhausted ((ds.filterMap s.failure?).getLast?.or last))
        log :=
          ((ds.zipIdx number).takeWhile fun d => (s.settles? d.2 d.1).isNone).map
            fun d => s.note d.2 d.1 } := by
  induction ds generalizing number last with
  | nil => rfl
  | cons d ds ih =>
    rw [List.zipIdx_cons, List.findSome?_cons, List.takeWhile_cons]
    cases hd : s.settles? number d with
    | some answer =>
      rw [runFrom_cons_of_settles hd]
      simp
    | none =>
      rw [runFrom_cons_of_passes hd, ih, getLast?_failures_or]
      simp [Outcome.after]

/-- What comes after a result that settles the matter is not looked at. -/
theorem runFrom_append_of_settles (before after after' : List Decoded)
    (h : (s.settles? (number + before.length) d).isSome = true) :
    s.runFrom number last (before ++ d :: after) =
      s.runFrom number last (before ++ d :: after') := by
  induction before generalizing number last with
  | nil =>
    rw [List.length_nil, Nat.add_zero] at h
    obtain ⟨answer, hanswer⟩ := Option.isSome_iff_exists.mp h
    rw [List.nil_append, List.nil_append, runFrom_cons_of_settles hanswer,
      runFrom_cons_of_settles hanswer]
  | cons b before ih =>
    rw [List.length_cons, ← Nat.add_assoc, Nat.add_right_comm] at h
    rw [List.cons_append, List.cons_append]
    cases hb : s.settles? number b with
    | some answer => rw [runFrom_cons_of_settles hb, runFrom_cons_of_settles hb]
    | none => rw [runFrom_cons_of_passes hb, runFrom_cons_of_passes hb, ih h]

/-- **The first result that settles the matter decides.**  A search is answered by it alone, with
one entry of the log for each result before it; what comes after it has no influence.  Without such
a result the answer is the last failed look-up, or that there was nothing to look into. -/
theorem run_eq_reference (s : Search) :
    (∀ ds, s.run ds = s.reference ds) ∧
      (∀ before d after after', (s.settles? before.length d).isSome = true →
        s.run (before ++ d :: after) = s.run (before ++ d :: after')) ∧
      ∀ source, locate source s.path s.file s.expr = s.reference (decodeAll source) := by
  have hrun : ∀ ds, s.run ds = s.reference ds := by
    intro ds
    rw [run, runFrom_eq, reference]
    simp
  refine ⟨hrun, fun before d after after' h => ?_, fun source => hrun (decodeAll source)⟩
  exact runFrom_append_of_settles before after after' (by rwa [Nat.zero_add])

/-- The text may go wrong behind the document in which the path leads somewhere, whatever stands
before that one. -/
theorem run_eq_reference_of_malformed_behind :
    let s : Search := ⟨⟨.absolute, [.property "a"]⟩, "f.yaml", "$.a"⟩
    let skipped : List Decoded :=
      [.document (.scalar "null" ⟨1, 1⟩), .document (.mapping [] ⟨2, 1⟩)]
    let found : Decoded :=
      .document (.mapping [(.scalar "a" ⟨3, 1⟩, .scalar "1" ⟨3, 4⟩)] ⟨3, 1⟩)
    (s.settles? skipped.length found).isSome = true ∧
      s.run (skipped ++ found :: [.malformed]) = s.run (skipped ++ found :: []) := by
  intro s skipped found
  have hsettles : (s.settles? skipped.length found).isSome = true := by decide +kernel
  exact ⟨hsettles, (run_eq_reference s).2.1 skipped found [.malformed] [] hsettles⟩

end Search
end Document
end LintLocator
