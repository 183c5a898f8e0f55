import LintLocator.Proofs.Document.Settling
import LintLocator.Proofs.Path.WrittenForm

/-!
# Two ways into a file

A file is searched for an expression or for a path that has been read before.  What is found does
not depend on which of the two it was.  The text of the expression only serves the messages: it
stands in the errors of a search and nowhere else (`Search.run_calling`), and what settles a search
or fails in it does not know the text at all.

A path that has been read can also be written and handed in as an expression again.  Then there is
no difference left, since the written form is read as the same path and the messages show this form
in either case.

* `LocateError.calling`: an error with another text for the path in it;
* `readAbsolute_render`: what is written for an absolute path is read as this path;
* `resolve_eq_resolvePath`: how the two ways agree.
-/

namespace LintLocator

namespace LocateError

/-- The same error, in which the path is called `expr`. -/
def calling (expr : String) : LocateError → LocateError
  | .notAbsolute _ => .notAbsolute expr
  | .badExpression _ inner => .badExpression expr inner
  | .unreadable file inner => .unreadable file inner
  | .malformed file => .malformed file
  | .notAMapping file document found => .notAMapping file document found
  | .unreachable file _ inner => .unreachable file expr inner
  | .nothingThere file _ => .nothingThere file expr

end LocateError

namespace Document

namespace Search

variable {s : Search} {number : Nat} {d : Decoded}

/-- The same search, in which the path is called `expr`. -/
def calling (expr : String) (s : Search) : Search := { s with expr := expr }

/-- What settles a search does not speak of the path. -/
theorem mapError_calling_of_settles {answer : Except LocateError Position}
    (h : s.settles? number d = some answer) (expr : String) :
    answer.mapError (LocateError.calling expr) = answer := by
  obtain rfl | ⟨u, rfl⟩ | ⟨found, rfl⟩ := cases_of_settles h
  · rfl
  · rfl
  · rfl

theorem exhausted_calling (expr : String) (s : Search) (last : Option LookupError) :
    (s.calling expr).exhausted last = (s.exhausted last).calling expr := by
  cases last with
  | none => rfl
  | some e => rfl

/-- **The text for the path only stands in the errors.**  Whatever a search is answered is what it
is answered under another text, but for this text. -/
theorem run_calling (expr : String) (s : Search) (ds : List Decoded) :
    ((s.calling expr).run ds).result = (s.run ds).result.mapError (LocateError.calling expr) := by
  have hsettles : (s.calling expr).settles? = s.settles? := by
    funext number d
    cases d <;> rfl
  have hfailure : (s.calling expr).failure? = s.failure? := by
    funext d
    cases d <;> rfl
  rw [run, run, runFrom_eq, runFrom_eq, hsettles, hfailure]
  cases hfound : ds.zipIdx.findSome? fun d => s.settles? d.2 d.1 with
  | none => exact congrArg Except.error (exhausted_calling expr s _)
  | some answer =>
    obtain ⟨d, -, hd⟩ := List.exists_of_findSome?_eq_some hfound
    exact (mapError_calling_of_settles hd expr).symm

end Search

variable {files : FileTree} {file expr : String} {p : Path}

/-- A file is searched in the same way whatever the path is called. -/
theorem locateIn_calling (files : FileTree) (file : String) (p : Path) (expr expr' : String) :
    (locateIn files file p expr').result =
      (locateIn files file p expr).result.mapError (LocateError.calling expr') := by
  rw [locateIn, locateIn]
  cases files.read file with
  | error e => rfl
  | ok source => exact Search.run_calling expr' ⟨p, file, expr⟩ (decodeAll source)

/-- What is read as an absolute path begins with its mark and is read as a path. -/
theorem readAbsolute_eq_ok_iff :
    readAbsolute expr = .ok p ↔ expr.toList.head? = some '$' ∧ Path.read expr = .ok p := by
  rw [readAbsolute]
  split
  · next h =>
    rw [beq_iff_eq] at h
    cases Path.read expr <;> simp [h]
  · next h =>
    rw [beq_iff_eq] at h
    simp [h]

/-- **What is written for an absolute path is read as this path.** -/
theorem readAbsolute_render (h : readAbsolute expr = .ok p) : readAbsolute p.render = .ok p := by
  obtain ⟨hmark, hread⟩ := readAbsolute_eq_ok_iff.mp h
  rw [Path.read_eq] at hread
  simp only [Condition.read_eq, String.toList_ofList] at hread
  obtain ⟨text, htext, hdot, hsteps⟩ := Path.readWith_eq_ok_iff.mp hread
  refine readAbsolute_eq_ok_iff.mpr ⟨?_, ?_⟩
  · rw [htext] at hmark
    rw [Path.toList_render]
    exact hmark
  · rw [Path.read_eq]
    simp only [Condition.read_eq, String.toList_ofList]
    exact Path.readWith_eq_ok_iff.mpr
      ⟨_, Path.toList_render p, hsteps.head?_render hdot, hsteps.render⟩

/-- **The two ways into a file agree.**  If an expression is read as a path, the file is searched
for either of them with the same answer, where errors call the path by the expression or as it is
written; and searching for what is written is the same as searching for the path, to the last entry
of the log.  If the expression is at fault, this is the answer for every file. -/
theorem resolve_eq_resolvePath (files : FileTree) (file expr : String) :
    (∀ p, readAbsolute expr = .ok p →
      (resolve files file expr).result =
          (resolvePath files file p).result.mapError (LocateError.calling expr) ∧
        (resolvePath files file p).result =
          (resolve files file expr).result.mapError (LocateError.calling p.render) ∧
        resolve files file p.render = resolvePath files file p) ∧
    ∀ e, readAbsolute expr = .error e → resolve files file expr = .failed e := by
  refine ⟨fun p hp => ?_, fun e he => by rw [resolve, he]⟩
  have hresolve : ∀ {text : String}, readAbsolute text = .ok p →
      resolve files file text = locateIn files file p text := by
    intro text htext
    rw [resolve, htext]
  rw [hresolve hp, hresolve (readAbsolute_render hp)]
  exact ⟨locateIn_calling files file p p.render expr, locateIn_calling files file p expr p.render,
    rfl⟩

/-- A filter is written as a predicate.  It fits no item, and the two ways say so in their own
words.  An expression without a dot is refused before it turns out that there is no such file. -/
theorem resolve_eq_resolvePath_of_filter :
    let files : FileTree := .folder [("f", .file [0x61, 0x3A, 0x20, 0x5B, 0x5D])]
    ∃ p e, readAbsolute "$.a[*]?(@.b=='x')" = .ok p ∧ readAbsolute "$a" = .error e ∧
      p.render = "$.a[?(@.b=='x')]" ∧ (resolvePath files "f" p).result.toOption = none ∧
      ((resolve files "f" "$.a[*]?(@.b=='x')").result =
          (resolvePath files "f" p).result.mapError (LocateError.calling "$.a[*]?(@.b=='x')") ∧
        (resolvePath files "f" p).result =
          (resolve files "f" "$.a[*]?(@.b=='x')").result.mapError
            (LocateError.calling p.render) ∧
        resolve files "f" p.render = resolvePath files "f" p) ∧
      resolve files "g" "$a" = .failed e := by
  intro files
  have hread : readAbsolute "$.a[*]?(@.b=='x')" = .ok ⟨.absolute,
      [.property "a", .predicate (.equals ⟨.current, [.property "b"]⟩ "x" "@.b=='x'")]⟩ := rfl
  have hrefused : readAbsolute "$a" = .error (.badExpression "$a" (.missingDot 1 "a" "$a")) := rfl
  exact ⟨_, _, hread, hrefused, rfl, by decide +kernel,
    (resolve_eq_resolvePath files "f" _).1 _ hread,
    (resolve_eq_resolvePath files "g" "$a").2 _ hrefused⟩

end Document
end LintLocator
