import LintLocator.Path

/-!
# Why an expression is not a path

Every way in which reading a path or a condition can fail is one constructor, with the texts that
a message about it needs.  Offsets count bytes from the start of the expression being read; an
error inside a condition is wrapped by what stands around it, and the offsets inside count from
the start of the clause's own path.
-/

namespace LintLocator

/-- What would have to come next where an expression breaks off or goes wrong. -/
inductive Expectation where
  | rootMark
  | firstDot
  | propertyName
  | nextStep
  /-- The text that ends a bracket or a predicate. -/
  | closing (text : String)
  deriving DecidableEq, Repr, Inhabited

/-- The words for what was expected. -/
def Expectation.text : Expectation → String
  | .rootMark => "`$` or `@`"
  | .firstDot => "`.` after the root marker"
  | .propertyName => "property name"
  | .nextStep => "any of `.`, `[`"
  | .closing s => "`" ++ s ++ "`"

/-- Why an expression could not be read. -/
inductive SyntaxError where
  /-- The expression starts with something else than a root mark. -/
  | missingRoot (found expr : String)
  /-- The root mark is not followed by a dot. -/
  | missingDot (offset : Nat) (found expr : String)
  /-- Something stands where a step or a name should start. -/
  | unexpectedToken (offset : Nat) (found : String) (expected : Expectation)
  /-- The expression breaks off. -/
  | unexpectedEnd (offset : Nat) (expected : Expectation)
  /-- A property name starts with a sign. -/
  | invalidProperty (offset : Nat) (name : String)
  /-- What stands in brackets is not an index. -/
  | invalidIndex (offset : Nat) (found : String)
  /-- A clause is not a single comparison. -/
  | invalidClause (clause condition : String)
  /-- The right side of a clause is not a literal. -/
  | invalidLiteral (literal clause condition : String)
  /-- The left side of a clause is not a path. -/
  | clausePath (clause condition : String) (inner : SyntaxError)
  /-- The condition of a predicate cannot be read. -/
  | inPredicate (offset : Nat) (condition : String) (inner : SyntaxError)
  deriving DecidableEq, Repr, Inhabited

namespace SyntaxError

/-- The message for people. -/
def message : SyntaxError → String
  | missingRoot found expr =>
    "expression must start with $ or @, but got `" ++ found ++ "` in `" ++ expr ++ "`"
  | missingDot offset found expr =>
    "the root element must be queried by .KEY, but got `" ++ found ++ "` at position " ++
      toString offset ++ " in `" ++ expr ++ "`"
  | unexpectedToken offset found expected =>
    "unexpected `" ++ found ++ "` at position " ++ toString offset ++ ", expected " ++ expected.text
  | unexpectedEnd offset expected =>
    "unexpected end of expression at position " ++ toString offset ++ ", expected " ++
      expected.text
  | invalidProperty offset name =>
    "property name `" ++ name ++ "` at position " ++ toString offset ++
      " must not begin with `-` or `+`"
  | invalidIndex offset found =>
    "converting `" ++ found ++ "` at position " ++ toString offset ++
      " to an index: expected decimal digits"
  | invalidClause clause condition =>
    "unsupported expression `" ++ clause ++
      "`: wanted an equality expression like `A == B` in `" ++ condition ++ "`"
  | invalidLiteral literal clause condition =>
    "parsing right side of `" ++ clause ++ "`: unexpected literal `" ++ literal ++ "` in `" ++
      condition ++ "`"
  | clausePath clause condition inner =>
    "parsing left side of `" ++ clause ++ "` in `" ++ condition ++ "`: " ++ inner.message
  | inPredicate offset condition inner =>
    "parsing predicate `" ++ condition ++ "` at position " ++ toString offset ++ ": " ++
      inner.message

end SyntaxError
end LintLocator
