import LintLocator.Path.SyntaxError
import LintLocator.Text.Blank
import LintLocator.Text.Decimal

/-!
# Reading paths and conditions

A path is `$` or `@` followed by steps, the first of which is a property:

* `.NAME`, where the name goes on to the next `.` or `[` and starts with no sign;
* `[N]`, where `N` is an index;
* `[?(COND)]`, where the condition goes on to the first `)]`;
* `[*]?(COND)`, where the condition goes on to the first `)`.

A condition is split at `||`, its parts at `&&` and those at `==`, all of it textually: there are
no quotes or parentheses that would protect an operator.  The left side of `==` is a path again,
which is the one recursion of the grammar.  It is tied by `Path.readWithin`, whose first argument
bounds the nesting; a clause's path is shorter than the expression around it, so the length of the
expression is always enough.

The reader for conditions is therefore written over a reader for paths and the other way round.
-/

namespace LintLocator

/-! ## Conditions -/

namespace Condition

/-- Reads the right side of a comparison, which its first character classifies.  A quote is
dropped together with at most one such quote at the end, a digit makes the text a number that is
kept as written, and two words remain. -/
def literal? : List Char → Option (List Char)
  | [] => none
  | c :: r =>
    if c == '"' || c == '\'' then
      some (if r.getLast? == some c then r.dropLast else r)
    else if c.isDigit || c :: r == ['t', 'r', 'u', 'e'] || c :: r == ['f', 'a', 'l', 's', 'e'] then
      some (c :: r)
    else none

theorem literal?_cons (c : Char) (r : List Char) :
    literal? (c :: r) =
      if c == '"' || c == '\'' then
        some (if r.getLast? == some c then r.dropLast else r)
      else if c.isDigit || c :: r == ['t', 'r', 'u', 'e'] ||
          c :: r == ['f', 'a', 'l', 's', 'e'] then some (c :: r)
      else none := rfl

/-- One member stands for itself, several form a group. -/
def collapse (group : List Condition → Condition) : List Condition → Condition
  | [c] => c
  | cs => group cs

/-- Reads a clause `A == B` of the text `condition`.  The right side is looked at first. -/
def readClause (readPath : List Char → Except SyntaxError Path) (condition : String)
    (clause : List Char) : Except SyntaxError Condition :=
  let source := String.ofList (Text.trim clause)
  match Text.splitOn ['=', '='] clause with
  | [left, right] =>
    match literal? (Text.trim right) with
    | none => .error (.invalidLiteral (String.ofList (Text.trim right)) source condition)
    | some literal =>
      match readPath (Text.trim left) with
      | .error e => .error (.clausePath source condition e)
      | .ok path => .ok (.equals path (String.ofList literal) source)
  | _ => .error (.invalidClause source condition)

/-- Reads a whole condition: alternatives, each made of clauses that all have to hold. -/
def readWith (readPath : List Char → Except SyntaxError Path) (condition : List Char) :
    Except SyntaxError Condition := do
  let alternatives ← (Text.splitOn ['|', '|'] condition).mapM fun alternative => do
    let clauses ← (Text.splitOn ['&', '&'] alternative).mapM
      (readClause readPath (String.ofList condition))
    return collapse .all clauses
  return collapse .any alternatives

end Condition

/-! ## Steps -/

namespace Selector

/-- Whether a character ends a property name. -/
def endsName (c : Char) : Bool := c == '.' || c == '['

/-- Reads the name of a property that starts at `offset`, and what follows it. -/
def readProperty (offset : Nat) (s : List Char) : Except SyntaxError (Selector × List Char) :=
  let name := s.takeWhile fun c => !endsName c
  match name with
  | [] =>
    if s.isEmpty then .error (.unexpectedEnd offset .propertyName)
    else .error (.unexpectedToken offset (String.ofList s) .propertyName)
  | c :: _ =>
    if c == '-' || c == '+' then .error (.invalidProperty offset (String.ofList name))
    else .ok (.property (String.ofList name), s.dropWhile fun c => !endsName c)

/-- Reads an index that starts at `offset` and its closing bracket. -/
def readIndex (offset : Nat) (s : List Char) : Except SyntaxError (Selector × List Char) :=
  match Text.breakOn [']'] s with
  | none => .error (.unexpectedEnd (offset + Text.width s) (.closing "]"))
  | some (digits, rest) =>
    match Decimal.index? digits with
    | none => .error (.invalidIndex offset (String.ofList digits))
    | some place => .ok (.index place, rest)

/-- Reads a condition that starts at `offset` and goes on to the first `closing`. -/
def readPredicate (readCondition : List Char → Except SyntaxError Condition) (closing : List Char)
    (offset : Nat) (s : List Char) : Except SyntaxError (Selector × List Char) :=
  match Text.breakOn closing s with
  | none => .error (.unexpectedEnd (offset + Text.width s) (.closing (String.ofList closing)))
  | some (condition, rest) =>
    match readCondition condition with
    | .error e => .error (.inPredicate offset (String.ofList condition) e)
    | .ok c => .ok (.predicate c, rest)

/-- Reads one step at `offset`, which its first characters classify. -/
def readStep (readCondition : List Char → Except SyntaxError Condition) (offset : Nat) :
    List Char → Except SyntaxError (Selector × List Char)
  | '.' :: r => readProperty (offset + 1) r
  | '[' :: '?' :: '(' :: r => readPredicate readCondition [')', ']'] (offset + 3) r
  | '[' :: '*' :: ']' :: '?' :: '(' :: r => readPredicate readCondition [')'] (offset + 5) r
  | '[' :: r => readIndex (offset + 1) r
  | s => .error (.unexpectedToken offset (String.ofList s) .nextStep)

/-- A bracket that does not begin a predicate begins an index. -/
theorem readStep_bracket (readCondition : List Char → Except SyntaxError Condition) (offset : Nat)
    {c : Char} (hquestion : c ≠ '?') (hstar : c ≠ '*') (r : List Char) :
    readStep readCondition offset ('[' :: c :: r) = readIndex (offset + 1) (c :: r) := by
  simp [readStep, hquestion, hstar]

/-- Reads steps to the end of the text; every step is at least one character, so `fuel` need not
exceed the length of the text. -/
def readSteps (readCondition : List Char → Except SyntaxError Condition) :
    (fuel offset : Nat) → List Char → Except SyntaxError (List Selector)
  | _, _, [] => .ok []
  | 0, offset, s => .error (.unexpectedToken offset (String.ofList s) .nextStep)
  | fuel + 1, offset, s => do
    let (step, rest) ← readStep readCondition offset s
    let steps ← readSteps readCondition fuel (offset + (Text.width s - Text.width rest)) rest
    return step :: steps

theorem readSteps_succ_cons (readCondition : List Char → Except SyntaxError Condition)
    (fuel offset : Nat) (c : Char) (s : List Char) :
    readSteps readCondition (fuel + 1) offset (c :: s) =
      readStep readCondition offset (c :: s) >>= fun found =>
        readSteps readCondition fuel (offset + (Text.width (c :: s) - Text.width found.2))
          found.2 >>= fun steps => pure (found.1 :: steps) := rfl

end Selector

/-! ## Paths -/

namespace Path

/-- Reads the steps behind the root mark, the first of which has to be a property. -/
def readAfterRoot (readCondition : List Char → Except SyntaxError Condition) (expr : String)
    (root : Root) (s : List Char) : Except SyntaxError Path :=
  match s with
  | [] => .error (.unexpectedEnd 1 .firstDot)
  | '.' :: _ => do
    let selectors ← Selector.readSteps readCondition s.length 1 s
    return ⟨root, selectors⟩
  | _ => .error (.missingDot 1 (String.ofList s) expr)

/-- Reads a path whose conditions are read by `readCondition`. -/
def readWith (readCondition : List Char → Except SyntaxError Condition) (expr : List Char) :
    Except SyntaxError Path :=
  match expr with
  | [] => .error (.unexpectedEnd 0 .rootMark)
  | '$' :: r => readAfterRoot readCondition (String.ofList expr) .absolute r
  | '@' :: r => readAfterRoot readCondition (String.ofList expr) .current r
  | c :: _ => .error (.missingRoot c.toString (String.ofList expr))

/-- Reads a path in which conditions and paths are nested at most `depth` deep. -/
def readWithin : (depth : Nat) → List Char → Except SyntaxError Path
  | 0, expr => .error (.unexpectedToken 0 (String.ofList expr) .rootMark)
  | depth + 1, expr => readWith (Condition.readWith (readWithin depth)) expr

theorem readWithin_succ (depth : Nat) (expr : List Char) :
    readWithin (depth + 1) expr = readWith (Condition.readWith (readWithin depth)) expr := rfl

/-- Reads a path expression such as `$.spec.containers[?(@.name == 'nginx')].image`. -/
def read (expr : String) : Except SyntaxError Path :=
  readWithin (expr.toList.length + 1) expr.toList

end Path

/-- Reads a condition, the text between the parentheses of a predicate. -/
def Condition.read (condition : String) : Except SyntaxError Condition :=
  Condition.readWith (Path.readWithin (condition.toList.length + 1)) condition.toList

end LintLocator
