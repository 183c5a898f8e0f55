import LintLocator.Proofs.Path.Grammar
import LintLocator.Proofs.Text.Slices

/-!
# Reading by offsets

The reader hands on what is still to be read, and offsets only go into its errors.  An expression
may also be kept as it is and read with nothing but a byte offset: what comes next, a name, the text
in a bracket are then slices of the expression.  `Bytewise` is this reader.  A slice that begins or
ends inside of a character or behind the end of the text brings it to a halt, so it gives an answer
only if no slice does.

It always gives an answer, and the same one.  The reason is one invariant: the offset is the width
of what has been read (`readStep_eq`), which a step keeps because its own width is added to it.

* `Bytewise.readStep_eq`, `Bytewise.readSteps_eq`: one step and all steps;
* `Bytewise.readWith_eq`: whole paths, where conditions are read without a halt;
* `Bytewise.read_eq`: paths and the conditions in them.
-/

namespace LintLocator
namespace Bytewise

open Text (from? slice?)

/-! ## Halts -/

/-- What is read with slices: nothing if one of them does not fit, or else an answer. -/
abbrev Reading (α : Type) := ExceptT SyntaxError Option α

variable {α β : Type}

/-- What has been sliced. -/
def took (slice : Option α) : Reading α := slice.map Except.ok

/-- An answer in whose way there is no slice. -/
def answer (x : Except SyntaxError α) : Reading α := some x

/-! ## The reader -/

/-- Reads the name of a property that starts at `start`, and says where it ends. -/
def readProperty (input : List Char) (start : Nat) : Reading (Selector × Nat) := do
  let rest ← took (from? start input)
  let length := Text.width (rest.takeWhile fun c => !Selector.endsName c)
  let name ← took (slice? start length input)
  match name with
  | [] =>
    if rest.isEmpty then throw (.unexpectedEnd start .propertyName)
    else throw (.unexpectedToken start (String.ofList rest) .propertyName)
  | c :: _ =>
    if c == '-' || c == '+' then throw (.invalidProperty start (String.ofList name))
    else return (.property (String.ofList name), start + length)

/-- Reads an index that starts at `start`, and says where its bracket ends. -/
def readIndex (input : List Char) (start : Nat) : Reading (Selector × Nat) := do
  let rest ← took (from? start input)
  match Text.breakOn [']'] rest with
  | none => throw (.unexpectedEnd (Text.width input) (.closing "]"))
  | some (found, _) =>
    let digits ← took (slice? start (Text.width found) input)
    match Decimal.index? digits with
    | none => throw (.invalidIndex start (String.ofList digits))
    | some place => return (.index place, start + Text.width found + 1)

/-- Reads a condition that starts at `start`, and says where the predicate ends. -/
def readPredicate (readCondition : List Char → Reading Condition) (closing : List Char)
    (input : List Char) (start : Nat) : Reading (Selector × Nat) := do
  let rest ← took (from? start input)
  match Text.breakOn closing rest with
  | none => throw (.unexpectedEnd (Text.width input) (.closing (String.ofList closing)))
  | some (found, _) =>
    let condition ← took (slice? start (Text.width found) input)
    let c ← tryCatch (readCondition condition) fun e =>
      throw (.inPredicate start (String.ofList condition) e)
    return (.predicate c, start + Text.width found + Text.width closing)

/-- Reads one step at `offset`, which what comes next classifies. -/
def readStep (readCondition : List Char → Reading Condition) (input : List Char) (offset : Nat) :
    Reading (Selector × Nat) := do
  let rest ← took (from? offset input)
  match rest with
  | '.' :: _ => readProperty input (offset + 1)
  | '[' :: '?' :: '(' :: _ => readPredicate readCondition [')', ']'] input (offset + 3)
  | '[' :: '*' :: ']' :: '?' :: '(' :: _ => readPredicate readCondition [')'] input (offset + 5)
  | '[' :: _ => readIndex input (offset + 1)
  | _ => throw (.unexpectedToken offset (String.ofList rest) .nextStep)

/-- Reads steps up to the end of the text. -/
def readSteps (readCondition : List Char → Reading Condition) (input : List Char) :
    (fuel offset : Nat) → Reading (List Selector)
  | 0, offset => do
    let rest ← took (from? offset input)
    if rest.isEmpty then return []
    else throw (.unexpectedToken offset (String.ofList rest) .nextStep)
  | fuel + 1, offset => do
    let rest ← took (from? offset input)
    if rest.isEmpty then return []
    else
      let (step, next) ← readStep readCondition input offset
      let steps ← readSteps readCondition input fuel next
      return step :: steps

/-- Reads the steps behind the root mark. -/
def readAfterRoot (readCondition : List Char → Reading Condition) (input : List Char)
    (root : Root) : Reading Path := do
  let rest ← took (from? 1 input)
  match rest with
  | [] => throw (.unexpectedEnd 1 .firstDot)
  | '.' :: _ =>
    let selectors ← readSteps readCondition input rest.length 1
    return ⟨root, selectors⟩
  | _ => throw (.missingDot 1 (String.ofList rest) (String.ofList input))

/-- Reads a path whose conditions are read by `readCondition`. -/
def readWith (readCondition : List Char → Reading Condition) (input : List Char) :
    Reading Path := do
  let rest ← took (from? 0 input)
  match rest with
  | [] => throw (.unexpectedEnd 0 .rootMark)
  | '$' :: _ => readAfterRoot readCondition input .absolute
  | '@' :: _ => readAfterRoot readCondition input .current
  | c :: _ => throw (.missingRoot c.toString (String.ofList input))

/-- Reads the right side of a comparison.  A quote in front is sliced off. -/
def literal? (right : List Char) : Reading (Option (List Char)) :=
  match right with
  | [] => return none
  | c :: _ =>
    if c == '"' || c == '\'' then do
      let r ← took (from? 1 right)
      return some (if r.getLast? == some c then r.dropLast else r)
    else return Condition.literal? right

/-- Reads a clause of the text `condition`. -/
def readClause (readPath : List Char → Reading Path) (condition : String) (clause : List Char) :
    Reading Condition :=
  let source := String.ofList (Text.trim clause)
  match Text.splitOn ['=', '='] clause with
  | [left, right] => do
    match ← literal? (Text.trim right) with
    | none => throw (.invalidLiteral (String.ofList (Text.trim right)) source condition)
    | some literal =>
      let path ← tryCatch (readPath (Text.trim left)) fun e =>
        throw (.clausePath source condition e)
      return .equals path (String.ofList literal) source
  | _ => throw (.invalidClause source condition)

/-- Reads a whole condition. -/
def readCondition (readPath : List Char → Reading Path) (condition : List Char) :
    Reading Condition := do
  let alternatives ← (Text.splitOn ['|', '|'] condition).mapM fun alternative => do
    let clauses ← (Text.splitOn ['&', '&'] alternative).mapM
      (readClause readPath (String.ofList condition))
    return Condition.collapse .all clauses
  return Condition.collapse .any alternatives

/-- Reads a path in which conditions and paths are nested at most `depth` deep. -/
def readWithin : (depth : Nat) → List Char → Reading Path
  | 0, input => throw (.unexpectedToken 0 (String.ofList input) .rootMark)
  | depth + 1, input => readWith (readCondition (readWithin depth)) input

/-- Reads a path expression by offsets. -/
def read (expr : String) : Option (Except SyntaxError Path) :=
  (readWithin (expr.toList.length + 1) expr.toList).run

/-! ## No halt -/

@[simp] theorem took_some_bind (a : α) (f : α → Reading β) : (took (some a) >>= f) = f a := rfl

@[simp] theorem answer_bind (x : Except SyntaxError α) (f : α → Except SyntaxError β) :
    (answer x >>= fun a => answer (f a)) = answer (x >>= f) := by
  cases x <;> rfl

/-- Parts that are read without a halt are all read without one. -/
theorem mapM_answer (f : α → Except SyntaxError β) (as : List α) :
    (as.mapM fun a => answer (f a)) = answer (as.mapM f) := by
  induction as with
  | nil => rfl
  | cons a as ih =>
    rw [List.mapM_cons, List.mapM_cons, ih, ← answer_bind]
    refine congrArg _ (funext fun b => ?_)
    rw [← answer_bind]
    rfl

/-! ## Steps -/

/-- Where a step ends that leaves `rest` of the input. -/
def place (input : List Char) (found : Selector × List Char) : Selector × Nat :=
  (found.1, Text.width input - Text.width found.2)

theorem place_append (step : Selector) (t rest : List Char) :
    place (t ++ rest) (step, rest) = (step, Text.width t) := by
  rw [place, Text.width_append, Nat.add_sub_cancel]

theorem readProperty_eq (a s : List Char) :
    readProperty (a ++ s) (Text.width a) =
      answer ((Selector.readProperty (Text.width a) s).map (place (a ++ s))) := by
  obtain ⟨name, rest, hs, hname, hrest⟩ : ∃ name rest, s = name ++ rest ∧
      (s.takeWhile fun c => !Selector.endsName c) = name ∧
      (s.dropWhile fun c => !Selector.endsName c) = rest :=
    ⟨_, _, List.takeWhile_append_dropWhile.symm, rfl, rfl⟩
  have hslice : slice? (Text.width a) (Text.width name) (a ++ s) = some name := by
    rw [hs]
    exact Text.slice?_width a name rest
  simp only [readProperty, Selector.readProperty, Text.from?_width, took_some_bind, hname, hslice,
    hrest]
  cases name with
  | nil => cases s <;> rfl
  | cons c name =>
    simp only
    split
    · rfl
    · have hplace := place_append (.property (String.ofList (c :: name))) (a ++ c :: name) rest
      rw [List.append_assoc, ← hs] at hplace
      simp only [Except.map, hplace, Text.width_append]
      rfl

theorem readIndex_eq (a s : List Char) :
    readIndex (a ++ s) (Text.width a) =
      answer ((Selector.readIndex (Text.width a) s).map (place (a ++ s))) := by
  simp only [readIndex, Selector.readIndex, Text.from?_width, took_some_bind]
  cases hbreak : Text.breakOn [']'] s with
  | none =>
    simp only [Text.width_append]
    rfl
  | some found =>
    obtain ⟨digits, rest⟩ := found
    obtain ⟨hs, -⟩ := (Text.breakOn_eq_some_iff (by simp)).mp hbreak
    have hslice : slice? (Text.width a) (Text.width digits) (a ++ s) = some digits := by
      rw [hs, List.append_assoc]
      exact Text.slice?_width a digits _
    simp only [hslice, took_some_bind]
    cases Decimal.index? digits with
    | none => rfl
    | some n =>
      have hplace := place_append (.index n) (a ++ (digits ++ [']'])) rest
      rw [List.append_assoc, ← hs] at hplace
      simp only [Except.map, hplace, Text.width_append, ← Nat.add_assoc]
      rfl

section Conditions

variable {readInner : List Char → Reading Condition}
  {readCondition : List Char → Except SyntaxError Condition}
  (hinner : ∀ c, readInner c = answer (readCondition c))

include hinner

theorem readPredicate_eq {closing : List Char} (hclosing : closing ≠ []) (a s : List Char) :
    readPredicate readInner closing (a ++ s) (Text.width a) =
      answer ((Selector.readPredicate readCondition closing (Text.width a) s).map
        (place (a ++ s))) := by
  simp only [readPredicate, Selector.readPredicate, Text.from?_width, took_some_bind]
  cases hbreak : Text.breakOn closing s with
  | none =>
    simp only [Text.width_append]
    rfl
  | some found =>
    obtain ⟨condition, rest⟩ := found
    obtain ⟨hs, -⟩ := (Text.breakOn_eq_some_iff hclosing).mp hbreak
    have hslice : slice? (Text.width a) (Text.width condition) (a ++ s) = some condition := by
      rw [hs, List.append_assoc]
      exact Text.slice?_width a condition _
    simp only [hslice, took_some_bind, hinner]
    cases readCondition condition with
    | error e => rfl
    | ok c =>
      have hplace := place_append (.predicate c) (a ++ (condition ++ closing)) rest
      rw [List.append_assoc, ← hs] at hplace
      simp only [Except.map, hplace, Text.width_append, ← Nat.add_assoc]
      rfl

/-- **A step is read by offsets as it is read otherwise**, if the offset is the width of what stands
before it.  Then the offset at which it ends is such a width again. -/
theorem readStep_eq (a s : List Char) :
    readStep readInner (a ++ s) (Text.width a) =
      answer ((Selector.readStep readCondition (Text.width a) s).map (place (a ++ s))) := by
  -- what classifies the step is behind the offset at which its own reader begins
  have hbehind : ∀ t r : List Char, s = t ++ r →
      a ++ s = (a ++ t) ++ r ∧ Text.width a + Text.width t = Text.width (a ++ t) := by
    rintro t r rfl
    exact ⟨(List.append_assoc _ _ _).symm, (Text.width_append _ _).symm⟩
  unfold readStep
  rw [Text.from?_width, took_some_bind]
  split
  · rename_i r
    obtain ⟨htext, hwidth⟩ := hbehind ['.'] r rfl
    rw [Selector.readStep, htext]
    have := readProperty_eq (a ++ ['.']) r
    rwa [← hwidth] at this
  · rename_i r
    obtain ⟨htext, hwidth⟩ := hbehind ['[', '?', '('] r rfl
    rw [Selector.readStep, htext]
    have := @readPredicate_eq _ _ hinner [')', ']'] (by simp) (a ++ ['[', '?', '(']) r
    rwa [← hwidth] at this
  · rename_i r
    obtain ⟨htext, hwidth⟩ := hbehind ['[', '*', ']', '?', '('] r rfl
    rw [Selector.readStep, htext]
    have := @readPredicate_eq _ _ hinner [')'] (by simp) (a ++ ['[', '*', ']', '?', '(']) r
    rwa [← hwidth] at this
  · rename_i r hbracket hstar
    obtain ⟨htext, hwidth⟩ := hbehind ['['] r rfl
    rw [Selector.readStep, htext]
    · have := readIndex_eq (a ++ ['[']) r
      rwa [← hwidth] at this
    · exact hbracket
    · exact hstar
  · rw [Selector.readStep]
    · rfl
    all_goals assumption

/-- **All steps are read alike.** -/
theorem readSteps_eq (fuel : Nat) (a s : List Char) :
    readSteps readInner (a ++ s) fuel (Text.width a) =
      answer (Selector.readSteps readCondition fuel (Text.width a) s) := by
  induction fuel generalizing a s with
  | zero =>
    rw [readSteps, Text.from?_width]
    cases s <;> rfl
  | succ fuel ih =>
    rw [readSteps, Text.from?_width, took_some_bind]
    rcases s with _ | ⟨c, s⟩
    · rfl
    rw [if_neg (by simp), readStep_eq hinner, Selector.readSteps_succ_cons]
    cases hstep : Selector.readStep readCondition (Text.width a) (c :: s) with
    | error e => rfl
    | ok found =>
      obtain ⟨step, rest⟩ := found
      obtain ⟨t, -, hs⟩ := Selector.spells_of_readStep hstep
      -- the step ends where the width of what has been read is now
      have hnext := @Text.width_add_width_sub (c :: s) t a rest hs
      have hplace := place_append step (a ++ t) rest
      have hrest := ih (a ++ t) rest
      rw [List.append_assoc, ← hs] at hplace hrest
      simp only [Except.map, hplace]
      change (readSteps readInner (a ++ c :: s) fuel (Text.width (a ++ t)) >>= fun steps =>
        answer (.ok (step :: steps))) = answer (Selector.readSteps readCondition fuel
          (Text.width a + (Text.width (c :: s) - Text.width rest)) rest >>= fun steps =>
            .ok (step :: steps))
      rw [hrest, answer_bind, hnext]

/-! ## Paths -/

theorem readAfterRoot_eq (root : Root) (mark : Char) (hmark : mark.utf8Size = 1) (r : List Char) :
    readAfterRoot readInner (mark :: r) root =
      answer (Path.readAfterRoot readCondition (String.ofList (mark :: r)) root r) := by
  have hwidth : Text.width [mark] = 1 := (Text.width_singleton mark).trans hmark
  have hrest := Text.from?_width [mark] r
  have hsteps := readSteps_eq hinner r.length [mark] r
  rw [hwidth, List.singleton_append] at hrest hsteps
  unfold readAfterRoot
  rw [hrest, took_some_bind]
  split
  · rfl
  · rw [hsteps]
    exact answer_bind _ fun selectors => .ok (Path.mk root selectors)
  · rw [Path.readAfterRoot]
    · rfl
    all_goals assumption

/-- Whole paths are read alike. -/
theorem readWith_eq (input : List Char) :
    readWith readInner input = answer (Path.readWith readCondition input) := by
  have hrest : from? 0 input = some input := Text.from?_width [] input
  unfold readWith
  rw [hrest, took_some_bind]
  split
  · rfl
  · exact readAfterRoot_eq hinner _ _ rfl _
  · exact readAfterRoot_eq hinner _ _ rfl _
  · rw [Path.readWith]
    · rfl
    all_goals assumption

end Conditions

/-! ## Conditions -/

/-- A quote is one byte. -/
theorem literal?_eq (right : List Char) :
    literal? right = answer (.ok (Condition.literal? right)) := by
  rcases right with _ | ⟨c, r⟩
  · rfl
  unfold literal?
  dsimp only
  split
  · rename_i hquote
    have hwidth : Text.width [c] = 1 := by
      rcases (Bool.or_eq_true _ _).mp hquote with hc | hc
      · rw [eq_of_beq hc]
        rfl
      · rw [eq_of_beq hc]
        rfl
    have hrest := Text.from?_width [c] r
    rw [hwidth, List.singleton_append] at hrest
    rw [hrest, took_some_bind, Condition.literal?, if_pos hquote]
    rfl
  · rfl

section Paths

variable {readInner : List Char → Reading Path} {readPath : List Char → Except SyntaxError Path}
  (hinner : ∀ s, readInner s = answer (readPath s))

include hinner

theorem readClause_eq (condition : String) (clause : List Char) :
    readClause readInner condition clause =
      answer (Condition.readClause readPath condition clause) := by
  unfold readClause Condition.readClause
  dsimp only
  rcases Text.splitOn ['=', '='] clause with _ | ⟨left, _ | ⟨right, _ | _⟩⟩
  case cons.cons.nil =>
    simp only [literal?_eq, hinner]
    cases Condition.literal? (Text.trim right) with
    | none => rfl
    | some literal => cases readPath (Text.trim left) <;> rfl
  all_goals rfl

/-- Conditions are read alike where paths are. -/
theorem readCondition_eq (condition : List Char) :
    readCondition readInner condition = answer (Condition.readWith readPath condition) := by
  have hclause : readClause readInner (String.ofList condition) = fun clause =>
      answer (Condition.readClause readPath (String.ofList condition) clause) :=
    funext (readClause_eq hinner _)
  have hreturn : ∀ (as : List (List Char)) (group : List Condition → Condition)
      (f : List Char → Except SyntaxError Condition),
      (as.mapM (fun a => answer (f a)) >>= fun cs => pure (Condition.collapse group cs)) =
        answer (as.mapM f >>= fun cs => pure (Condition.collapse group cs)) := fun as group f => by
    rw [mapM_answer]
    exact answer_bind _ fun cs => .ok (Condition.collapse group cs)
  unfold readCondition Condition.readWith
  simp only [hclause, hreturn]

end Paths

/-- The reader by offsets is never brought to a halt, and it gives the answer of the other. -/
theorem readWithin_eq (depth : Nat) (input : List Char) :
    readWithin depth input = answer (Path.readWithin depth input) := by
  induction depth generalizing input with
  | zero => rfl
  | succ depth ih => exact readWith_eq (readCondition_eq ih) input

/-- **No slice is out of place.**  Read by offsets, every expression is read as it is otherwise. -/
theorem read_eq (expr : String) : read expr = some (Path.read expr) :=
  readWithin_eq _ _

end Bytewise
end LintLocator
