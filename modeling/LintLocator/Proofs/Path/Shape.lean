import LintLocator.Proofs.Path.Grammar

/-!
# The shapes of what is read

A condition may hold paths and a path conditions, but the clauses of a condition are cut at `==`, so
what is left of the operator holds none.  A condition inside of it therefore has no clause at all,
and reading it fails without looking at any path (`Condition.readWith_of_not_infix`).  Everything
here follows from this:

* `Condition.IsFlat`: the shapes of the conditions that are read, one group of groups of
  comparisons at most, whose paths have no predicates (`Path.isFlat_of_read`);
* `SyntaxError.InPath`, `SyntaxError.InCondition`: how far an error is wrapped
  (`Path.wrapped_of_read`);
* `Path.readWithin_add_two`: two levels of paths are all that a reader ever enters.
-/

namespace LintLocator

/-! ## Shapes -/

/-- A step that is not a predicate. -/
def Selector.IsPlain : Selector → Prop
  | .predicate _ => False
  | _ => True

/-- A path without predicates, of which the first step is a property. -/
def Path.IsPlain (p : Path) : Prop :=
  (∀ s ∈ p.selectors, s.IsPlain) ∧ ∃ name ss, p.selectors = .property name :: ss

namespace Condition

/-- A comparison at the end of a plain path. -/
def IsComparison : Condition → Prop
  | .equals path _ _ => path.IsPlain
  | _ => False

/-- At least two comparisons that all have to hold. -/
def IsConjunction : Condition → Prop
  | .all members => 2 ≤ members.length ∧ ∀ c ∈ members, c.IsComparison
  | _ => False

/-- At least two alternatives. -/
def IsDisjunction : Condition → Prop
  | .any members => 2 ≤ members.length ∧ ∀ c ∈ members, c.IsComparison ∨ c.IsConjunction
  | _ => False

/-- The shapes that a condition can have. -/
def IsFlat (c : Condition) : Prop := c.IsComparison ∨ c.IsConjunction ∨ c.IsDisjunction

end Condition

namespace SyntaxError

/-- An error of a path: one of its own, or one of a condition that is `inner`. -/
inductive InPath (inner : SyntaxError → Prop) : SyntaxError → Prop where
  | missingRoot (found expr : String) : InPath inner (.missingRoot found expr)
  | missingDot (offset : Nat) (found expr : String) : InPath inner (.missingDot offset found expr)
  | unexpectedToken (offset : Nat) (found : String) (expected : Expectation) :
      InPath inner (.unexpectedToken offset found expected)
  | unexpectedEnd (offset : Nat) (expected : Expectation) :
      InPath inner (.unexpectedEnd offset expected)
  | invalidProperty (offset : Nat) (name : String) : InPath inner (.invalidProperty offset name)
  | invalidIndex (offset : Nat) (found : String) : InPath inner (.invalidIndex offset found)
  | inPredicate (offset : Nat) (condition : String) {e : SyntaxError} (h : inner e) :
      InPath inner (.inPredicate offset condition e)

/-- An error of a condition: one of its own, or one of a path that is `inner`. -/
inductive InCondition (inner : SyntaxError → Prop) : SyntaxError → Prop where
  | invalidClause (clause condition : String) : InCondition inner (.invalidClause clause condition)
  | invalidLiteral (literal clause condition : String) :
      InCondition inner (.invalidLiteral literal clause condition)
  | clausePath (clause condition : String) {e : SyntaxError} (h : inner e) :
      InCondition inner (.clausePath clause condition e)

/-- A clause that is not a comparison. -/
def IsInvalidClause : SyntaxError → Prop
  | .invalidClause .. => True
  | _ => False

variable {inner inner' : SyntaxError → Prop} {e : SyntaxError}

theorem InPath.mono (h : InPath inner e) (himp : ∀ d, inner d → inner' d) : InPath inner' e := by
  cases h with
  | inPredicate offset condition h => exact .inPredicate offset condition (himp _ h)
  | missingRoot => exact .missingRoot _ _
  | missingDot => exact .missingDot _ _ _
  | unexpectedToken => exact .unexpectedToken _ _ _
  | unexpectedEnd => exact .unexpectedEnd _ _
  | invalidProperty => exact .invalidProperty _ _
  | invalidIndex => exact .invalidIndex _ _

theorem InCondition.mono (h : InCondition inner e) (himp : ∀ d, inner d → inner' d) :
    InCondition inner' e := by
  cases h with
  | clausePath clause condition h => exact .clausePath clause condition (himp _ h)
  | invalidClause => exact .invalidClause _ _
  | invalidLiteral => exact .invalidLiteral _ _ _

end SyntaxError

/-! ## Readers that fail -/

/-- If the first part cannot be read, the whole cannot. -/
theorem mapM_cons_of_error {ε α β : Type} {f : α → Except ε β} {a : α} {e : ε}
    (h : f a = .error e) (as : List α) : (a :: as).mapM f = .error e := by
  rw [List.mapM_cons, h]
  rfl

/-! ## Conditions -/

namespace Condition

open SyntaxError (InCondition)

variable {readPath : List Char → Except SyntaxError Path} {condition clause : List Char}
  {c : Condition} {e : SyntaxError}

theorem readClause_eq_error {whole : String}
    (h : readClause readPath whole clause = .error e) :
    InCondition (fun d => ∃ s, s <:+: clause ∧ ¬ ['=', '='] <:+: s ∧ readPath s = .error d) e := by
  unfold readClause at h
  dsimp only at h
  split at h
  · rename_i left right hsplit
    have hleft : left ∈ Text.splitOn ['=', '='] clause := by simp [hsplit]
    obtain ⟨hpart, hno⟩ := infix_of_trim_left hleft
    cases hliteral : literal? (Text.trim right) with
    | none =>
      simp only [hliteral, Except.error.injEq] at h
      subst h
      exact .invalidLiteral _ _ _
    | some literal =>
      cases hpath : readPath (Text.trim left) with
      | error d =>
        simp only [hliteral, hpath, Except.error.injEq] at h
        subst h
        exact .clausePath _ _ ⟨_, hpart, hno, hpath⟩
      | ok path => simp [hliteral, hpath] at h
  · obtain rfl := Except.error.inj h
    exact .invalidClause _ _

/-- **Where a condition cannot be read**, a clause of it is at fault, and if the clause is a
comparison, then its left side, in which there is no `==`. -/
theorem readWith_eq_error (h : readWith readPath condition = .error e) :
    InCondition (fun d => ∃ s, s <:+: condition ∧ ¬ ['=', '='] <:+: s ∧ readPath s = .error d)
      e := by
  unfold readWith at h
  rcases bind_eq_error_iff.mp h with h | ⟨alternatives, -, h⟩
  · obtain ⟨alternative, halternative, h⟩ := exists_mem_of_mapM_eq_error h
    rcases bind_eq_error_iff.mp h with h | ⟨clauses, -, h⟩
    · obtain ⟨clause, hclause, h⟩ := exists_mem_of_mapM_eq_error h
      refine (readClause_eq_error h).mono ?_
      rintro d ⟨s, hs, hno, hd⟩
      refine ⟨s, ?_, hno, hd⟩
      exact hs.trans (infix_of_mem_clauses halternative hclause)
    · cases h
  · cases h

/-- **Without `==` there is no condition**, whatever is read as a path. -/
theorem readWith_of_not_infix (h : ¬ ['=', '='] <:+: condition) :
    ∃ clause, ∀ readPath, readWith readPath condition =
      .error (.invalidClause clause (String.ofList condition)) := by
  obtain ⟨alternative, alternatives, hbars⟩ :=
    List.exists_cons_of_ne_nil (Text.splitOn_ne_nil ['|', '|'] condition)
  obtain ⟨clause, clauses, hamps⟩ :=
    List.exists_cons_of_ne_nil (Text.splitOn_ne_nil ['&', '&'] alternative)
  -- already the first clause is at fault
  have hpart : clause <:+: condition :=
    infix_of_mem_clauses (hbars ▸ List.mem_cons_self) (hamps ▸ List.mem_cons_self)
  have hsplit : Text.splitOn ['=', '='] clause = [clause] :=
    Text.splitOn_of_not_infix fun hocc => h (hocc.trans hpart)
  refine ⟨String.ofList (Text.trim clause), fun readPath => ?_⟩
  have hread : readClause readPath (String.ofList condition) clause =
      .error (.invalidClause (String.ofList (Text.trim clause)) (String.ofList condition)) := by
    unfold readClause
    simp only [hsplit]
  unfold readWith
  rw [hbars, mapM_cons_of_error]
  · rfl
  · rw [hamps, mapM_cons_of_error hread]
    rfl

/-- What is read as a clause is a comparison, whose path is read from a text without `==`. -/
theorem ClauseSpells.exists_path (h : ClauseSpells readPath clause c) :
    ∃ s path literal source, ¬ ['=', '='] <:+: s ∧ readPath s = .ok path ∧
      c = .equals path literal source := by
  obtain ⟨left, right, literal, path, hsplit, -, hpath, rfl⟩ := h
  have hleft : left ∈ Text.splitOn ['=', '='] clause := by simp [hsplit]
  exact ⟨_, path, _, _, (infix_of_trim_left hleft).2, hpath, rfl⟩

/-- **The shapes of conditions**, where texts without `==` are read as plain paths only. -/
theorem Spells.isFlat (h : Spells readPath condition c)
    (hplain : ∀ s p, ¬ ['=', '='] <:+: s → readPath s = .ok p → p.IsPlain) : c.IsFlat := by
  obtain ⟨groups, hgroups, rfl⟩ := h
  have hgroup : ∀ group ∈ groups, (collapse .all group).IsComparison ∨
      (collapse .all group).IsConjunction := by
    intro group hmem
    obtain ⟨alternative, -, hclauses⟩ := exists_mem_of_forall₂ hgroups hmem
    have hmembers : ∀ d ∈ group, d.IsComparison := by
      intro d hd
      obtain ⟨clause, -, hclause⟩ := exists_mem_of_forall₂ hclauses hd
      obtain ⟨s, path, literal, source, hno, hpath, rfl⟩ := hclause.exists_path
      exact hplain s path hno hpath
    rcases group with _ | ⟨d, _ | ⟨d', group⟩⟩
    · exact absurd (List.forall₂_nil_right_iff.mp hclauses) (Text.splitOn_ne_nil _ _)
    · exact Or.inl (hmembers d List.mem_cons_self)
    · exact Or.inr ⟨by simp, hmembers⟩
  rcases groups with _ | ⟨group, _ | ⟨group', groups⟩⟩
  · exact absurd (List.forall₂_nil_right_iff.mp hgroups) (Text.splitOn_ne_nil _ _)
  · exact (hgroup group List.mem_cons_self).imp id Or.inl
  · have hmembers : ∀ d ∈ (group :: group' :: groups).map (collapse .all),
        d.IsComparison ∨ d.IsConjunction := by
      intro d hd
      obtain ⟨g, hg, rfl⟩ := List.mem_map.mp hd
      exact hgroup g hg
    exact Or.inr (Or.inr ⟨by simp, hmembers⟩)

end Condition

/-! ## Paths -/

namespace Selector

open SyntaxError (InPath)

variable {readCondition : List Char → Except SyntaxError Condition} {s : List Char}
  {e : SyntaxError}

/-- The errors of reading a text: its own, and those of the conditions in it. -/
abbrev Fails (readCondition : List Char → Except SyntaxError Condition) (s : List Char)
    (e : SyntaxError) : Prop :=
  InPath (fun d => ∃ c, c <:+: s ∧ readCondition c = .error d) e

theorem Fails.widen {t : List Char} (h : Fails readCondition s e) (hst : s <:+: t) :
    Fails readCondition t e := by
  refine h.mono ?_
  rintro d ⟨c, hc, hd⟩
  exact ⟨c, hc.trans hst, hd⟩

theorem readProperty_eq_error {offset : Nat} (h : readProperty offset s = .error e) :
    Fails readCondition s e := by
  unfold readProperty at h
  dsimp only at h
  split at h
  · split at h
    · cases h
      exact .unexpectedEnd _ _
    · cases h
      exact .unexpectedToken _ _ _
  · split at h
    · cases h
      exact .invalidProperty _ _
    · cases h

theorem readIndex_eq_error {offset : Nat} (h : readIndex offset s = .error e) :
    Fails readCondition s e := by
  unfold readIndex at h
  split at h
  · cases h
    exact .unexpectedEnd _ _
  · split at h
    · cases h
      exact .invalidIndex _ _
    · cases h

theorem readPredicate_eq_error {closing : List Char} (hclosing : closing ≠ []) {offset : Nat}
    (h : readPredicate readCondition closing offset s = .error e) : Fails readCondition s e := by
  unfold readPredicate at h
  split at h
  · cases h
    exact .unexpectedEnd _ _
  · rename_i condition rest hbreak
    obtain ⟨rfl, -⟩ := (Text.breakOn_eq_some_iff hclosing).mp hbreak
    split at h
    · rename_i d hd
      cases h
      exact .inPredicate _ _ ⟨condition, List.append_assoc _ _ _ ▸ List.infix_append_left, hd⟩
    · cases h

theorem readStep_eq_error {offset : Nat} (h : readStep readCondition offset s = .error e) :
    Fails readCondition s e := by
  unfold readStep at h
  split at h
  · exact (readProperty_eq_error h).widen (List.suffix_cons _ _).isInfix
  · rename_i r
    exact (readPredicate_eq_error (by simp) h).widen
      (List.suffix_append ['[', '?', '('] r).isInfix
  · rename_i r
    exact (readPredicate_eq_error (by simp) h).widen
      (List.suffix_append ['[', '*', ']', '?', '('] r).isInfix
  · exact (readIndex_eq_error h).widen (List.suffix_cons _ _).isInfix
  · cases h
    exact .unexpectedToken _ _ _

theorem readSteps_eq_error {fuel offset : Nat}
    (h : readSteps readCondition fuel offset s = .error e) : Fails readCondition s e := by
  induction fuel generalizing offset s with
  | zero =>
    rcases s with _ | ⟨c, s⟩
    · cases h
    · cases h
      exact .unexpectedToken _ _ _
  | succ fuel ih =>
    rcases s with _ | ⟨c, s⟩
    · cases h
    · rw [readSteps_succ_cons, bind_eq_error_iff] at h
      rcases h with h | ⟨⟨step, rest⟩, hstep, h⟩
      · exact readStep_eq_error h
      · obtain ⟨t, -, hs⟩ := spells_of_readStep hstep
        rcases bind_eq_error_iff.mp h with h | ⟨steps, -, h⟩
        · exact (ih h).widen (hs ▸ (List.suffix_append t rest).isInfix)
        · cases h

/-- Where no condition can be read, steps that have been read are plain. -/
theorem SpellsAll.isPlain {steps : List Selector} (h : SpellsAll readCondition s steps)
    (hnone : ∀ c d, c <:+: s → readCondition c ≠ .ok d) : ∀ step ∈ steps, step.IsPlain := by
  induction h with
  | nil => simp
  | @cons t u step steps hstep _ ih =>
    intro other hother
    rcases List.mem_cons.mp hother with rfl | hother
    · cases hstep with
      | property => trivial
      | index => trivial
      | @predicate condition c _ hc =>
        have hpart : condition <:+: '[' :: '?' :: '(' :: (condition ++ [')', ']']) :=
          List.infix_append_left.trans (List.suffix_append ['[', '?', '('] _).isInfix
        exact absurd hc (hnone _ _ (List.infix_append_of_infix_left hpart))
      | @filter condition c _ hc =>
        have hpart : condition <:+: '[' :: '*' :: ']' :: '?' :: '(' :: (condition ++ [')']) :=
          List.infix_append_left.trans (List.suffix_append ['[', '*', ']', '?', '('] _).isInfix
        exact absurd hc (hnone _ _ (List.infix_append_of_infix_left hpart))
    · exact ih (fun c d hc => hnone c d (List.infix_append_of_infix_right hc)) other hother

end Selector

namespace Path

open SyntaxError (InPath InCondition IsInvalidClause)

variable {readCondition : List Char → Except SyntaxError Condition} {expr : List Char}
  {e : SyntaxError}

/-- **Where a path cannot be read**, the fault is its own or that of a condition in it. -/
theorem readWith_eq_error (h : readWith readCondition expr = .error e) :
    Selector.Fails readCondition expr e := by
  have hbehind : ∀ {whole : String} {root : Root} {mark : Char} {r : List Char},
      readAfterRoot readCondition whole root r = .error e →
        Selector.Fails readCondition (mark :: r) e := by
    intro whole root mark r h
    unfold readAfterRoot at h
    split at h
    · cases h
      exact .unexpectedEnd _ _
    · rcases bind_eq_error_iff.mp h with h | ⟨selectors, -, h⟩
      · exact (Selector.readSteps_eq_error h).widen (List.suffix_cons _ _).isInfix
      · cases h
    · cases h
      exact .missingDot _ _ _
  unfold readWith at h
  split at h
  · cases h
    exact .unexpectedEnd _ _
  · exact hbehind h
  · exact hbehind h
  · cases h
    exact .missingRoot _ _

theorem exists_property_of_readWith {p : Path} (h : readWith readCondition expr = .ok p) :
    ∃ name ss, p.selectors = .property name :: ss := by
  obtain ⟨text, -, hdot, hsteps⟩ := readWith_eq_ok_iff.mp h
  generalize p.selectors = selectors at hsteps
  cases hsteps with
  | nil => exact absurd hdot (by simp)
  | @cons t u step steps hstep _ =>
    cases hstep with
    | @property name => exact ⟨_, steps, rfl⟩
    | index => exact absurd hdot (by simp)
    | predicate => exact absurd hdot (by simp)
    | filter => exact absurd hdot (by simp)

/-! ### Texts without `==` -/

section NoOperator

variable {readPath : List Char → Except SyntaxError Path} (hno : ¬ ['=', '='] <:+: expr)

include hno

/-- In a text without `==` the steps are plain, -/
theorem isPlain_of_readWith {p : Path}
    (h : readWith (Condition.readWith readPath) expr = .ok p) : p.IsPlain := by
  refine ⟨?_, exists_property_of_readWith h⟩
  obtain ⟨text, rfl, -, hsteps⟩ := readWith_eq_ok_iff.mp h
  refine hsteps.isPlain fun c d hc hd => ?_
  obtain ⟨clause, hclause⟩ := Condition.readWith_of_not_infix
    fun hocc => hno (List.infix_cons (hocc.trans hc))
  rw [hclause] at hd
  cases hd

/-- an error is wrapped once at most, -/
theorem wrapped_of_readWith (h : readWith (Condition.readWith readPath) expr = .error e) :
    InPath IsInvalidClause e := by
  refine (readWith_eq_error h).mono ?_
  rintro d ⟨c, hc, hd⟩
  obtain ⟨clause, hclause⟩ := Condition.readWith_of_not_infix fun hocc => hno (hocc.trans hc)
  rw [hclause] at hd
  cases hd
  trivial

/-- and how paths are read inside of it makes no difference. -/
theorem readWith_eq_of_not_infix (readPath' : List Char → Except SyntaxError Path) :
    readWith (Condition.readWith readPath) expr = readWith (Condition.readWith readPath') expr := by
  refine readWith_congr fun c hc _ => ?_
  obtain ⟨clause, hclause⟩ := Condition.readWith_of_not_infix fun hocc => hno (hocc.trans hc)
  rw [hclause, hclause]

end NoOperator

/-! ### All texts -/

/-- **Two levels are enough.**  A path inside of a condition is the last that is read. -/
theorem readWithin_add_two (depth : Nat) (expr : List Char) :
    readWithin (depth + 2) expr = readWithin 2 expr := by
  rw [readWithin_succ, readWithin_succ]
  refine readWith_congr fun c _ _ => Condition.readWith_congr fun s _ hno => ?_
  rw [readWithin_succ, readWithin_succ]
  exact readWith_eq_of_not_infix hno _

theorem read_eq_readWithin_two (expr : String) : read expr = readWithin 2 expr.toList := by
  rw [← readWithin_add_two (expr.toList.length + 1), read]
  exact readWithin_eq_of_length_lt (by omega) (by omega)

/-- A predicate has been read from the text of a condition. -/
theorem exists_readCondition {p : Path} (h : readWith readCondition expr = .ok p) {c : Condition}
    (hc : .predicate c ∈ p.selectors) : ∃ condition, readCondition condition = .ok c := by
  obtain ⟨text, -, -, hsteps⟩ := readWith_eq_ok_iff.mp h
  generalize p.selectors = selectors at hsteps hc
  induction hsteps with
  | nil => exact absurd hc (by simp)
  | cons hstep _ ih =>
    rcases List.mem_cons.mp hc with rfl | hc
    · cases hstep with
      | predicate _ hread => exact ⟨_, hread⟩
      | filter _ hread => exact ⟨_, hread⟩
    · exact ih hc

theorem isFlat_of_read {expr : String} {p : Path} (h : read expr = .ok p) {c : Condition}
    (hc : .predicate c ∈ p.selectors) : c.IsFlat := by
  rw [read_eq_readWithin_two, readWithin_succ] at h
  obtain ⟨condition, hread⟩ := exists_readCondition h hc
  refine (Condition.readWith_eq_ok_iff.mp hread).isFlat fun s q hno hq => ?_
  rw [readWithin_succ] at hq
  exact isPlain_of_readWith hno hq

theorem wrapped_of_read {expr : String} (h : read expr = .error e) :
    InPath (InCondition (InPath IsInvalidClause)) e := by
  rw [read_eq_readWithin_two, readWithin_succ] at h
  refine (readWith_eq_error h).mono ?_
  rintro d ⟨c, -, hd⟩
  refine (Condition.readWith_eq_error hd).mono ?_
  rintro f ⟨s, -, hno, hf⟩
  rw [readWithin_succ] at hf
  exact wrapped_of_readWith hno hf

end Path

end LintLocator
