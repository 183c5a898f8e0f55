import LintLocator.Proofs.Path.Bytewise
import LintLocator.Proofs.Path.Clauses
import LintLocator.Proofs.Path.Spelling

/-!
# Where an expression is at fault

An error says at which offset something is wrong and what stands there.  `Path.Fault` and
`Condition.Fault` say what an error has to do with the text that could not be read: the offset is
the width of a beginning of the text, what the error quotes stands behind it, and what stands before
the step at fault is a path or the mark with which one starts.  The two follow an error inwards: the
error in a condition is about the condition, and that in the left side of a clause about this side.

The readers of steps are handed what has been read as `before`, which is begun (`IsBegun`) all the
while; a step that is read keeps it so (`IsBegun.append`), and a step that is not puts the blame on
what comes behind (`fault_of_readStep`).  A whole path and a whole condition follow from each other
by induction on the length of the text.

* `fault_of_readSteps`: the steps behind a path that is begun;
* `fault_of_read`: paths, and with them conditions;
* `Path.read_error_at_fault`: what is reported, where, and that no slice is out of place.
-/

namespace LintLocator

/-! ## Faults -/

namespace Path

/-- What stands before a step that is at fault: a bare root mark, or a path. -/
def IsBegun (before : List Char) : Prop :=
  before = ['$'] ∨ before = ['@'] ∨ ∃ p, read (String.ofList before) = .ok p

/-- The text `found` stands in `expr` at the byte `offset`, between `opening` and `after`.  The step
at fault begins with `opening`, and all that stands before it is valid. -/
def Blames (expr : List Char) (offset : Nat) (opening found after : List Char) : Prop :=
  ∃ valid, IsBegun valid ∧ expr = valid ++ opening ++ found ++ after ∧
    offset = Text.width (valid ++ opening)

/-- The texts around a condition. -/
inductive Encloses : (opening closing : List Char) → Prop where
  | bracket : Encloses ['[', '?', '('] [')', ']']
  | star : Encloses ['[', '*', ']', '?', '('] [')']

/-- A text breaks off where something is expected: there is no root mark, no step behind it, no name
behind a dot, or what has been opened is not closed.  All before the last step is valid. -/
inductive BreaksOff : List Char → Expectation → Prop where
  | rootMark : BreaksOff [] .rootMark
  | firstDot (root : Root) : BreaksOff [root.mark] .firstDot
  | propertyName {valid : List Char} (h : IsBegun valid) : BreaksOff (valid ++ ['.']) .propertyName
  | index {valid rest : List Char} (h : IsBegun valid) (hclosing : ']' ∉ rest) :
      BreaksOff (valid ++ ['['] ++ rest) (.closing "]")
  | condition {valid opening closing rest : List Char} (h : IsBegun valid)
      (hopening : Encloses opening closing) (hclosing : ¬ closing <:+: rest) :
      BreaksOff (valid ++ opening ++ rest) (.closing (String.ofList closing))

end Path

mutual

/-- How an error points into the text of what should have been a path. -/
inductive Path.Fault : List Char → SyntaxError → Prop where
  | missingRoot {c : Char} (h : c ≠ '$' ∧ c ≠ '@') (r : List Char) :
      Path.Fault (c :: r) (.missingRoot c.toString (String.ofList (c :: r)))
  | missingDot (root : Root) {found : List Char}
      (hfound : found ≠ [] ∧ found.head? ≠ some '.') :
      Path.Fault (root.mark :: found)
        (.missingDot 1 (String.ofList found) (String.ofList (root.mark :: found)))
  /-- What stands behind a step begins no step. -/
  | strayToken {expr found : List Char} {offset : Nat} (h : Path.Blames expr offset [] found [])
      (hfound : found ≠ []) (hhead : ∀ c ∈ found.head?, Selector.endsName c = false) :
      Path.Fault expr (.unexpectedToken offset (String.ofList found) .nextStep)
  /-- What stands behind a dot begins the next step. -/
  | missingName {expr found : List Char} {offset : Nat}
      (h : Path.Blames expr offset ['.'] found []) (hfound : found ≠ [])
      (hhead : ∀ c ∈ found.head?, Selector.endsName c = true) :
      Path.Fault expr (.unexpectedToken offset (String.ofList found) .propertyName)
  | unexpectedEnd {expr : List Char} {expected : Expectation} (h : Path.BreaksOff expr expected) :
      Path.Fault expr (.unexpectedEnd (Text.width expr) expected)
  /-- The name goes on to where the next step begins. -/
  | invalidProperty {expr name after : List Char} {offset : Nat}
      (h : Path.Blames expr offset ['.'] name after)
      (hname : name.head? = some '-' ∨ name.head? = some '+')
      (hends : ∀ c ∈ name, Selector.endsName c = false)
      (hafter : ∀ c ∈ after.head?, Selector.endsName c = true) :
      Path.Fault expr (.invalidProperty offset (String.ofList name))
  | invalidIndex {expr found after : List Char} {offset : Nat}
      (h : Path.Blames expr offset ['['] found (']' :: after)) (hclosing : ']' ∉ found)
      (hfound : Decimal.index? found = none) :
      Path.Fault expr (.invalidIndex offset (String.ofList found))
  /-- The condition goes on to the first text that ends it. -/
  | inPredicate {expr opening condition closing after : List Char} {offset : Nat}
      {e : SyntaxError} (h : Path.Blames expr offset opening condition (closing ++ after))
      (hopening : Path.Encloses opening closing)
      (hclosing : ¬ closing <:+: condition ++ closing.dropLast)
      (hinner : Condition.Fault condition e) :
      Path.Fault expr (.inPredicate offset (String.ofList condition) e)

/-- How an error points into the text of what should have been a condition: to one of its clauses,
and into the trimmed left side of the clause if this is no path. -/
inductive Condition.Fault : List Char → SyntaxError → Prop where
  | invalidClause {condition clause : List Char} {groups : List (List (List Char))}
      {pieces : List (List Char)} (hgroups : Condition.Clauses condition groups)
      (hclause : clause ∈ groups.flatten) (hcut : Text.FallsInto ['=', '='] clause pieces)
      (hlength : pieces.length ≠ 2) :
      Condition.Fault condition
        (.invalidClause (String.ofList (Text.trim clause)) (String.ofList condition))
  | invalidLiteral {condition clause left right : List Char} {groups : List (List (List Char))}
      (hgroups : Condition.Clauses condition groups) (hclause : clause ∈ groups.flatten)
      (hcut : Text.FallsInto ['=', '='] clause [left, right])
      (hliteral : ∀ literal, ¬ Condition.Denotes (Text.trim right) literal) :
      Condition.Fault condition (.invalidLiteral (String.ofList (Text.trim right))
        (String.ofList (Text.trim clause)) (String.ofList condition))
  | clausePath {condition clause left right : List Char} {groups : List (List (List Char))}
      {e : SyntaxError} (hgroups : Condition.Clauses condition groups)
      (hclause : clause ∈ groups.flatten)
      (hcut : Text.FallsInto ['=', '='] clause [left, right])
      (hinner : Path.Fault (Text.trim left) e) :
      Condition.Fault condition
        (.clausePath (String.ofList (Text.trim clause)) (String.ofList condition) e)

end

/-- The offset of an error, if it has one of its own. -/
def SyntaxError.offset? : SyntaxError → Option Nat
  | .missingDot offset .. | .unexpectedToken offset .. | .unexpectedEnd offset _
  | .invalidProperty offset _ | .invalidIndex offset _ | .inPredicate offset .. => some offset
  | .missingRoot .. | .invalidClause .. | .invalidLiteral .. | .clausePath .. => none

namespace Selector

variable {readCondition : List Char → Except SyntaxError Condition}

theorem SpellsAll.append {t u : List Char} {steps more : List Selector}
    (h : SpellsAll readCondition t steps) (hmore : SpellsAll readCondition u more) :
    SpellsAll readCondition (t ++ u) (steps ++ more) := by
  induction h with
  | nil => exact hmore
  | cons hstep _ ih =>
    rw [List.append_assoc]
    exact .cons hstep ih

end Selector

namespace Path

open Selector (Spells SpellsAll)
open Selector.Spelling (readInner)

/-! ## What has been read -/

variable {before s t rest : List Char} {step : Selector} {e : SyntaxError}

/-- What is begun is a root mark and steps, the first of which is a property if there is one. -/
theorem isBegun_iff : IsBegun before ↔ ∃ (root : Root) (text : List Char) (steps : List Selector),
    before = root.mark :: text ∧ SpellsAll readInner text steps ∧
      (text = [] ∨ text.head? = some '.') := by
  constructor
  · rintro (rfl | rfl | ⟨p, hp⟩)
    · exact ⟨.absolute, [], [], rfl, .nil, .inl rfl⟩
    · exact ⟨.current, [], [], rfl, .nil, .inl rfl⟩
    · rw [read_eq, String.toList_ofList, readWith_eq_ok_iff] at hp
      obtain ⟨text, rfl, hdot, hsteps⟩ := hp
      exact ⟨p.root, text, p.selectors, rfl, hsteps, .inr hdot⟩
  · rintro ⟨root, text, steps, rfl, hsteps, rfl | hdot⟩
    · cases root with
      | absolute => exact .inl rfl
      | current => exact .inr (.inl rfl)
    · refine .inr (.inr ⟨⟨root, steps⟩, ?_⟩)
      rw [read_eq, String.toList_ofList, readWith_eq_ok_iff]
      exact ⟨text, rfl, hdot, hsteps⟩

theorem isBegun_mark (root : Root) : IsBegun [root.mark] :=
  isBegun_iff.mpr ⟨root, [], [], rfl, .nil, .inl rfl⟩

/-- One step more is still a beginning.  Behind the bare root mark it has to be a property. -/
theorem IsBegun.append (h : IsBegun before) (hstep : Spells readInner t step)
    (hdot : before.length = 1 → t.head? = some '.') : IsBegun (before ++ t) := by
  obtain ⟨root, text, steps, rfl, hsteps, hhead⟩ := isBegun_iff.mp h
  refine isBegun_iff.mpr ⟨root, text ++ t, steps ++ [step], rfl, ?_, .inr ?_⟩
  · have hone : SpellsAll readInner (t ++ []) [step] := .cons hstep .nil
    rw [List.append_nil] at hone
    exact hsteps.append hone
  · rcases hhead with rfl | hhead
    · exact hdot rfl
    · rw [List.head?_append, hhead]
      rfl

/-! ## Steps that are not read -/

/-- Behind a valid beginning, the blame is where the opening of a step ends. -/
theorem IsBegun.blames (h : IsBegun before) (opening found after : List Char) :
    Blames (before ++ opening ++ found ++ after) (Text.width (before ++ opening)) opening found
      after :=
  ⟨before, h, rfl, rfl⟩

theorem fault_of_readProperty (h : IsBegun before)
    (herror : Selector.readProperty (Text.width (before ++ ['.'])) s = .error e) :
    Fault (before ++ ['.'] ++ s) e := by
  have hcut := List.takeWhile_append_dropWhile (p := fun c => !Selector.endsName c) (l := s)
  have hrest : ∀ c ∈ (s.dropWhile fun c => !Selector.endsName c).head?,
      Selector.endsName c = true := by
    intro c hc
    have hnot := List.head?_dropWhile_not (fun c => !Selector.endsName c) s
    rw [Option.mem_def.mp hc] at hnot
    simpa using hnot
  unfold Selector.readProperty at herror
  dsimp only at herror
  split at herror
  · split at herror
    · rename_i hempty
      obtain rfl := List.isEmpty_iff.mp hempty
      cases herror
      rw [List.append_nil]
      exact .unexpectedEnd (.propertyName h)
    · rename_i hname hempty
      cases herror
      have hblames := h.blames ['.'] s []
      rw [List.append_nil] at hblames
      refine .missingName hblames (by simpa using hempty) fun c hc => ?_
      -- nothing has been taken, so what is left is the whole
      rw [hname, List.nil_append] at hcut
      rw [hcut] at hrest
      exact hrest c hc
  · rename_i c r hname
    split at herror
    · rename_i hsign
      cases herror
      have hblames := h.blames ['.'] (s.takeWhile fun c => !Selector.endsName c)
        (s.dropWhile fun c => !Selector.endsName c)
      rw [List.append_assoc _ (s.takeWhile _), hcut] at hblames
      refine .invalidProperty hblames ?_ (fun d hd => ?_) hrest
      · rw [hname]
        simpa using hsign
      · simpa using List.mem_takeWhile_imp hd
    · cases herror

theorem fault_of_readIndex (h : IsBegun before)
    (herror : Selector.readIndex (Text.width (before ++ ['['])) s = .error e) :
    Fault (before ++ ['['] ++ s) e := by
  unfold Selector.readIndex at herror
  split at herror
  · rename_i hbreak
    cases herror
    rw [← Text.width_append]
    refine .unexpectedEnd (.index h fun hmem => Text.breakOn_eq_none_iff.mp hbreak ?_)
    simpa [List.singleton_infix_iff] using hmem
  · rename_i found after hbreak
    obtain ⟨rfl, hfirst⟩ := (Text.breakOn_eq_some_iff (by simp)).mp hbreak
    split at herror
    · rename_i hfound
      cases herror
      have hblames := h.blames ['['] found ([']'] ++ after)
      rw [List.append_assoc _ found, ← List.append_assoc found] at hblames
      refine .invalidIndex hblames (fun hmem => hfirst ?_) hfound
      simpa [List.singleton_infix_iff] using hmem
    · cases herror

theorem Encloses.closing_ne_nil {opening closing : List Char} (h : Encloses opening closing) :
    closing ≠ [] := by
  cases h <;> exact List.cons_ne_nil _ _

/-- The condition that cannot be read stands behind the opening of the predicate. -/
theorem fault_of_readPredicate (h : IsBegun before) {opening closing : List Char}
    (hopening : Encloses opening closing)
    (hinner : ∀ c, c <:+: s → ∀ d, readInner c = .error d → Condition.Fault c d)
    (herror : Selector.readPredicate readInner closing (Text.width (before ++ opening)) s =
      .error e) :
    Fault (before ++ opening ++ s) e := by
  unfold Selector.readPredicate at herror
  split at herror
  · rename_i hbreak
    cases herror
    rw [← Text.width_append]
    exact .unexpectedEnd (.condition h hopening (Text.breakOn_eq_none_iff.mp hbreak))
  · rename_i condition after hbreak
    obtain ⟨rfl, hfirst⟩ := (Text.breakOn_eq_some_iff hopening.closing_ne_nil).mp hbreak
    split at herror
    · rename_i d hd
      cases herror
      have hblames := h.blames opening condition (closing ++ after)
      rw [List.append_assoc _ condition, ← List.append_assoc condition] at hblames
      refine .inPredicate hblames hopening hfirst (hinner condition ?_ d hd)
      rw [List.append_assoc]
      exact (List.prefix_append _ _).isInfix
    · cases herror

/-- **A step that cannot be read is to blame**, and not what stands before it. -/
theorem fault_of_readStep (h : IsBegun before) (hs : s ≠ [])
    (hinner : ∀ c, c <:+: s → ∀ d, readInner c = .error d → Condition.Fault c d)
    (herror : Selector.readStep readInner (Text.width before) s = .error e) :
    Fault (before ++ s) e := by
  -- what classifies the step is behind the offset at which its own reader begins
  have hbehind : ∀ t : List Char, Text.width before + Text.width t = Text.width (before ++ t) :=
    fun t => (Text.width_append _ _).symm
  unfold Selector.readStep at herror
  split at herror
  · rename_i r
    have hfault := fault_of_readProperty (s := r) h ((hbehind ['.']) ▸ herror)
    rwa [List.append_assoc] at hfault
  · rename_i r
    have hfault := fault_of_readPredicate (s := r) h .bracket
      (fun c hc => hinner c (hc.trans (List.suffix_append ['[', '?', '('] r).isInfix))
      ((hbehind ['[', '?', '(']) ▸ herror)
    rwa [List.append_assoc] at hfault
  · rename_i r
    have hfault := fault_of_readPredicate (s := r) h .star
      (fun c hc => hinner c (hc.trans (List.suffix_append ['[', '*', ']', '?', '('] r).isInfix))
      ((hbehind ['[', '*', ']', '?', '(']) ▸ herror)
    rwa [List.append_assoc] at hfault
  · rename_i r _ _
    have hfault := fault_of_readIndex (s := r) h ((hbehind ['[']) ▸ herror)
    rwa [List.append_assoc] at hfault
  · rename_i hdot _ _ hbracket
    cases herror
    have hblames := h.blames [] s []
    simp only [List.append_nil] at hblames
    refine .strayToken hblames hs fun c hc => ?_
    obtain ⟨r, rfl⟩ := List.head?_eq_some_iff.mp hc
    have hne : c ≠ '.' ∧ c ≠ '[' := by
      constructor
      · rintro rfl
        exact hdot r rfl
      · rintro rfl
        exact hbracket r rfl
    simp [Selector.endsName, hne]

/-- **Steps behind what is begun**: the first that cannot be read is to blame. -/
theorem fault_of_readSteps {fuel : Nat} (hfuel : s.length ≤ fuel) (h : IsBegun before)
    (hdot : before.length = 1 → s.head? = some '.')
    (hinner : ∀ c, c <:+: s → ∀ d, readInner c = .error d → Condition.Fault c d)
    (herror : Selector.readSteps readInner fuel (Text.width before) s = .error e) :
    Fault (before ++ s) e := by
  induction fuel generalizing before s with
  | zero =>
    obtain rfl := List.length_eq_zero_iff.mp (Nat.le_zero.mp hfuel)
    cases herror
  | succ fuel ih =>
    rcases s with _ | ⟨c, s⟩
    · cases herror
    rw [Selector.readSteps_succ_cons, bind_eq_error_iff] at herror
    rcases herror with herror | ⟨⟨step, rest⟩, hstep, herror⟩
    · exact fault_of_readStep h (by simp) hinner herror
    · obtain ⟨t, ht, hs⟩ := Selector.spells_of_readStep hstep
      obtain ⟨d, r, rfl, -⟩ := ht.exists_cons
      rcases bind_eq_error_iff.mp herror with herror | ⟨_, -, herror⟩
      · have hbegun : IsBegun (before ++ d :: r) := h.append ht fun hlength => by
          have hhead := hdot hlength
          rw [hs] at hhead
          exact hhead
        rw [Text.width_add_width_sub hs] at herror
        have hshorter : rest.length ≤ fuel := by
          have hlength := congrArg List.length hs
          rw [List.length_append, List.length_cons, List.length_cons] at hlength
          rw [List.length_cons] at hfuel
          omega
        have hfault := ih hshorter hbegun (fun hlength => ?_) (fun c hc => hinner c ?_) herror
        · rwa [List.append_assoc, ← hs] at hfault
        · -- behind a step there is more than the root mark
          obtain ⟨root, text, -, rfl, -, -⟩ := isBegun_iff.mp h
          simp at hlength
        · exact hs ▸ hc.trans (List.suffix_append _ _).isInfix
      · cases herror

/-! ## Whole texts -/

/-- A path that cannot be read, if its conditions are known to be at fault themselves. -/
theorem fault_of_readWith {expr : List Char}
    (hinner : ∀ c, c <:+: expr → c.length < expr.length → ∀ d, readInner c = .error d →
      Condition.Fault c d)
    (herror : readWith readInner expr = .error e) : Fault expr e := by
  have hroot : ∀ (root : Root) (r : List Char), expr = root.mark :: r →
      root.mark.utf8Size = 1 →
      readAfterRoot readInner (String.ofList expr) root r = .error e → Fault expr e := by
    rintro root r rfl hsize herror
    have hwidth : Text.width [root.mark] = 1 := (Text.width_singleton _).trans hsize
    unfold readAfterRoot at herror
    split at herror
    · cases herror
      exact hwidth ▸ .unexpectedEnd (.firstDot root)
    · rcases bind_eq_error_iff.mp herror with herror | ⟨_, -, herror⟩
      · refine fault_of_readSteps le_rfl (isBegun_mark root) (fun _ => rfl) (fun c hc => ?_)
          (hwidth.symm ▸ herror)
        exact hinner c (List.infix_cons hc) (Nat.lt_succ_of_le hc.length_le)
      · cases herror
    · rename_i hne hdot
      cases herror
      refine .missingDot root ⟨hne, fun hhead => ?_⟩
      obtain ⟨t, rfl⟩ := List.head?_eq_some_iff.mp hhead
      exact hdot t rfl
  unfold readWith at herror
  split at herror
  · cases herror
    exact .unexpectedEnd .rootMark
  · exact hroot .absolute _ rfl rfl herror
  · exact hroot .current _ rfl rfl herror
  · rename_i hdollar hat
    cases herror
    exact .missingRoot ⟨hdollar, hat⟩ _

end Path

/-- A condition that cannot be read, if the left sides of its clauses are known to be at fault
themselves. -/
theorem Condition.fault_of_read {condition : List Char} {e : SyntaxError}
    (hinner : ∀ left, left <:+: condition → ∀ d, Path.read (String.ofList left) = .error d →
      Path.Fault left d)
    (herror : read (String.ofList condition) = .error e) : Fault condition e := by
  have hgroups : Clauses (String.ofList condition).toList _ := clauses_iff.mpr rfl
  obtain ⟨before, clause, after, hsplit, -, herrs⟩ := (read_eq_error_iff hgroups).mp herror
  rw [String.toList_ofList] at hgroups hsplit
  have hclause : clause ∈ _ := hsplit ▸ List.mem_append_right before List.mem_cons_self
  cases herrs with
  | noComparison hcut hlength => exact .invalidClause hgroups hclause hcut hlength
  | noLiteral hcut hliteral => exact .invalidLiteral hgroups hclause hcut hliteral
  | @noPath left right _ e hcut _ hpath =>
    refine .clausePath hgroups hclause hcut (hinner _ ?_ e hpath)
    -- the left side is a part of the clause and this a part of the condition
    obtain ⟨group, hgroup, hmem⟩ := List.mem_flatten.mp hclause
    obtain ⟨alternative, halternative, rfl⟩ := List.mem_map.mp hgroup
    have hleft : left ∈ Text.splitOn ['=', '='] clause := by
      rw [(Text.fallsInto_iff (by simp)).mp hcut]
      exact List.mem_cons_self
    exact (infix_of_trim_left hleft).1.trans (infix_of_mem_clauses halternative hmem)

/-- **A path that cannot be read is at fault**, and so is what is inside of it. -/
theorem Path.fault_of_read {expr : List Char} {e : SyntaxError}
    (herror : read (String.ofList expr) = .error e) : Fault expr e := by
  induction hn : expr.length using Nat.strong_induction_on generalizing expr e with
  | h n ih =>
    rw [read_eq, String.toList_ofList] at herror
    refine fault_of_readWith (fun c _ hlength d hd => ?_) herror
    refine Condition.fault_of_read (fun left hleft d' hd' => ?_) hd
    have hle := hleft.length_le
    exact ih left.length (by omega) hd' rfl

namespace Path

variable {expr : List Char} {e : SyntaxError}

/-- Where there is blame, the expression is cut, and a step begins shortly before. -/
theorem Blames.exists_cut {opening found after : List Char} {offset : Nat}
    (h : Blames expr offset opening found after) (hopening : Text.width opening ≤ 5) :
    ∃ before rest, expr = before ++ rest ∧ Text.width before = offset ∧ (rest ≠ [] →
      ∃ valid opening, before = valid ++ opening ∧ Text.width opening ≤ 5 ∧ IsBegun valid) := by
  obtain ⟨valid, hvalid, rfl, rfl⟩ := h
  exact ⟨valid ++ opening, found ++ after, by simp, rfl,
    fun _ => ⟨valid, opening, rfl, hopening, hvalid⟩⟩

/-- An offset is a place where the text can be cut.  Unless this is the end of the text, a step
begins at most five bytes before, and all before that step is valid. -/
theorem Fault.exists_cut (h : Fault expr e) : ∀ n ∈ e.offset?, ∃ before rest,
    expr = before ++ rest ∧ Text.width before = n ∧ (rest ≠ [] →
      ∃ valid opening, before = valid ++ opening ∧ Text.width opening ≤ 5 ∧ IsBegun valid) := by
  cases h with
  | missingRoot => exact fun n hn => absurd hn (by simp [SyntaxError.offset?])
  | unexpectedEnd =>
    rintro n ⟨⟩
    exact ⟨expr, [], (List.append_nil _).symm, rfl, fun hne => absurd rfl hne⟩
  | @missingDot root found =>
    rintro n ⟨⟩
    refine ⟨[root.mark], found, rfl, ?_, fun _ => ⟨[root.mark], [], rfl, by decide, ?_⟩⟩
    · cases root <;> rfl
    · exact isBegun_mark root
  | strayToken h =>
    rintro n ⟨⟩
    exact h.exists_cut (by decide)
  | missingName h =>
    rintro n ⟨⟩
    exact h.exists_cut (by decide)
  | invalidProperty h =>
    rintro n ⟨⟩
    exact h.exists_cut (by decide)
  | invalidIndex h =>
    rintro n ⟨⟩
    exact h.exists_cut (by decide)
  | inPredicate h hopening =>
    rintro n ⟨⟩
    exact h.exists_cut (by cases hopening <;> decide)

/-- **Errors point at the fault.**  If an expression cannot be read, its error quotes what stands at
its offset, behind a beginning that is valid, and what is at fault inside of a condition is pointed
at in the same way.  The offset is the number of bytes of a beginning of the expression; unless this
is the whole, the step at fault begins at most five bytes before.  Read with nothing but offsets
into the expression, no slice is ever out of place. -/
theorem read_error_at_fault (expr : String) :
    (∀ e, read expr = .error e → Fault expr.toList e ∧
      ∀ n ∈ e.offset?, ∃ before rest, expr = before ++ rest ∧ before.utf8ByteSize = n ∧
        (rest ≠ "" → ∃ valid opening, before = valid ++ opening ∧ opening.utf8ByteSize ≤ 5 ∧
          IsBegun valid.toList)) ∧
      Bytewise.read expr = some (read expr) := by
  refine ⟨fun e he => ?_, Bytewise.read_eq expr⟩
  have hfault : Fault expr.toList e := fault_of_read (by rwa [String.ofList_toList])
  refine ⟨hfault, fun n hn => ?_⟩
  obtain ⟨before, rest, hsplit, rfl, hstep⟩ := hfault.exists_cut n hn
  refine ⟨String.ofList before, String.ofList rest, ?_, (Text.width_eq_utf8ByteSize _).symm,
    fun hne => ?_⟩
  · rw [← String.ofList_append, ← hsplit, String.ofList_toList]
  · obtain ⟨valid, opening, rfl, hwidth, hvalid⟩ := hstep fun hnil => hne (by rw [hnil])
    refine ⟨String.ofList valid, String.ofList opening, String.ofList_append, ?_, ?_⟩
    · rwa [← Text.width_eq_utf8ByteSize]
    · rwa [String.toList_ofList]

/-- The offset counts two bytes for the letter with two dots. -/
example : read "$.ä[?(@.ö[x]==1)]" = .error (.inPredicate 7 "@.ö[x]==1"
    (.clausePath "@.ö[x]==1" "@.ö[x]==1" (.invalidIndex 5 "x"))) := rfl

end Path
end LintLocator
