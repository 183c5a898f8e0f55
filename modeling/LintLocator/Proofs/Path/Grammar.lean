import LintLocator.Path.Reader
import LintLocator.Proofs.Text.Padding

/-!
# The grammar of paths and conditions

What texts the readers accept, said without reading: `Condition.Spells` and `Selector.Spells` relate
a text to what it stands for, and neither of them knows of offsets, of errors or of a bound on the
nesting.

* `Condition.readWith_eq_ok_iff`, `Selector.readSteps_eq_ok_iff`, `Path.readWith_eq_ok_iff`: each
  reader accepts exactly the texts of its relation.
* `Path.read_eq`, `Condition.read_eq`: the two readers call each other.  The bound on the nesting
  with which they are defined has disappeared, because a clause's path is always shorter than the
  expression around it (`Path.readWithin_eq_of_length_lt`).

The terminator of a predicate is the only place where a text stands against what follows it, and
there the first occurrence decides.  A property name ends before a `.` or a `[`, so a step that
follows it always begins with one of the two.
-/

namespace LintLocator

/-! ## Readers that may fail -/

/-- Every member of the second list is paired with one of the first. -/
theorem exists_mem_of_forall₂ {α β : Type} {R : α → β → Prop} {as : List α} {bs : List β}
    (h : List.Forall₂ R as bs) {b : β} (hb : b ∈ bs) : ∃ a ∈ as, R a b := by
  induction h with
  | nil => exact absurd hb (by simp)
  | cons hd _ ih =>
    rcases List.mem_cons.mp hb with rfl | hb
    · exact ⟨_, List.mem_cons_self, hd⟩
    · obtain ⟨a, ha, h⟩ := ih hb
      exact ⟨a, List.mem_cons_of_mem _ ha, h⟩

theorem bind_eq_ok_iff {ε α β : Type} {x : Except ε α} {f : α → Except ε β} {b : β} :
    (x >>= f) = .ok b ↔ ∃ a, x = .ok a ∧ f a = .ok b := by
  cases x with
  | error e => exact ⟨fun h => (by cases h), fun ⟨_, h, _⟩ => (by cases h)⟩
  | ok a => exact ⟨fun h => ⟨a, rfl, h⟩, fun ⟨_, h, hb⟩ => (by cases h; exact hb)⟩

theorem bind_eq_error_iff {ε α β : Type} {x : Except ε α} {f : α → Except ε β} {e : ε} :
    (x >>= f) = .error e ↔ x = .error e ∨ ∃ a, x = .ok a ∧ f a = .error e := by
  cases x with
  | error d =>
    refine ⟨fun h => Or.inl (by cases h; rfl), fun h => ?_⟩
    rcases h with h | ⟨_, h, _⟩
    · cases h
      rfl
    · cases h
  | ok a =>
    refine ⟨fun h => Or.inr ⟨a, rfl, h⟩, fun h => ?_⟩
    rcases h with h | ⟨_, ha, h⟩
    · cases h
    · cases ha
      exact h

/-- Reading several parts succeeds when reading each of them does. -/
theorem mapM_eq_ok_iff {ε α β : Type} {f : α → Except ε β} {as : List α} {bs : List β} :
    as.mapM f = .ok bs ↔ List.Forall₂ (fun a b => f a = .ok b) as bs := by
  induction as generalizing bs with
  | nil =>
    rw [List.mapM_nil, List.forall₂_nil_left_iff]
    exact ⟨fun h => (by cases h; rfl), fun h => by rw [h]; rfl⟩
  | cons a as ih =>
    rw [List.mapM_cons, List.forall₂_cons_left_iff, bind_eq_ok_iff]
    constructor
    · rintro ⟨b, hb, h⟩
      obtain ⟨bs', hbs, h⟩ := bind_eq_ok_iff.mp h
      cases h
      exact ⟨b, bs', hb, ih.mp hbs, rfl⟩
    · rintro ⟨b, bs', hb, hbs, rfl⟩
      exact ⟨b, hb, bind_eq_ok_iff.mpr ⟨bs', ih.mpr hbs, rfl⟩⟩

/-- Where reading several parts fails, one of them is at fault. -/
theorem exists_mem_of_mapM_eq_error {ε α β : Type} {f : α → Except ε β} {as : List α} {e : ε}
    (h : as.mapM f = .error e) : ∃ a ∈ as, f a = .error e := by
  induction as with
  | nil =>
    rw [List.mapM_nil] at h
    cases h
  | cons a as ih =>
    rw [List.mapM_cons] at h
    rcases bind_eq_error_iff.mp h with h | ⟨b, -, h⟩
    · exact ⟨a, List.mem_cons_self, h⟩
    · rcases bind_eq_error_iff.mp h with h | ⟨bs, -, h⟩
      · obtain ⟨c, hc, h⟩ := ih h
        exact ⟨c, List.mem_cons_of_mem _ hc, h⟩
      · cases h

/-- Parts on which two readers agree are read alike. -/
theorem mapM_congr {ε α β : Type} {f g : α → Except ε β} {as : List α}
    (h : ∀ a ∈ as, f a = g a) : as.mapM f = as.mapM g := by
  induction as with
  | nil => rfl
  | cons a as ih =>
    rw [List.mapM_cons, List.mapM_cons, h a List.mem_cons_self,
      ih fun b hb => h b (List.mem_cons_of_mem _ hb)]

/-! ## Conditions -/

namespace Condition

variable {readPath : List Char → Except SyntaxError Path}

/-- A clause `A == B` and the comparison it stands for. -/
def ClauseSpells (readPath : List Char → Except SyntaxError Path) (clause : List Char)
    (c : Condition) : Prop :=
  ∃ left right literal path, Text.splitOn ['=', '='] clause = [left, right] ∧
    literal? (Text.trim right) = some literal ∧ readPath (Text.trim left) = .ok path ∧
    c = .equals path (String.ofList literal) (String.ofList (Text.trim clause))

/-- The text of a whole condition and what it stands for: clauses in groups of alternatives. -/
def Spells (readPath : List Char → Except SyntaxError Path) (condition : List Char)
    (c : Condition) : Prop :=
  ∃ groups : List (List Condition),
    List.Forall₂ (fun alternative group =>
        List.Forall₂ (ClauseSpells readPath) (Text.splitOn ['&', '&'] alternative) group)
      (Text.splitOn ['|', '|'] condition) groups ∧
    c = collapse .any (groups.map (collapse .all))

theorem readClause_eq_ok_iff {condition : String} {clause : List Char} {c : Condition} :
    readClause readPath condition clause = .ok c ↔ ClauseSpells readPath clause c := by
  unfold readClause ClauseSpells
  constructor
  · intro h
    dsimp only at h
    split at h
    · rename_i left right hsplit
      cases hlit : literal? (Text.trim right) with
      | none => simp [hlit] at h
      | some literal =>
        cases hpath : readPath (Text.trim left) with
        | error e => simp [hlit, hpath] at h
        | ok path =>
          simp only [hlit, hpath, Except.ok.injEq] at h
          exact ⟨left, right, literal, path, hsplit, hlit, hpath, h.symm⟩
    · exact absurd h (by simp)
  · rintro ⟨left, right, literal, path, hsplit, hlit, hpath, rfl⟩
    simp only [hsplit, hlit, hpath]

/-- **What a condition is.**  A text is read as a condition exactly when its clauses are
comparisons, and then the clauses are grouped as the operators between them say. -/
theorem readWith_eq_ok_iff {condition : List Char} {c : Condition} :
    readWith readPath condition = .ok c ↔ Spells readPath condition c := by
  have halternative : ∀ (alternative : List Char) (d : Condition),
      (do
        let clauses ← (Text.splitOn ['&', '&'] alternative).mapM
          (readClause readPath (String.ofList condition))
        return collapse .all clauses : Except SyntaxError Condition) = .ok d ↔
      ∃ group, List.Forall₂ (ClauseSpells readPath) (Text.splitOn ['&', '&'] alternative) group ∧
        d = collapse .all group := by
    intro alternative d
    rw [bind_eq_ok_iff]
    simp only [mapM_eq_ok_iff, readClause_eq_ok_iff]
    exact exists_congr fun group => and_congr_right fun _ =>
      ⟨fun h => (by cases h; rfl), fun h => by rw [h]; rfl⟩
  unfold readWith Spells
  rw [bind_eq_ok_iff]
  simp only [mapM_eq_ok_iff, halternative]
  constructor
  · rintro ⟨alternatives, h, hc⟩
    cases hc
    suffices hgroups : ∃ groups : List (List Condition), List.Forall₂ (fun alternative group =>
        List.Forall₂ (ClauseSpells readPath) (Text.splitOn ['&', '&'] alternative) group)
        (Text.splitOn ['|', '|'] condition) groups ∧
        alternatives = groups.map (collapse .all) by
      obtain ⟨groups, hgroups, rfl⟩ := hgroups
      exact ⟨groups, hgroups, rfl⟩
    generalize Text.splitOn ['|', '|'] condition = pieces at h
    induction h with
    | nil => exact ⟨[], List.Forall₂.nil, rfl⟩
    | cons hd _ ih =>
      obtain ⟨group, hgroup, rfl⟩ := hd
      obtain ⟨groups, hgroups, rfl⟩ := ih
      exact ⟨group :: groups, List.Forall₂.cons hgroup hgroups, rfl⟩
  · rintro ⟨groups, h, rfl⟩
    refine ⟨groups.map (collapse .all), ?_, rfl⟩
    rw [List.forall₂_map_right_iff]
    exact h.imp fun _ group hgroup => ⟨group, hgroup, rfl⟩

/-- What is read as the left side of a comparison is a part of the clause without the operator. -/
theorem infix_of_trim_left {clause left : List Char}
    (h : left ∈ Text.splitOn ['=', '='] clause) :
    Text.trim left <:+: clause ∧ ¬ ['=', '='] <:+: Text.trim left :=
  ⟨(Text.trim_infix left).trans (Text.infix_of_mem_splitOn (by simp) clause left h),
    fun hocc => Text.not_infix_of_mem_splitOn (by simp) clause left h
      (hocc.trans (Text.trim_infix left))⟩

/-- A clause is a part of the condition. -/
theorem infix_of_mem_clauses {condition alternative clause : List Char}
    (halternative : alternative ∈ Text.splitOn ['|', '|'] condition)
    (hclause : clause ∈ Text.splitOn ['&', '&'] alternative) : clause <:+: condition :=
  (Text.infix_of_mem_splitOn (by simp) _ _ hclause).trans
    (Text.infix_of_mem_splitOn (by simp) _ _ halternative)

/-- Readers that agree on the parts of a clause without `==` read it alike. -/
theorem readClause_congr {readPath' : List Char → Except SyntaxError Path} {condition : String}
    {clause : List Char}
    (h : ∀ s, s <:+: clause → ¬ ['=', '='] <:+: s → readPath s = readPath' s) :
    readClause readPath condition clause = readClause readPath' condition clause := by
  unfold readClause
  dsimp only
  split
  · rename_i left right hsplit
    have hleft : left ∈ Text.splitOn ['=', '='] clause := by simp [hsplit]
    obtain ⟨hpart, hno⟩ := infix_of_trim_left hleft
    rw [h _ hpart hno]
  · rfl

/-- Readers that agree on the parts of a condition without `==` read it alike. -/
theorem readWith_congr {readPath' : List Char → Except SyntaxError Path} {condition : List Char}
    (h : ∀ s, s <:+: condition → ¬ ['=', '='] <:+: s → readPath s = readPath' s) :
    readWith readPath condition = readWith readPath' condition := by
  unfold readWith
  congr 1
  refine mapM_congr fun alternative halternative => ?_
  congr 1
  refine mapM_congr fun clause hclause => readClause_congr fun s hs hno => ?_
  exact h s (hs.trans (infix_of_mem_clauses halternative hclause)) hno

end Condition

/-! ## Steps -/

namespace Selector

variable {readCondition : List Char → Except SyntaxError Condition} {s t rest : List Char}

/-- The text of a step and the step it stands for. -/
inductive Spells (readCondition : List Char → Except SyntaxError Condition) :
    List Char → Selector → Prop where
  | property {name : List Char} (hne : name ≠ []) (hends : ∀ c ∈ name, endsName c = false)
      (hsign : ∀ c ∈ name.head?, c ≠ '-' ∧ c ≠ '+') :
      Spells readCondition ('.' :: name) (.property (String.ofList name))
  | index {digits : List Char} {place : Nat} (h : Decimal.index? digits = some place) :
      Spells readCondition ('[' :: (digits ++ [']'])) (.index place)
  | predicate {condition : List Char} {c : Condition} (hclosing : ¬ [')', ']'] <:+: condition)
      (h : readCondition condition = .ok c) :
      Spells readCondition ('[' :: '?' :: '(' :: (condition ++ [')', ']'])) (.predicate c)
  /-- The other spelling of a predicate. -/
  | filter {condition : List Char} {c : Condition} (hclosing : ')' ∉ condition)
      (h : readCondition condition = .ok c) :
      Spells readCondition ('[' :: '*' :: ']' :: '?' :: '(' :: (condition ++ [')']))
        (.predicate c)

/-- The text of several steps and the steps it stands for. -/
inductive SpellsAll (readCondition : List Char → Except SyntaxError Condition) :
    List Char → List Selector → Prop where
  | nil : SpellsAll readCondition [] []
  | cons {t u : List Char} {step : Selector} {steps : List Selector}
      (hstep : Spells readCondition t step) (hsteps : SpellsAll readCondition u steps) :
      SpellsAll readCondition (t ++ u) (step :: steps)

/-- Every step begins with one of the characters that end a name. -/
theorem Spells.exists_cons {step : Selector} (h : Spells readCondition t step) :
    ∃ c r, t = c :: r ∧ endsName c = true := by
  cases h <;> exact ⟨_, _, rfl, rfl⟩

theorem SpellsAll.endsName_of_mem_head? {steps : List Selector}
    (h : SpellsAll readCondition t steps) : ∀ c ∈ t.head?, endsName c = true := by
  cases h with
  | nil => simp
  | cons hstep _ =>
    obtain ⟨c, r, rfl, hc⟩ := hstep.exists_cons
    simpa using hc

/-! ### One step -/

/-- A name that has been read goes on to the next character that ends a name. -/
theorem exists_of_readProperty {offset : Nat} {step : Selector}
    (h : readProperty offset s = .ok (step, rest)) :
    ∃ name, s = name ++ rest ∧ step = .property (String.ofList name) ∧ name ≠ [] ∧
      (∀ c ∈ name, endsName c = false) ∧ (∀ c ∈ name.head?, c ≠ '-' ∧ c ≠ '+') ∧
      ∀ c ∈ rest.head?, endsName c = true := by
  unfold readProperty at h
  dsimp only at h
  split at h
  · split at h <;> exact absurd h (by simp)
  · rename_i c r hname
    split at h
    · exact absurd h (by simp)
    · rename_i hsign
      simp only [Except.ok.injEq, Prod.mk.injEq] at h
      obtain ⟨rfl, rfl⟩ := h
      refine ⟨s.takeWhile fun c => !endsName c, List.takeWhile_append_dropWhile.symm, rfl, ?_,
        fun d hd => ?_, ?_, fun d hd => ?_⟩
      · simp [hname]
      · simpa using List.mem_takeWhile_imp hd
      · simpa [hname] using hsign
      · have hnot := List.head?_dropWhile_not (fun c => !endsName c) s
        rw [Option.mem_def.mp hd] at hnot
        simpa using hnot

theorem readProperty_append {name : List Char} (hne : name ≠ [])
    (hends : ∀ c ∈ name, endsName c = false) (hsign : ∀ c ∈ name.head?, c ≠ '-' ∧ c ≠ '+')
    (hrest : ∀ c ∈ rest.head?, endsName c = true) (offset : Nat) :
    readProperty offset (name ++ rest) = .ok (.property (String.ofList name), rest) := by
  have hcut := List.takeWhile_append_dropWhile (p := fun c => !endsName c) (l := name ++ rest)
  have htake : (name ++ rest).takeWhile (fun c => !endsName c) = name := by
    rw [List.takeWhile_append_of_pos (by simpa using hends)]
    rcases rest with _ | ⟨d, rest⟩
    · simp
    · simp [hrest d rfl]
  have hdrop : (name ++ rest).dropWhile (fun c => !endsName c) = rest := by
    rw [htake] at hcut
    exact List.append_cancel_left hcut
  unfold readProperty
  dsimp only
  rw [htake, hdrop]
  rcases name with _ | ⟨c, name⟩
  · exact absurd rfl hne
  · obtain ⟨hminus, hplus⟩ := hsign c rfl
    simp [hminus, hplus]

/-- An index that has been read goes on to the first bracket. -/
theorem exists_of_readIndex {offset : Nat} {step : Selector}
    (h : readIndex offset s = .ok (step, rest)) :
    ∃ digits place, s = digits ++ ']' :: rest ∧ Decimal.index? digits = some place ∧
      ']' ∉ digits ∧ step = .index place := by
  unfold readIndex at h
  split at h
  · exact absurd h (by simp)
  · rename_i digits rest' hbreak
    obtain ⟨hs, hfirst⟩ := (Text.breakOn_eq_some_iff (by simp)).mp hbreak
    split at h
    · exact absurd h (by simp)
    · rename_i place hplace
      simp only [Except.ok.injEq, Prod.mk.injEq] at h
      obtain ⟨rfl, rfl⟩ := h
      refine ⟨digits, place, by simpa using hs, hplace, fun hmem => hfirst ?_, rfl⟩
      simpa [List.singleton_infix_iff] using hmem

theorem readIndex_append {digits : List Char} {place : Nat}
    (hplace : Decimal.index? digits = some place) (hmem : ']' ∉ digits) (offset : Nat) :
    readIndex offset (digits ++ ']' :: rest) = .ok (.index place, rest) := by
  have hbreak : Text.breakOn [']'] (digits ++ ']' :: rest) = some (digits, rest) :=
    (Text.breakOn_eq_some_iff (by simp)).mpr
      ⟨by simp, by simpa [List.singleton_infix_iff] using hmem⟩
  simp only [readIndex, hbreak, hplace]

theorem readPredicate_eq_ok_iff {closing : List Char} (hclosing : closing ≠ []) {offset : Nat}
    {step : Selector} :
    readPredicate readCondition closing offset s = .ok (step, rest) ↔
      ∃ condition c, s = condition ++ closing ++ rest ∧
        ¬ closing <:+: condition ++ closing.dropLast ∧ readCondition condition = .ok c ∧
        step = .predicate c := by
  unfold readPredicate
  constructor
  · intro h
    split at h
    · exact absurd h (by simp)
    · rename_i condition rest' hbreak
      obtain ⟨hs, hfirst⟩ := (Text.breakOn_eq_some_iff hclosing).mp hbreak
      split at h
      · exact absurd h (by simp)
      · rename_i c hc
        simp only [Except.ok.injEq, Prod.mk.injEq] at h
        obtain ⟨rfl, rfl⟩ := h
        exact ⟨condition, c, hs, hfirst, hc, rfl⟩
  · rintro ⟨condition, c, rfl, hfirst, hc, rfl⟩
    simp only [(Text.breakOn_eq_some_iff hclosing).mpr ⟨rfl, hfirst⟩, hc]

/-- Behind the first `)]` nothing of it is left, so a condition that does not hold it is found
whole. -/
theorem not_infix_append_parenthesis {condition : List Char}
    (h : ¬ [')', ']'] <:+: condition) : ¬ [')', ']'] <:+: condition ++ [')'] := by
  rw [List.infix_concat_iff, not_or]
  refine ⟨fun hsuffix => ?_, h⟩
  have hlast := hsuffix.getLast (by simp)
  simp at hlast

/-- A step that has been read stands at the start of the text. -/
theorem spells_of_readStep {offset : Nat} {step : Selector}
    (h : readStep readCondition offset s = .ok (step, rest)) :
    ∃ t, Spells readCondition t step ∧ s = t ++ rest := by
  unfold readStep at h
  split at h
  · obtain ⟨name, rfl, rfl, hne, hends, hsign, -⟩ := exists_of_readProperty h
    exact ⟨'.' :: name, .property hne hends hsign, rfl⟩
  · obtain ⟨condition, c, rfl, hfirst, hc, rfl⟩ := (readPredicate_eq_ok_iff (by simp)).mp h
    have hclosing : ¬ [')', ']'] <:+: condition := fun hocc =>
      hfirst (List.infix_append_of_infix_left hocc)
    exact ⟨_, .predicate hclosing hc, by simp⟩
  · obtain ⟨condition, c, rfl, hfirst, hc, rfl⟩ := (readPredicate_eq_ok_iff (by simp)).mp h
    have hclosing : ')' ∉ condition := by simpa [List.singleton_infix_iff] using hfirst
    exact ⟨_, .filter hclosing hc, by simp⟩
  · obtain ⟨digits, place, rfl, hplace, -, rfl⟩ := exists_of_readIndex h
    exact ⟨_, .index hplace, by simp⟩
  · exact absurd h (by simp)

/-- The digits of an index are digits. -/
theorem isDigit_of_index? {digits : List Char} {place : Nat}
    (h : Decimal.index? digits = some place) : digits ≠ [] ∧ ∀ c ∈ digits, c.isDigit = true := by
  unfold Decimal.index? at h
  split at h
  · rename_i hcond
    simp only [Bool.and_eq_true, Bool.not_eq_true', List.all_eq_true] at hcond
    exact ⟨by simpa using hcond.1.1, hcond.1.2⟩
  · exact absurd h (by simp)

/-- A step at the start of a text is read, if what follows it can follow a name. -/
theorem readStep_of_spells {step : Selector} (h : Spells readCondition t step)
    (hrest : ∀ c ∈ rest.head?, endsName c = true) (offset : Nat) :
    readStep readCondition offset (t ++ rest) = .ok (step, rest) := by
  cases h with
  | property hne hends hsign =>
    exact readProperty_append hne hends hsign hrest _
  | @index digits place h =>
    obtain ⟨hne, hdigits⟩ := isDigit_of_index? h
    obtain ⟨d, digits, rfl⟩ := List.exists_cons_of_ne_nil hne
    -- a digit is not the start of a predicate
    have hd : d ≠ '?' ∧ d ≠ '*' := by
      have := hdigits d List.mem_cons_self
      constructor <;> rintro rfl <;> exact absurd this (by decide)
    have hmem : ']' ∉ d :: digits := fun hmem => absurd (hdigits _ hmem) (by decide)
    have hread : readStep readCondition offset ('[' :: (d :: digits ++ [']']) ++ rest) =
        readIndex (offset + 1) (d :: digits ++ ']' :: rest) := by
      simpa using readStep_bracket readCondition offset hd.1 hd.2 (digits ++ ']' :: rest)
    rw [hread]
    exact readIndex_append h hmem _
  | @predicate condition c hclosing h =>
    refine (readPredicate_eq_ok_iff (by simp)).mpr ⟨condition, c, ?_, ?_, h, rfl⟩
    · simp
    · exact not_infix_append_parenthesis hclosing
  | @filter condition c hclosing h =>
    refine (readPredicate_eq_ok_iff (by simp)).mpr ⟨condition, c, ?_, ?_, h, rfl⟩
    · simp
    · simpa [List.singleton_infix_iff] using hclosing

/-! ### All steps -/

theorem spellsAll_of_readSteps {fuel offset : Nat} {steps : List Selector}
    (h : readSteps readCondition fuel offset s = .ok steps) : SpellsAll readCondition s steps := by
  induction fuel generalizing offset s steps with
  | zero =>
    rcases s with _ | ⟨c, s⟩
    · cases h
      exact SpellsAll.nil
    · cases h
  | succ fuel ih =>
    rcases s with _ | ⟨c, s⟩
    · cases h
      exact SpellsAll.nil
    · rw [readSteps_succ_cons, bind_eq_ok_iff] at h
      obtain ⟨⟨step, rest⟩, hstep, h⟩ := h
      obtain ⟨more, hmore, h⟩ := bind_eq_ok_iff.mp h
      cases h
      obtain ⟨t, ht, hs⟩ := spells_of_readStep hstep
      rw [hs]
      exact SpellsAll.cons ht (ih hmore)

theorem readSteps_of_spellsAll {steps : List Selector} (h : SpellsAll readCondition s steps)
    {fuel : Nat} (hfuel : s.length ≤ fuel) (offset : Nat) :
    readSteps readCondition fuel offset s = .ok steps := by
  induction h generalizing fuel offset with
  | nil => cases fuel <;> rfl
  | @cons t u step steps hstep hsteps ih =>
    obtain ⟨c, r, rfl, -⟩ := hstep.exists_cons
    rw [List.length_append, List.length_cons] at hfuel
    obtain ⟨fuel, rfl⟩ : ∃ n, fuel = n + 1 := ⟨fuel - 1, by omega⟩
    have hread := readStep_of_spells hstep hsteps.endsName_of_mem_head? offset
    exact bind_eq_ok_iff.mpr ⟨_, hread, bind_eq_ok_iff.mpr ⟨steps, ih (by omega) _, rfl⟩⟩

/-- **What steps are.**  A text is read as steps exactly when it is made of the texts of these
steps; fuel for every character is enough. -/
theorem readSteps_eq_ok_iff {fuel offset : Nat} (hfuel : s.length ≤ fuel)
    {steps : List Selector} :
    readSteps readCondition fuel offset s = .ok steps ↔ SpellsAll readCondition s steps :=
  ⟨spellsAll_of_readSteps, fun h => readSteps_of_spellsAll h hfuel offset⟩

/-! ### Readers that agree on the conditions -/

variable {readCondition' : List Char → Except SyntaxError Condition}

/-- Readers that agree on all parts of a text read a predicate alike. -/
theorem readPredicate_congr {closing : List Char} (hclosing : closing ≠ []) (offset : Nat)
    (h : ∀ c, c <:+: s → readCondition c = readCondition' c) :
    readPredicate readCondition closing offset s =
      readPredicate readCondition' closing offset s := by
  unfold readPredicate
  split
  · rfl
  · rename_i condition rest hbreak
    obtain ⟨rfl, -⟩ := (Text.breakOn_eq_some_iff hclosing).mp hbreak
    rw [h condition (List.append_assoc _ _ _ ▸ List.infix_append_left)]

theorem readStep_congr (offset : Nat) (h : ∀ c, c <:+: s → readCondition c = readCondition' c) :
    readStep readCondition offset s = readStep readCondition' offset s := by
  unfold readStep
  split
  · rfl
  · rename_i r
    exact readPredicate_congr (by simp) _ fun c hc =>
      h c (hc.trans (List.suffix_append ['[', '?', '('] r).isInfix)
  · rename_i r
    exact readPredicate_congr (by simp) _ fun c hc =>
      h c (hc.trans (List.suffix_append ['[', '*', ']', '?', '('] r).isInfix)
  · rfl
  · rfl

/-- Readers that agree on all parts of a text read steps alike. -/
theorem readSteps_congr (fuel offset : Nat)
    (h : ∀ c, c <:+: s → readCondition c = readCondition' c) :
    readSteps readCondition fuel offset s = readSteps readCondition' fuel offset s := by
  induction fuel generalizing offset s with
  | zero => cases s <;> rfl
  | succ fuel ih =>
    rcases s with _ | ⟨c, s⟩
    · rfl
    · rw [readSteps_succ_cons, readSteps_succ_cons, readStep_congr offset h]
      cases hstep : readStep readCondition' offset (c :: s) with
      | error e => rfl
      | ok found =>
        obtain ⟨step, rest⟩ := found
        obtain ⟨t, -, hs⟩ := spells_of_readStep hstep
        change (do let steps ← readSteps readCondition fuel _ rest; return step :: steps) =
          (do let steps ← readSteps readCondition' fuel _ rest; return step :: steps)
        rw [ih _ fun d hd => h d (hs ▸ List.infix_append_of_infix_right hd)]

end Selector

/-! ## Paths -/

namespace Path

variable {readCondition readCondition' : List Char → Except SyntaxError Condition}

/-- Behind the root mark stand the texts of the steps, of which the first begins with a dot. -/
theorem readAfterRoot_eq_ok_iff {whole : String} {root : Root} {s : List Char} {p : Path} :
    readAfterRoot readCondition whole root s = .ok p ↔
      p.root = root ∧ s.head? = some '.' ∧ Selector.SpellsAll readCondition s p.selectors := by
  unfold readAfterRoot
  split
  · simp
  · rename_i r
    rw [bind_eq_ok_iff]
    simp only [Selector.readSteps_eq_ok_iff le_rfl]
    constructor
    · rintro ⟨selectors, h, hp⟩
      cases hp
      exact ⟨rfl, rfl, h⟩
    · rintro ⟨rfl, -, h⟩
      obtain ⟨root, selectors⟩ := p
      exact ⟨selectors, h, rfl⟩
  · rename_i hdot
    refine ⟨fun h => absurd h (by simp), fun ⟨_, h, _⟩ => ?_⟩
    obtain ⟨r, rfl⟩ := List.head?_eq_some_iff.mp h
    exact absurd rfl (hdot r)

/-- **What a path is.**  A text is read as a path exactly when it is the root mark and the texts of
the steps, of which the first begins with a dot. -/
theorem readWith_eq_ok_iff {expr : List Char} {p : Path} :
    readWith readCondition expr = .ok p ↔
      ∃ text, expr = p.root.mark :: text ∧ text.head? = some '.' ∧
        Selector.SpellsAll readCondition text p.selectors := by
  unfold readWith
  constructor
  · intro h
    split at h
    · exact absurd h (by simp)
    · obtain ⟨hroot, hdot, hsteps⟩ := readAfterRoot_eq_ok_iff.mp h
      exact ⟨_, by rw [hroot]; rfl, hdot, hsteps⟩
    · obtain ⟨hroot, hdot, hsteps⟩ := readAfterRoot_eq_ok_iff.mp h
      exact ⟨_, by rw [hroot]; rfl, hdot, hsteps⟩
    · exact absurd h (by simp)
  · rintro ⟨text, rfl, hdot, hsteps⟩
    cases hroot : p.root with
    | absolute => exact readAfterRoot_eq_ok_iff.mpr ⟨hroot, hdot, hsteps⟩
    | current => exact readAfterRoot_eq_ok_iff.mpr ⟨hroot, hdot, hsteps⟩

theorem readAfterRoot_congr (whole : String) (root : Root) {s : List Char}
    (h : ∀ c, c <:+: s → readCondition c = readCondition' c) :
    readAfterRoot readCondition whole root s = readAfterRoot readCondition' whole root s := by
  unfold readAfterRoot
  split
  · rfl
  · rw [Selector.readSteps_congr _ _ h]
  · rfl

/-- Readers that agree on all proper parts of an expression read it alike. -/
theorem readWith_congr {expr : List Char}
    (h : ∀ c, c <:+: expr → c.length < expr.length → readCondition c = readCondition' c) :
    readWith readCondition expr = readWith readCondition' expr := by
  have hbehind : ∀ (mark : Char) (r : List Char), expr = mark :: r →
      ∀ c, c <:+: r → readCondition c = readCondition' c := by
    rintro mark r rfl c hc
    exact h c (List.infix_cons hc) (Nat.lt_succ_of_le hc.length_le)
  unfold readWith
  split
  · rfl
  · exact readAfterRoot_congr _ _ (hbehind _ _ rfl)
  · exact readAfterRoot_congr _ _ (hbehind _ _ rfl)
  · rfl

/-- **The bound on the nesting does not matter** once it exceeds the length of the expression. -/
theorem readWithin_eq_of_length_lt {depth depth' : Nat} {expr : List Char}
    (h : expr.length < depth) (h' : expr.length < depth') :
    readWithin depth expr = readWithin depth' expr := by
  induction depth generalizing depth' expr with
  | zero => omega
  | succ depth ih =>
    obtain ⟨depth', rfl⟩ : ∃ n, depth' = n + 1 := ⟨depth' - 1, by omega⟩
    rw [readWithin_succ, readWithin_succ]
    refine readWith_congr fun c _ hc => Condition.readWith_congr fun s hs _ => ?_
    have hlen := hs.length_le
    exact ih (by omega) (by omega)

/-- A path is read with conditions read as such. -/
theorem read_eq (expr : String) :
    read expr = readWith (fun c => Condition.read (String.ofList c)) expr.toList := by
  rw [read, readWithin_succ]
  refine readWith_congr fun c _ hc => ?_
  rw [Condition.read, String.toList_ofList]
  refine Condition.readWith_congr fun s hs _ => ?_
  have hlen := hs.length_le
  exact readWithin_eq_of_length_lt (by omega) (by omega)

end Path

/-- A condition is read with the left sides of its clauses read as paths. -/
theorem Condition.read_eq (condition : String) :
    Condition.read condition =
      Condition.readWith (fun s => Path.read (String.ofList s)) condition.toList := by
  rw [Condition.read]
  refine Condition.readWith_congr fun s hs _ => ?_
  have hlen := hs.length_le
  rw [Path.read, String.toList_ofList]
  exact Path.readWithin_eq_of_length_lt (by omega) (by omega)

end LintLocator
