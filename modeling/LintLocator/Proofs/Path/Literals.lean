import LintLocator.Proofs.Path.Clauses

/-!
# Right sides without quotes

A comparison may ask for a number or for one of two words without quotes around them.  The words are
compared as a whole, but a number is known by its first digit, and nothing looks at what stands
behind it.  So a text that begins with a digit and goes on with something else (`IsStray`) is taken
as well, and the comparison asks for all of it: `1abc`, and also `8080 & x`, where an operator has
been mistyped.

* `denotes_iff_of_not_isQuoted`: the texts without quotes that are taken, and what they ask for;
* `exists_clause_of_mem_leaves`: every comparison in a condition is made by a clause;
* `Condition.read_unquoted`: what is taken and refused in conditions.
-/

namespace LintLocator
namespace Condition

/-- A quote stands in front of the text. -/
def IsQuoted (s : List Char) : Prop := s.head? = some '"' ∨ s.head? = some '\''

/-- One of the two words. -/
def IsWord (s : List Char) : Prop := s = ['t', 'r', 'u', 'e'] ∨ s = ['f', 'a', 'l', 's', 'e']

/-- A number is a run of digits. -/
def IsNumber (s : List Char) : Prop := s ≠ [] ∧ ∀ d ∈ s, '0' ≤ d ∧ d ≤ '9'

/-- A text that begins like a number and is none. -/
def IsStray (s : List Char) : Prop := (∃ d ∈ s.head?, '0' ≤ d ∧ d ≤ '9') ∧ ¬ IsNumber s

section Clause

variable {right literal clause left : List Char} {c : Condition}

theorem isNumber_or_isStray_iff :
    IsNumber right ∨ IsStray right ↔ ∃ d ∈ right.head?, '0' ≤ d ∧ d ≤ '9' := by
  by_cases hnumber : IsNumber right
  · obtain ⟨hne, hdigits⟩ := id hnumber
    obtain ⟨d, r, rfl⟩ := List.exists_cons_of_ne_nil hne
    exact iff_of_true (.inl hnumber) ⟨d, rfl, hdigits d List.mem_cons_self⟩
  · simp [IsStray, hnumber]

/-- **What is taken without quotes** asks for itself: the words and all that begins with a digit. -/
theorem denotes_iff_of_not_isQuoted (hquote : ¬ IsQuoted right) :
    Denotes right literal ↔
      literal = right ∧ (IsWord right ∨ IsNumber right ∨ IsStray right) := by
  rw [isNumber_or_isStray_iff]
  have hno : ∀ {q : Char} {r : List Char}, right = q :: r → ¬ (q = '"' ∨ q = '\'') := by
    rintro q r rfl hq
    exact hquote (hq.imp (congrArg some) (congrArg some))
  constructor
  · rintro (⟨hq⟩ | ⟨hq⟩ | ⟨hd⟩ | _ | _)
    · exact absurd hq (hno rfl)
    · exact absurd hq (hno rfl)
    · exact ⟨rfl, .inr ⟨_, rfl, hd⟩⟩
    · exact ⟨rfl, .inl (.inl rfl)⟩
    · exact ⟨rfl, .inl (.inr rfl)⟩
  · rintro ⟨rfl, (rfl | rfl) | ⟨d, hhead, hd⟩⟩
    · exact .yes
    · exact .no
    · obtain ⟨r, rfl⟩ := List.head?_eq_some_iff.mp hhead
      exact .number hd r

/-- The trimmed text of a clause is cut where the clause is. -/
theorem exists_cut_of_trim (hcut : Text.FallsInto ['=', '='] clause [left, right]) :
    ∃ left' right', Text.FallsInto ['=', '='] (Text.trim clause) [left', right'] ∧
      Text.trim left' = Text.trim left ∧ Text.trim right' = Text.trim right := by
  have hsplit := (Text.fallsInto_iff (by simp)).mp hcut
  have hpieces := Text.splitOn_trim_congr (List.cons_ne_nil '=' ['=']) (Text.notBlank_pair rfl)
    (Text.trim_trim clause)
  rw [hsplit] at hpieces
  obtain ⟨left', rest, hsplit', hleft, hrest⟩ := List.map_eq_cons_iff.mp hpieces
  obtain ⟨right', rest, rfl, hright, hnil⟩ := List.map_eq_cons_iff.mp hrest
  rw [List.map_eq_nil_iff.mp hnil] at hsplit'
  exact ⟨left', right', (Text.fallsInto_iff (by simp)).mpr hsplit', hleft, hright⟩

/-- Every comparison in a condition is made by one of the clauses. -/
theorem exists_clause_of_mem_leaves {text : String} {leaf : Condition}
    (hread : read text = .ok c) (hleaf : leaf ∈ c.leaves) : ∃ clause, Compares clause leaf := by
  obtain ⟨members, hmembers, rfl⟩ := (read_eq_ok_iff_members (clauses_iff.mpr rfl)).mp hread
  rw [leaves_of_compares hmembers] at hleaf
  obtain ⟨clause, -, hcompares⟩ := exists_mem_of_forall₂ (List.rel_flatten hmembers) hleaf
  exact ⟨clause, hcompares⟩

end Clause

/-- **Right sides without quotes.**  A comparison in a condition that asks for something without
quotes asks for the whole right side, and this is a word, a number or a text that begins like a
number.  A clause with such a right side is a comparison whenever its left side is a path.  With any
other right side there is no condition, and the error says so unless a clause before it is wrong. -/
theorem read_unquoted (text : String) :
    (∀ c, read text = .ok c → ∀ path literal source, .equals path literal source ∈ c.leaves →
      ∃ left right, Text.FallsInto ['=', '='] source.toList [left, right] ∧
        (¬ IsQuoted (Text.trim right) → literal.toList = Text.trim right ∧
          (IsWord literal.toList ∨ IsNumber literal.toList ∨ IsStray literal.toList))) ∧
      ∀ groups before clause after left right, Clauses text.toList groups →
        groups.flatten = before ++ clause :: after →
        Text.FallsInto ['=', '='] clause [left, right] → ¬ IsQuoted (Text.trim right) →
        (IsWord (Text.trim right) ∨ IsNumber (Text.trim right) ∨ IsStray (Text.trim right) →
          ((∃ c, Compares clause c) ↔
            ∃ path, Path.read (String.ofList (Text.trim left)) = .ok path)) ∧
        (¬ (IsWord (Text.trim right) ∨ IsNumber (Text.trim right) ∨ IsStray (Text.trim right)) →
          (∃ e, read text = .error e) ∧
          ((∀ b ∈ before, ∃ c, Compares b c) → read text = .error (.invalidLiteral
            (String.ofList (Text.trim right)) (String.ofList (Text.trim clause)) text))) := by
  constructor
  · intro c hread path literal source hleaf
    obtain ⟨clause, hcompares⟩ := exists_clause_of_mem_leaves hread hleaf
    obtain ⟨hcut, hliteral, -⟩ := hcompares
    obtain ⟨left', right', hcut', -, hright⟩ := exists_cut_of_trim hcut
    rw [String.toList_ofList, String.toList_ofList]
    refine ⟨left', right', hcut', fun hquote => ?_⟩
    rw [hright] at hquote ⊢
    obtain ⟨rfl, hkind⟩ := (denotes_iff_of_not_isQuoted hquote).mp hliteral
    exact ⟨rfl, hkind⟩
  · intro groups before clause after left right hgroups hsplit hcut hquote
    have hdenotes := fun literal => @denotes_iff_of_not_isQuoted (Text.trim right) literal hquote
    refine ⟨fun hkind => ⟨?_, ?_⟩, fun hkind => ?_⟩
    · rintro ⟨c, hcut', -, hpath⟩
      have hsame := ((Text.fallsInto_iff (by simp)).mp hcut).symm.trans
        ((Text.fallsInto_iff (by simp)).mp hcut')
      obtain ⟨rfl, -⟩ := List.cons.inj hsame
      exact ⟨_, hpath⟩
    · rintro ⟨path, hpath⟩
      exact ⟨_, .intro hcut ((hdenotes _).mpr ⟨rfl, hkind⟩) hpath⟩
    · have herrs : Errs text clause _ :=
        .noLiteral hcut fun literal hliteral => hkind ((hdenotes literal).mp hliteral).2
      refine ⟨?_, fun hbefore =>
        (read_eq_error_iff hgroups).mpr ⟨before, clause, after, hsplit, hbefore, herrs⟩⟩
      cases hread : read text with
      | error e => exact ⟨e, rfl⟩
      | ok c =>
        have hall := (exists_read_iff hgroups).mp ⟨c, hread⟩
        exact absurd (hall clause (by simp [hsplit])) herrs.not_compares

/-- The text behind the digit is neither looked at nor dropped. -/
theorem literal_with_letters_behind_digit :
    read "@.a == 1abc" = .ok (.equals ⟨.current, [.property "a"]⟩ "1abc" "@.a == 1abc") ∧
      Text.FallsInto ['=', '='] "@.a == 1abc".toList ["@.a ".toList, " 1abc".toList] ∧
      ¬ IsQuoted (Text.trim " 1abc".toList) ∧
      ¬ (IsWord "1abc".toList ∨ IsNumber "1abc".toList) := by
  refine ⟨rfl, (Text.fallsInto_iff (by simp)).mpr rfl, ?_, ?_⟩
  · rintro (h | h)
    · exact absurd h (by decide)
    · exact absurd h (by decide)
  · rintro ((h | h) | ⟨-, h⟩)
    · exact absurd h (by decide)
    · exact absurd h (by decide)
    · exact absurd (h 'a' (by simp)) (by decide)

end Condition
end LintLocator
