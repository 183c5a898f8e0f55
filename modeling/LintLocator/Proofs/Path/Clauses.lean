import LintLocator.Proofs.Path.Conditions
import LintLocator.Proofs.Path.Grammar
import LintLocator.Proofs.Text.Decimal

/-!
# Which clause of a condition is at fault

A condition is cut into clauses before any of them is looked at, so the clauses are known from the
text alone (`Clauses`).  Each of them is either a comparison (`Compares`) or wrong in one of three
ways (`Errs`), whatever stands around it.  The reader works through groups inside of groups, but it
stops where the first clause in the text is wrong: what can go wrong in a group is what can go wrong
in its members, so for errors the groups do not count (`errorOf?_readWith`).

* `Denotes`, `literal?_eq_some_iff`: the right sides of comparisons and the texts they ask for;
* `compares_iff`, `errs_iff`: what is read from one clause;
* `Grouped`, `leaves`: how the comparisons stand in the condition;
* `Condition.read_eq_by_clauses`: which conditions are read, and the error of all others.
-/

namespace LintLocator
namespace Condition

/-! ## Clauses -/

/-- The groups of clauses in a condition: `||` divides groups and `&&` the clauses of a group. -/
def Clauses (condition : List Char) (groups : List (List (List Char))) : Prop :=
  ∃ alternatives, Text.FallsInto ['|', '|'] condition alternatives ∧
    List.Forall₂ (Text.FallsInto ['&', '&']) alternatives groups

/-- The right side of a comparison and the text that it asks for.  A quote goes, and at the end one
more of the same kind if it stands there.  Nothing else is taken off. -/
inductive Denotes : List Char → List Char → Prop where
  | closed {q : Char} (hq : q = '"' ∨ q = '\'') (text : List Char) :
      Denotes (q :: (text ++ [q])) text
  | unclosed {q : Char} (hq : q = '"' ∨ q = '\'') {text : List Char}
      (hlast : text.getLast? ≠ some q) : Denotes (q :: text) text
  | number {d : Char} (hd : '0' ≤ d ∧ d ≤ '9') (r : List Char) : Denotes (d :: r) (d :: r)
  | yes : Denotes ['t', 'r', 'u', 'e'] ['t', 'r', 'u', 'e']
  | no : Denotes ['f', 'a', 'l', 's', 'e'] ['f', 'a', 'l', 's', 'e']

/-- A clause that is a comparison.  It keeps its trimmed text. -/
inductive Compares (clause : List Char) : Condition → Prop where
  | intro {left right literal : List Char} {path : Path}
      (hcut : Text.FallsInto ['=', '='] clause [left, right])
      (hliteral : Denotes (Text.trim right) literal)
      (hpath : Path.read (String.ofList (Text.trim left)) = .ok path) :
      Compares clause
        (.equals path (String.ofList literal) (String.ofList (Text.trim clause)))

/-- What is wrong with a clause of the text `condition`.  Its right side is looked at only if it has
one `==`, and its left side only if the right side is a literal. -/
inductive Errs (condition : String) (clause : List Char) : SyntaxError → Prop where
  | noComparison {pieces : List (List Char)} (hcut : Text.FallsInto ['=', '='] clause pieces)
      (hlength : pieces.length ≠ 2) :
      Errs condition clause (.invalidClause (String.ofList (Text.trim clause)) condition)
  | noLiteral {left right : List Char} (hcut : Text.FallsInto ['=', '='] clause [left, right])
      (hliteral : ∀ literal, ¬ Denotes (Text.trim right) literal) :
      Errs condition clause (.invalidLiteral (String.ofList (Text.trim right))
        (String.ofList (Text.trim clause)) condition)
  | noPath {left right literal : List Char} {e : SyntaxError}
      (hcut : Text.FallsInto ['=', '='] clause [left, right])
      (hliteral : Denotes (Text.trim right) literal)
      (hpath : Path.read (String.ofList (Text.trim left)) = .error e) :
      Errs condition clause (.clausePath (String.ofList (Text.trim clause)) condition e)

/-- One condition stands for itself, several form a group. -/
inductive Grouped (group : List Condition → Condition) : List Condition → Condition → Prop where
  | one (c : Condition) : Grouped group [c] c
  | several {cs : List Condition} (h : 2 ≤ cs.length) : Grouped group cs (group cs)

mutual

/-- The comparisons in a condition with all they keep, from left to right. -/
def leaves : Condition → List Condition
  | .any members => leavesOf members
  | .all members => leavesOf members
  | .equals path literal source => [.equals path literal source]

/-- The comparisons in several conditions. -/
def leavesOf : List Condition → List Condition
  | [] => []
  | c :: cs => c.leaves ++ leavesOf cs

end

/-! ## One clause -/

section Clause

variable {clause right literal : List Char} {c : Condition} {e : SyntaxError}

/-- The text that is read from a right side is one that it asks for. -/
theorem denotes_of_literal? (h : literal? right = some literal) : Denotes right literal := by
  rcases right with _ | ⟨c, r⟩
  · cases h
  rw [literal?_cons] at h
  by_cases hquote : c = '"' ∨ c = '\''
  · rw [if_pos (by simpa using hquote), Option.some.injEq] at h
    split at h
    · rename_i hlast
      obtain ⟨text, rfl⟩ := List.getLast?_eq_some_iff.mp (by simpa using hlast)
      rw [List.dropLast_concat] at h
      exact h ▸ .closed hquote text
    · rename_i hlast
      exact h ▸ .unclosed hquote (by simpa using hlast)
  · rw [if_neg (by simpa using hquote)] at h
    split at h
    · rename_i hword
      obtain rfl := Option.some.inj h
      simp only [Bool.or_eq_true, beq_iff_eq] at hword
      rcases hword with (hd | hyes) | hno
      · exact .number (Decimal.isDigit_iff.mp hd) r
      · exact hyes ▸ .yes
      · exact hno ▸ .no
    · cases h

theorem literal?_of_denotes (h : Denotes right literal) : literal? right = some literal := by
  cases h with
  | closed hq =>
    rw [literal?_cons, if_pos (by simpa using hq)]
    simp
  | unclosed hq hlast =>
    rw [literal?_cons, if_pos (by simpa using hq), if_neg (by simpa using hlast)]
  | @number d hd r =>
    have hquote : ¬ (d == '"' || d == '\'') = true := by
      intro hquote
      rcases (Bool.or_eq_true _ _).mp hquote with hquote | hquote
      · exact absurd (eq_of_beq hquote ▸ hd) (by decide)
      · exact absurd (eq_of_beq hquote ▸ hd) (by decide)
    rw [literal?_cons, if_neg hquote, if_pos (by simp [Decimal.isDigit_iff.mpr hd])]
  | yes => rfl
  | no => rfl

/-- A right side is read as the text that it asks for. -/
theorem literal?_eq_some_iff : literal? right = some literal ↔ Denotes right literal :=
  ⟨denotes_of_literal?, literal?_of_denotes⟩

theorem literal?_eq_none_iff : literal? right = none ↔ ∀ literal, ¬ Denotes right literal := by
  simp only [← literal?_eq_some_iff, Option.eq_none_iff_forall_ne_some, ne_eq]

/-- How the left side of a comparison is read. -/
abbrev readInner (left : List Char) : Except SyntaxError Path := Path.read (String.ofList left)

/-- What is read from a clause is the comparison that it makes. -/
theorem compares_iff {condition : String} :
    readClause readInner condition clause = .ok c ↔ Compares clause c := by
  rw [readClause_eq_ok_iff]
  constructor
  · rintro ⟨left, right, literal, path, hcut, hliteral, hpath, rfl⟩
    exact .intro ((Text.fallsInto_iff (by simp)).mpr hcut) (denotes_of_literal? hliteral) hpath
  · rintro ⟨hcut, hliteral, hpath⟩
    exact ⟨_, _, _, _, (Text.fallsInto_iff (by simp)).mp hcut, literal?_of_denotes hliteral,
      hpath, rfl⟩

/-- A clause that is no comparison errs. -/
theorem errs_of_readClause {condition : String}
    (h : readClause readInner condition clause = .error e) : Errs condition clause e := by
  have hpieces : Text.FallsInto ['=', '='] clause (Text.splitOn ['=', '='] clause) :=
    (Text.fallsInto_iff (by simp)).mpr rfl
  unfold readClause at h
  dsimp only at h
  split at h
  · rename_i left right hcut
    rw [hcut] at hpieces
    split at h
    · rename_i hliteral
      cases h
      exact .noLiteral hpieces (literal?_eq_none_iff.mp hliteral)
    · rename_i literal hliteral
      split at h
      · rename_i d hpath
        cases h
        exact .noPath hpieces (denotes_of_literal? hliteral) hpath
      · cases h
  · rename_i hcut
    cases h
    refine .noComparison hpieces fun hlength => ?_
    obtain ⟨left, right, htwo⟩ := List.length_eq_two.mp hlength
    exact hcut left right htwo

theorem readClause_of_errs {condition : String} (h : Errs condition clause e) :
    readClause readInner condition clause = .error e := by
  obtain ⟨hcut, hlength⟩ | ⟨hcut, hliteral⟩ | ⟨hcut, hliteral, hpath⟩ := h
  · have hsplit := (Text.fallsInto_iff (by simp)).mp hcut
    unfold readClause
    dsimp only
    split
    · rename_i left right htwo
      rw [← hsplit, htwo] at hlength
      exact absurd rfl hlength
    · rfl
  · have hsplit := (Text.fallsInto_iff (by simp)).mp hcut
    simp only [readClause, hsplit, literal?_eq_none_iff.mpr hliteral]
  · have hsplit := (Text.fallsInto_iff (by simp)).mp hcut
    simp only [readClause, hsplit, literal?_of_denotes hliteral, readInner, hpath]

theorem errs_iff {condition : String} :
    readClause readInner condition clause = .error e ↔ Errs condition clause e :=
  ⟨errs_of_readClause, readClause_of_errs⟩

end Clause

/-! ## All clauses -/

section Reading

variable {condition : List Char} {groups : List (List (List Char))}

theorem clauses_iff : Clauses condition groups ↔
    (Text.splitOn ['|', '|'] condition).map (Text.splitOn ['&', '&']) = groups := by
  have hbars : ∀ alternatives, Text.FallsInto ['|', '|'] condition alternatives ↔
      Text.splitOn ['|', '|'] condition = alternatives := fun _ => Text.fallsInto_iff (by simp)
  have hamps : ∀ alternative clauses, Text.FallsInto ['&', '&'] alternative clauses ↔
      Text.splitOn ['&', '&'] alternative = clauses := fun _ _ => Text.fallsInto_iff (by simp)
  simp only [Clauses, hbars, exists_eq_left', List.forall₂_iff_get, hamps]
  rw [List.ext_get_iff]
  simp

theorem Clauses.map_splitOn (h : Clauses condition groups) :
    (Text.splitOn ['|', '|'] condition).map (Text.splitOn ['&', '&']) = groups :=
  clauses_iff.mp h

/-- Reading several parts fails with the error of the first part that has one. -/
theorem errorOf?_mapM {ε α β : Type} (f : α → Except ε β) (as : List α) :
    errorOf? (as.mapM f) = as.findSome? fun a => errorOf? (f a) := by
  induction as with
  | nil => rfl
  | cons a as ih =>
    rw [List.mapM_cons, List.findSome?_cons, ← ih]
    cases f a with
    | error e => rfl
    | ok b => cases as.mapM f <;> rfl

theorem errorOf?_bind_pure {ε α β : Type} (x : Except ε α) (g : α → β) :
    errorOf? (x >>= fun a => pure (g a)) = errorOf? x := by
  cases x <;> rfl

/-- A clause that errs is no comparison. -/
theorem Errs.not_compares {text : String} {clause : List Char} {e : SyntaxError}
    (h : Errs text clause e) : ¬ ∃ c, Compares clause c := by
  rintro ⟨c, hc⟩
  have hread := readClause_of_errs h
  rw [compares_iff.mpr hc] at hread
  cases hread

/-- **The first clause that is wrong gives the error**, whatever groups it stands in. -/
theorem errorOf?_readWith (readPath : List Char → Except SyntaxError Path)
    (condition : List Char) :
    errorOf? (readWith readPath condition) =
      ((Text.splitOn ['|', '|'] condition).flatMap (Text.splitOn ['&', '&'])).findSome?
        fun clause => errorOf? (readClause readPath (String.ofList condition) clause) := by
  unfold readWith
  rw [errorOf?_bind_pure, errorOf?_mapM]
  refine (findSome?_flatMap_of_forall fun alternative _ => ?_).symm
  rw [errorOf?_bind_pure, errorOf?_mapM]

end Reading

/-! ## The condition -/

section Shape

variable {cs ds : List Condition} {c : Condition} {groups : List (List (List Char))}
  {members : List (List Condition)}

/-- What has a member is grouped. -/
theorem grouped_collapse (group : List Condition → Condition) (hne : cs ≠ []) :
    Grouped group cs (collapse group cs) := by
  rcases cs with _ | ⟨c, _ | ⟨d, cs⟩⟩
  · exact absurd rfl hne
  · exact .one c
  · exact .several (by simp)

theorem Grouped.eq_collapse {group : List Condition → Condition} (h : Grouped group cs c) :
    c = collapse group cs := by
  cases h with
  | one => rfl
  | several hlength =>
    rcases cs with _ | ⟨c, _ | ⟨d, cs⟩⟩
    · exact absurd hlength (by simp)
    · exact absurd hlength (by simp)
    · rfl

/-- Conditions whose clauses are in groups, and what the groups come to. -/
theorem forall₂_grouped_iff (hne : ∀ group ∈ members, group ≠ []) :
    List.Forall₂ (Grouped .all) members ds ↔ ds = members.map (collapse .all) := by
  induction members generalizing ds with
  | nil => exact List.forall₂_nil_left_iff
  | cons group members ih =>
    obtain ⟨hgroup, hmembers⟩ := List.forall_mem_cons.mp hne
    rw [List.forall₂_cons_left_iff, List.map_cons]
    simp only [ih hmembers]
    constructor
    · rintro ⟨d, _, hd, rfl, rfl⟩
      rw [hd.eq_collapse]
    · rintro rfl
      exact ⟨_, _, grouped_collapse .all hgroup, rfl, rfl⟩

/-- The comparisons of a group are those of its members. -/
theorem leavesOf_eq_flatMap (cs : List Condition) : leavesOf cs = cs.flatMap leaves := by
  induction cs with
  | nil => rfl
  | cons c cs ih => rw [leavesOf, List.flatMap_cons, ih]

theorem leaves_collapse {group : List Condition → Condition}
    (hgroup : ∀ cs, (group cs).leaves = leavesOf cs) (cs : List Condition) :
    (collapse group cs).leaves = cs.flatMap leaves := by
  rw [← leavesOf_eq_flatMap]
  rcases cs with _ | ⟨c, _ | ⟨d, cs⟩⟩
  · exact hgroup []
  · rw [leavesOf, leavesOf, List.append_nil]
    rfl
  · exact hgroup (c :: d :: cs)

/-- A comparison is its own leaf. -/
theorem Compares.leaves_eq {clause : List Char} (h : Compares clause c) : c.leaves = [c] := by
  obtain ⟨-, -, -⟩ := h
  rfl

/-- The comparisons in a condition are its clauses, in the order of the text. -/
theorem leaves_of_compares (h : List.Forall₂ (List.Forall₂ Compares) groups members) :
    (collapse .any (members.map (collapse .all))).leaves = members.flatten := by
  have hown : ∀ group ∈ members, group.flatMap leaves = group := by
    intro group hgroup
    obtain ⟨clauses, -, hclauses⟩ := exists_mem_of_forall₂ h hgroup
    have hleaves : ∀ c ∈ group, c.leaves = [c] := by
      intro c hc
      obtain ⟨clause, -, hcompares⟩ := exists_mem_of_forall₂ hclauses hc
      exact hcompares.leaves_eq
    rw [List.flatMap_congr hleaves, List.flatMap_singleton']
  rw [@leaves_collapse .any fun _ => rfl, List.flatMap_map]
  simp only [@leaves_collapse .all fun _ => rfl]
  rw [List.flatMap_congr hown, List.flatMap_id']

end Shape

section Reading

variable {text : String} {groups : List (List (List Char))}

/-- There is always a clause in a group, and always a group. -/
theorem ne_nil_of_compares {members : List (List Condition)}
    (h : Clauses text.toList groups)
    (hmembers : List.Forall₂ (List.Forall₂ Compares) groups members) :
    members ≠ [] ∧ ∀ group ∈ members, group ≠ [] := by
  rw [← h.map_splitOn] at hmembers
  constructor
  · rintro rfl
    have hnil := List.forall₂_nil_right_iff.mp hmembers
    exact Text.splitOn_ne_nil _ _ (List.map_eq_nil_iff.mp hnil)
  · rintro group hgroup rfl
    obtain ⟨clauses, hclauses, hnil⟩ := exists_mem_of_forall₂ hmembers hgroup
    obtain ⟨alternative, -, rfl⟩ := List.mem_map.mp hclauses
    exact Text.splitOn_ne_nil _ _ (List.forall₂_nil_right_iff.mp hnil)

/-- A condition is made of what its clauses compare. -/
theorem read_eq_ok_iff_members {c : Condition} (h : Clauses text.toList groups) :
    read text = .ok c ↔ ∃ members, List.Forall₂ (List.Forall₂ Compares) groups members ∧
      c = collapse .any (members.map (collapse .all)) := by
  have hclause : ∀ clause d, ClauseSpells readInner clause d ↔ Compares clause d := fun clause d =>
    (@readClause_eq_ok_iff readInner text clause d).symm.trans compares_iff
  have hrel : ClauseSpells readInner = Compares :=
    funext₂ fun clause d => propext (hclause clause d)
  rw [read_eq, readWith_eq_ok_iff, Spells, ← h.map_splitOn]
  simp only [List.forall₂_map_left_iff]
  rw [← hrel]

/-- The error of a condition is the first error in its clauses. -/
theorem errorOf?_read (h : Clauses text.toList groups) :
    errorOf? (read text) =
      groups.flatten.findSome? fun clause => errorOf? (readClause readInner text clause) := by
  rw [read_eq, errorOf?_readWith, String.ofList_toList, ← h.map_splitOn, List.flatMap_def]

theorem exists_read_iff (h : Clauses text.toList groups) :
    (∃ c, read text = .ok c) ↔ ∀ clause ∈ groups.flatten, ∃ c, Compares clause c := by
  rw [← errorOf?_eq_none_iff, errorOf?_read h, List.findSome?_eq_none_iff]
  simp only [errorOf?_eq_none_iff, compares_iff]

theorem read_eq_error_iff {e : SyntaxError} (h : Clauses text.toList groups) :
    read text = .error e ↔ ∃ before clause after, groups.flatten = before ++ clause :: after ∧
      (∀ b ∈ before, ∃ c, Compares b c) ∧ Errs text clause e := by
  rw [← errorOf?_eq_some_iff, errorOf?_read h, List.findSome?_eq_some_iff]
  simp only [errorOf?_eq_some_iff, errorOf?_eq_none_iff, compares_iff, errs_iff]
  constructor
  · rintro ⟨before, clause, after, hsplit, herrs, hbefore⟩
    exact ⟨before, clause, after, hsplit, hbefore, herrs⟩
  · rintro ⟨before, clause, after, hsplit, hbefore, herrs⟩
    exact ⟨before, clause, after, hsplit, herrs, hbefore⟩

end Reading

/-- **A condition is read clause by clause.**  The text falls into clauses in one way.  It is a
condition just if all of them are comparisons; these then stand in it in the order of the text, in
groups of groups, where a group of one is no group.  Otherwise the first clause in the text that is
wrong gives the error, with its own text and that of the whole. -/
theorem read_eq_by_clauses (text : String) :
    (∃! groups, Clauses text.toList groups) ∧
      ∀ groups, Clauses text.toList groups →
        ((∃ c, read text = .ok c) ↔ ∀ clause ∈ groups.flatten, ∃ c, Compares clause c) ∧
        (∀ c, read text = .ok c ↔ ∃ members alternatives,
          List.Forall₂ (List.Forall₂ Compares) groups members ∧
          List.Forall₂ (Grouped .all) members alternatives ∧ Grouped .any alternatives c) ∧
        (∀ c, read text = .ok c → List.Forall₂ Compares groups.flatten c.leaves) ∧
        ∀ e, read text = .error e ↔ ∃ before clause after,
          groups.flatten = before ++ clause :: after ∧ (∀ b ∈ before, ∃ c, Compares b c) ∧
          Errs text clause e := by
  refine ⟨⟨_, clauses_iff.mpr rfl, fun groups h => (clauses_iff.mp h).symm⟩, fun groups h => ?_⟩
  refine ⟨exists_read_iff h, fun c => ?_, fun c hc => ?_, fun e => read_eq_error_iff h⟩
  · rw [read_eq_ok_iff_members h]
    constructor
    · rintro ⟨members, hmembers, rfl⟩
      exact ⟨members, _, hmembers,
        (forall₂_grouped_iff (ne_nil_of_compares h hmembers).2).mpr rfl,
        grouped_collapse .any (by simpa using (ne_nil_of_compares h hmembers).1)⟩
    · rintro ⟨members, alternatives, hmembers, halternatives, hc⟩
      obtain rfl := (forall₂_grouped_iff (ne_nil_of_compares h hmembers).2).mp halternatives
      exact ⟨members, hmembers, hc.eq_collapse⟩
  · obtain ⟨members, hmembers, rfl⟩ := (read_eq_ok_iff_members h).mp hc
    rw [leaves_of_compares hmembers]
    exact List.rel_flatten hmembers

/-- The second group is wrong in both of its clauses, and the first of them gives the error. -/
example : read "@.a=='b' || c == d && e" =
    .error (.invalidLiteral "d" "c == d" "@.a=='b' || c == d && e") := rfl

end Condition
end LintLocator
