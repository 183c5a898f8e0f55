import LintLocator.Proofs.Path.Grammar
import LintLocator.Proofs.Text.Decimal

/-!
# The written form of a path

A path that has been read is written by `Path.render`, and not always as it was: predicates have two
spellings and indexes may have leading zeros, and what stands around a clause is lost.  Nothing in
the language protects an operator, so it is not obvious that the written form says the same.

It does, because of what is kept.  A clause is written as its trimmed text, which holds no `||`, no
`&&`, one `==` and no `)]`; the operators are written *with spaces around them*, and a space is part
of none of the four.  So a join makes no new occurrence (`Text.not_infix_spaced`), and cutting the
written form gives the clauses back with blanks around them (`Text.splitOn_spaced`), which do not
count (`Condition.clauseSpells_congr`).

* `Condition.Spells.render`: what is written for a condition spells the condition.
* `Selector.Spells.render`, `Selector.SpellsAll.render`: the same for steps.
* `Path.read_render`: reading what is written gives the path back, so different paths are written
  differently.
-/

namespace LintLocator

theorem Text.toList_joinWith (sep : String) (xs : List String) :
    (Text.joinWith sep xs).toList = List.intercalate sep.toList (xs.map String.toList) := by
  induction xs with
  | nil => rfl
  | cons x xs ih =>
    rcases xs with _ | ⟨y, ys⟩
    · rw [Text.joinWith_singleton, List.map_singleton, List.intercalate_singleton]
    · rw [Text.joinWith_cons_cons, String.toList_append, String.toList_append, ih]
      simp only [List.map_cons, List.intercalate_cons_cons]

/-- Where every member of the second list says more, a pairing says more. -/
theorem forall₂_imp_of_mem {α β : Type} {R S : α → β → Prop} {as : List α} {bs : List β}
    (h : List.Forall₂ R as bs) (himp : ∀ a, ∀ b ∈ bs, R a b → S a b) : List.Forall₂ S as bs := by
  induction h with
  | nil => exact List.Forall₂.nil
  | cons hd _ ih =>
    exact List.Forall₂.cons (himp _ _ List.mem_cons_self hd)
      (ih fun a b hb => himp a b (List.mem_cons_of_mem _ hb))

/-! ## Conditions -/

namespace Condition

variable {readPath : List Char → Except SyntaxError Path} {s t condition : List Char}
  {c : Condition}

/-- A clause is written as its trimmed text. -/
theorem ClauseSpells.toList_render (h : ClauseSpells readPath s c) :
    c.render.toList = Text.trim s := by
  obtain ⟨left, right, literal, path, -, -, -, rfl⟩ := h
  rw [render_equals, String.toList_ofList]

/-- **Blanks around a clause do not count.** -/
theorem clauseSpells_congr (hst : Text.trim s = Text.trim t) (h : ClauseSpells readPath s c) :
    ClauseSpells readPath t c := by
  obtain ⟨left, right, literal, path, hsplit, hliteral, hpath, rfl⟩ := h
  have hpieces := Text.splitOn_trim_congr (List.cons_ne_nil '=' ['='])
    (Text.notBlank_pair rfl) hst
  rw [hsplit] at hpieces
  obtain ⟨left', rest, hsplit', hleft, hrest⟩ := List.map_eq_cons_iff.mp hpieces.symm
  obtain ⟨right', rest, rfl, hright, hnil⟩ := List.map_eq_cons_iff.mp hrest
  rw [List.map_eq_nil_iff.mp hnil] at hsplit'
  refine ⟨left', right', literal, path, hsplit', ?_, ?_, by rw [hst]⟩
  · rw [hright, hliteral]
  · rw [hleft, hpath]

/-- The texts of a group of clauses, joined as they are written. -/
def groupText (group : List Condition) : List Char :=
  List.intercalate (' ' :: ['&', '&'] ++ [' ']) (group.map fun c => c.render.toList)

theorem toList_render_all (group : List Condition) :
    (collapse .all group).render.toList = groupText group := by
  have hgroup : (Condition.all group).render.toList = groupText group := by
    rw [render_all, Text.toList_joinWith, List.map_map]
    rfl
  rcases group with _ | ⟨c, _ | ⟨d, group⟩⟩
  · exact hgroup
  · rw [groupText, List.map_singleton, List.intercalate_singleton]
    rfl
  · exact hgroup

/-- A condition is written as its groups, joined by the operator between alternatives. -/
theorem toList_render_any (groups : List (List Condition)) :
    (collapse .any (groups.map (collapse .all))).render.toList =
      List.intercalate (' ' :: ['|', '|'] ++ [' ']) (groups.map groupText) := by
  have hgroups : (Condition.any (groups.map (collapse .all))).render.toList =
      List.intercalate (' ' :: ['|', '|'] ++ [' ']) (groups.map groupText) := by
    rw [render_any, Text.toList_joinWith, List.map_map, List.map_map]
    simp only [Function.comp_def, toList_render_all]
    rfl
  rcases groups with _ | ⟨group, _ | ⟨group', groups⟩⟩
  · exact hgroups
  · rw [List.map_singleton, List.map_singleton, List.intercalate_singleton]
    exact toList_render_all group
  · exact hgroups

/-- The clauses of a condition, in the groups into which the operators divide them. -/
def GroupsSpell (readPath : List Char → Except SyntaxError Path) (condition : List Char)
    (groups : List (List Condition)) : Prop :=
  List.Forall₂ (fun alternative group =>
      List.Forall₂ (ClauseSpells readPath) (Text.splitOn ['&', '&'] alternative) group)
    (Text.splitOn ['|', '|'] condition) groups

section Groups

variable {groups : List (List Condition)} {group : List Condition}

/-- Every clause is written as a trimmed part of the condition, in which there is no operator. -/
theorem GroupsSpell.exists_clause (h : GroupsSpell readPath condition groups)
    (hgroup : group ∈ groups) (hc : c ∈ group) :
    ∃ clause, ClauseSpells readPath clause c ∧ c.render.toList = Text.trim clause ∧
      c.render.toList <:+: condition ∧ ¬ ['|', '|'] <:+: c.render.toList ∧
      ¬ ['&', '&'] <:+: c.render.toList := by
  obtain ⟨alternative, halternative, hclauses⟩ := exists_mem_of_forall₂ h hgroup
  obtain ⟨clause, hmem, hspells⟩ := exists_mem_of_forall₂ hclauses hc
  have hrender := hspells.toList_render
  have hclause : c.render.toList <:+: clause := hrender ▸ Text.trim_infix clause
  have hpart : c.render.toList <:+: alternative :=
    hclause.trans (Text.infix_of_mem_splitOn (by simp) _ _ hmem)
  refine ⟨clause, hspells, hrender, ?_, fun hbar => ?_, fun hamp => ?_⟩
  · exact hpart.trans (Text.infix_of_mem_splitOn (by simp) _ _ halternative)
  · exact Text.not_infix_of_mem_splitOn (by simp) _ _ halternative (hbar.trans hpart)
  · exact Text.not_infix_of_mem_splitOn (by simp) _ _ hmem (hamp.trans hclause)

/-- Joining clauses makes no new occurrence of a text without spaces. -/
theorem not_infix_groupText (ht : t ≠ []) (hspace : ' ' ∉ t) (hand : ¬ t <:+: ['&', '&'])
    (hno : ∀ c ∈ group, ¬ t <:+: c.render.toList) : ¬ t <:+: groupText group := by
  refine Text.not_infix_spaced ht hspace hand fun x hx => ?_
  obtain ⟨c, hc, rfl⟩ := List.mem_map.mp hx
  exact hno c hc

/-- What is written for a group spells its clauses, also with blanks around it. -/
theorem GroupsSpell.render_group (h : GroupsSpell readPath condition groups)
    (hgroup : group ∈ groups) {a b : List Char} (ha : Text.AllBlank a) (hb : Text.AllBlank b) :
    List.Forall₂ (ClauseSpells readPath) (Text.splitOn ['&', '&'] (a ++ groupText group ++ b))
      group := by
  have hne : group.map (fun c => c.render.toList) ≠ [] := by
    obtain ⟨_, _, hclauses⟩ := exists_mem_of_forall₂ h hgroup
    rintro hnil
    rw [List.map_eq_nil_iff.mp hnil] at hclauses
    exact Text.splitOn_ne_nil _ _ (List.forall₂_nil_right_iff.mp hclauses)
  have hamps : ∀ x ∈ group.map (fun c => c.render.toList), ¬ ['&', '&'] <:+: x := by
    intro x hx
    obtain ⟨c, hc, rfl⟩ := List.mem_map.mp hx
    obtain ⟨_, _, _, _, _, hamp⟩ := h.exists_clause hgroup hc
    exact hamp
  have hclauses := Text.splitOn_spaced (List.cons_ne_nil '&' ['&']) (Text.notBlank_pair rfl) hb
    hne hamps ha
  rw [List.forall₂_map_right_iff] at hclauses
  refine forall₂_imp_of_mem hclauses fun text c hc hpadded => ?_
  obtain ⟨clause, hspells, hrender, -⟩ := h.exists_clause hgroup hc
  refine clauseSpells_congr ?_ hspells
  rw [Text.trim_eq_of_padded hpadded, hrender, Text.trim_trim]

/-- What is written for all groups spells them. -/
theorem GroupsSpell.render (h : GroupsSpell readPath condition groups) :
    GroupsSpell readPath
      (List.intercalate (' ' :: ['|', '|'] ++ [' ']) (groups.map groupText)) groups := by
  have hne : groups.map groupText ≠ [] := by
    rintro hnil
    rw [List.map_eq_nil_iff.mp hnil] at h
    exact Text.splitOn_ne_nil _ _ (List.forall₂_nil_right_iff.mp h)
  have hbars : ∀ x ∈ groups.map groupText, ¬ ['|', '|'] <:+: x := by
    intro x hx
    obtain ⟨group, hgroup, rfl⟩ := List.mem_map.mp hx
    refine not_infix_groupText (by simp) (by decide) (by decide) fun c hc => ?_
    obtain ⟨_, _, _, _, hbar, _⟩ := h.exists_clause hgroup hc
    exact hbar
  have halternatives := Text.splitOn_spaced (a := []) (b := []) (List.cons_ne_nil '|' ['|'])
    (Text.notBlank_pair rfl) Text.allBlank_nil hne hbars Text.allBlank_nil
  rw [List.nil_append, List.append_nil, List.forall₂_map_right_iff] at halternatives
  refine forall₂_imp_of_mem halternatives fun alternative group hgroup hpadded => ?_
  obtain ⟨a, b, ha, hb, rfl⟩ := hpadded
  exact h.render_group hgroup ha hb

/-- The end of a predicate is written only if it was in the condition. -/
theorem GroupsSpell.not_infix_render (h : GroupsSpell readPath condition groups)
    (hclosing : ¬ [')', ']'] <:+: condition) :
    ¬ [')', ']'] <:+: List.intercalate (' ' :: ['|', '|'] ++ [' ']) (groups.map groupText) := by
  refine Text.not_infix_spaced (by simp) (by decide) (by decide) fun x hx => ?_
  obtain ⟨group, hgroup, rfl⟩ := List.mem_map.mp hx
  refine not_infix_groupText (by simp) (by decide) (by decide) fun c hc hocc => ?_
  obtain ⟨_, _, _, hpart, _⟩ := h.exists_clause hgroup hc
  exact hclosing (hocc.trans hpart)

end Groups

/-- **What is written for a condition spells it**, and it holds the end of a predicate only if the
condition did. -/
theorem Spells.render (h : Spells readPath condition c) :
    Spells readPath c.render.toList c ∧
      (¬ [')', ']'] <:+: condition → ¬ [')', ']'] <:+: c.render.toList) := by
  obtain ⟨groups, hgroups, rfl⟩ := h
  have hspell : GroupsSpell readPath condition groups := hgroups
  rw [toList_render_any]
  exact ⟨⟨groups, hspell.render, rfl⟩, hspell.not_infix_render⟩

end Condition

/-! ## Steps -/

namespace Selector

variable {readPath : List Char → Except SyntaxError Path} {t : List Char}

/-- A predicate is always written in the first of its spellings. -/
theorem toList_render_predicate (c : Condition) :
    (Selector.predicate c).render.toList =
      '[' :: '?' :: '(' :: (c.render.toList ++ [')', ']']) := by
  simp [render_predicate]

/-- What is written for a step spells the step. -/
theorem Spells.render {step : Selector} (h : Spells (Condition.readWith readPath) t step) :
    Spells (Condition.readWith readPath) step.render.toList step := by
  cases h with
  | @property name hne hends hsign =>
    have htext : (Selector.property (String.ofList name)).render.toList = '.' :: name := by
      simp [render_property]
    rw [htext]
    exact Spells.property hne hends hsign
  | @index digits place h =>
    have htext : (Selector.index place).render.toList =
        '[' :: ((toString place).toList ++ [']']) := by
      simp [render_index]
    rw [htext]
    exact Spells.index (Decimal.index?_toString (Decimal.lt_indexBound_of_index? h))
  | @predicate condition c hclosing h =>
    obtain ⟨hspells, hkeeps⟩ := (Condition.readWith_eq_ok_iff.mp h).render
    rw [toList_render_predicate]
    exact Spells.predicate (hkeeps hclosing) (Condition.readWith_eq_ok_iff.mpr hspells)
  | @filter condition c hclosing h =>
    obtain ⟨hspells, hkeeps⟩ := (Condition.readWith_eq_ok_iff.mp h).render
    rw [toList_render_predicate]
    -- without a parenthesis there is no end of a predicate of the other spelling either
    have hbracket : ¬ [')', ']'] <:+: condition := fun hocc =>
      hclosing (hocc.mem List.mem_cons_self)
    exact Spells.predicate (hkeeps hbracket) (Condition.readWith_eq_ok_iff.mpr hspells)

/-- What is written for steps spells the steps. -/
theorem SpellsAll.render {steps : List Selector}
    (h : SpellsAll (Condition.readWith readPath) t steps) :
    SpellsAll (Condition.readWith readPath) (steps.flatMap fun step => step.render.toList)
      steps := by
  induction h with
  | nil => exact SpellsAll.nil
  | cons hstep _ ih => exact SpellsAll.cons hstep.render ih

/-- Steps that begin with a dot are written with a dot. -/
theorem SpellsAll.head?_render {steps : List Selector}
    (h : SpellsAll (Condition.readWith readPath) t steps) (hdot : t.head? = some '.') :
    (steps.flatMap fun step => step.render.toList).head? = some '.' := by
  cases h with
  | nil => exact absurd hdot (by simp)
  | cons hstep _ =>
    cases hstep with
    | property => simp [render_property]
    | index => exact absurd hdot (by simp)
    | predicate => exact absurd hdot (by simp)
    | filter => exact absurd hdot (by simp)

end Selector

/-! ## Paths -/

namespace Path

theorem toList_render (p : Path) :
    p.render.toList = p.root.mark :: p.selectors.flatMap fun step => step.render.toList := by
  rw [render, String.toList_append, Char.toString_eq_singleton, String.toList_singleton,
    String.toList_join, List.flatMap_map]
  rfl

/-- **A path is read from what is written for it.**  So two paths that have been read are written
differently, unless they are the same. -/
theorem read_render {e : String} {p : Path} (h : read e = .ok p) :
    read p.render = .ok p ∧
      ∀ (f : String) (q : Path), read f = .ok q → q ≠ p → q.render ≠ p.render := by
  have hread : ∀ {e : String} {p : Path}, read e = .ok p → read p.render = .ok p := by
    intro e p h
    rw [read_eq] at h ⊢
    simp only [Condition.read_eq, String.toList_ofList] at h ⊢
    obtain ⟨text, -, hdot, hsteps⟩ := readWith_eq_ok_iff.mp h
    exact readWith_eq_ok_iff.mpr
      ⟨_, toList_render p, hsteps.head?_render hdot, hsteps.render⟩
  refine ⟨hread h, fun f q hq hne hrender => hne ?_⟩
  have hq' := hread hq
  rw [hrender, hread h] at hq'
  exact (Except.ok.inj hq').symm

/-- Both spellings of a predicate, a leading zero, and operators and brackets in literals. -/
theorem read_render_of_mixed_spellings :
    ∃ p q,
      read "$.a[007][*]?(  @.b=='x]|y'||$.c.0==1&&@.d == \"&\" )[?( @.n == ')x]')].e" = .ok p ∧
      read "$.a[7]" = .ok q ∧ q ≠ p ∧ read p.render = .ok p ∧ q.render ≠ p.render := by
  have hp : read "$.a[007][*]?(  @.b=='x]|y'||$.c.0==1&&@.d == \"&\" )[?( @.n == ')x]')].e" =
      .ok ⟨.absolute, [
        .property "a", .index 7,
        .predicate (.any [
          .equals ⟨.current, [.property "b"]⟩ "x]|y" "@.b=='x]|y'",
          .all [
            .equals ⟨.absolute, [.property "c", .property "0"]⟩ "1" "$.c.0==1",
            .equals ⟨.current, [.property "d"]⟩ "&" "@.d == \"&\""]]),
        .predicate (.equals ⟨.current, [.property "n"]⟩ ")x]" "@.n == ')x]'"),
        .property "e"]⟩ := rfl
  have hq : read "$.a[7]" = .ok ⟨.absolute, [.property "a", .index 7]⟩ := rfl
  refine ⟨_, _, hp, hq, ?hne, (read_render hp).1, (read_render hp).2 _ _ hq ?hne⟩
  intro h
  exact absurd (congrArg (fun p : Path => p.selectors.length) h) (by decide)

end Path
end LintLocator
