import LintLocator.Proofs.Path.Grammar
import LintLocator.Proofs.Text.Decimal
import Mathlib.Algebra.Group.Nat.Even

/-!
# How an expression is put together

`Selector.Spells` says of one text which step it stands for.  Here the texts of the steps are made
data: a `Spelling` is a way to write one step, with the name, the digits or the condition that
stand in it, and a path is written as a root mark and a list of spellings.

Nothing protects one step from the next but what it may not hold, so it has to be shown that an
expression falls into steps in one way only.

* `exists_stands_of_spellsAll`: what spells several steps is the texts of spellings one by one.
* `eq_of_flatMap_text_eq`: a text is written by one list of spellings at most.
* `Path.read_eq_ok_iff_existsUnique`: what is read as a path is what is written as one, and whether
  a condition is written in brackets or behind a star makes no difference.
-/

namespace LintLocator

namespace Selector

/-- A way to write one step. -/
inductive Spelling where
  /-- `.NAME` -/
  | property (name : List Char)
  /-- `[DIGITS]` -/
  | index (digits : List Char)
  /-- `[?(CONDITION)]` -/
  | bracket (condition : List Char)
  /-- `[*]?(CONDITION)` -/
  | star (condition : List Char)
  deriving DecidableEq, Repr

namespace Spelling

/-- The text of a step. -/
def text : Spelling → List Char
  | .property name => '.' :: name
  | .index digits => '[' :: (digits ++ [']'])
  | .bracket condition => '[' :: '?' :: '(' :: (condition ++ [')', ']'])
  | .star condition => '[' :: '*' :: ']' :: '?' :: '(' :: (condition ++ [')'])

@[simp] theorem text_property (name : List Char) : (property name).text = '.' :: name := rfl

@[simp] theorem text_index (digits : List Char) :
    (index digits).text = '[' :: (digits ++ [']']) := rfl

@[simp] theorem text_bracket (condition : List Char) :
    (bracket condition).text = '[' :: '?' :: '(' :: (condition ++ [')', ']']) := rfl

@[simp] theorem text_star (condition : List Char) :
    (star condition).text = '[' :: '*' :: ']' :: '?' :: '(' :: (condition ++ [')']) := rfl

/-- What a spelling stands for, and what may stand in it.  A name is not empty, it holds neither of
the characters that start the next step, and it begins with no sign.  Digits are ASCII digits whose
value fits a word.  A condition can be read and does not hold the text that ends it. -/
def Stands : Spelling → Selector → Prop
  | .property name, s =>
    name ≠ [] ∧ '.' ∉ name ∧ '[' ∉ name ∧ name.head? ≠ some '-' ∧ name.head? ≠ some '+' ∧
      s = .property (String.ofList name)
  | .index digits, s =>
    digits ≠ [] ∧ (∀ d ∈ digits, '0' ≤ d ∧ d ≤ '9') ∧ Decimal.value digits ≤ 2 ^ 64 - 1 ∧
      s = .index (Decimal.value digits)
  | .bracket condition, s =>
    ¬ [')', ']'] <:+: condition ∧
      ∃ c, Condition.read (String.ofList condition) = .ok c ∧ s = .predicate c
  | .star condition, s =>
    ')' ∉ condition ∧ ∃ c, Condition.read (String.ofList condition) = .ok c ∧ s = .predicate c

/-- Two spellings are the same, or they are the two spellings of one condition. -/
inductive Alike : Spelling → Spelling → Prop where
  | same (s : Spelling) : Alike s s
  | toBracket (condition : List Char) : Alike (.star condition) (.bracket condition)
  | toStar (condition : List Char) (h : ')' ∉ condition) :
      Alike (.bracket condition) (.star condition)

/-! ## Spellings and the grammar -/

theorem index?_eq_some_iff {digits : List Char} {place : Nat} :
    Decimal.index? digits = some place ↔
      digits ≠ [] ∧ (∀ d ∈ digits, '0' ≤ d ∧ d ≤ '9') ∧ Decimal.value digits ≤ 2 ^ 64 - 1 ∧
        place = Decimal.value digits := by
  rw [← Decimal.lt_indexBound_iff]
  constructor
  · exact Decimal.digits_of_index?
  · rintro ⟨hne, hdigits, hvalue, rfl⟩
    exact Decimal.index?_of_digits hne hdigits hvalue

/-- How conditions inside of a path are read. -/
abbrev readInner (condition : List Char) : Except SyntaxError Condition :=
  Condition.read (String.ofList condition)

variable {σ τ : Spelling} {s t : Selector} {rest : List Char}

/-- A spelling that stands for a step spells it. -/
theorem Stands.spells (h : σ.Stands s) : Spells readInner σ.text s := by
  cases σ with
  | property name =>
    obtain ⟨hne, hdot, hbracket, hminus, hplus, rfl⟩ := h
    refine .property hne (fun c hc => ?_) (fun c hc => ⟨?_, ?_⟩)
    · have hdot : c ≠ '.' := fun h => hdot (h ▸ hc)
      have hbracket : c ≠ '[' := fun h => hbracket (h ▸ hc)
      simp [endsName, hdot, hbracket]
    · rintro rfl
      exact hminus hc
    · rintro rfl
      exact hplus hc
  | index digits =>
    obtain ⟨hne, hdigits, hvalue, rfl⟩ := h
    exact .index (Decimal.index?_of_digits hne hdigits (Decimal.lt_indexBound_iff.mpr hvalue))
  | bracket condition =>
    obtain ⟨hclosing, c, hc, rfl⟩ := h
    exact .predicate hclosing hc
  | star condition =>
    obtain ⟨hclosing, c, hc, rfl⟩ := h
    exact .filter hclosing hc

/-- What spells a step is the text of a spelling that stands for it. -/
theorem exists_stands_of_spells {u : List Char} (h : Spells readInner u s) :
    ∃ σ : Spelling, σ.text = u ∧ σ.Stands s := by
  cases h with
  | @property name hne hends hsign =>
    refine ⟨.property name, rfl, hne, fun hmem => ?_, fun hmem => ?_, fun h => ?_, fun h => ?_, rfl⟩
    · exact absurd (hends _ hmem) (by decide)
    · exact absurd (hends _ hmem) (by decide)
    · exact (hsign _ h).1 rfl
    · exact (hsign _ h).2 rfl
  | @index digits place h =>
    obtain ⟨hne, hdigits, hvalue, rfl⟩ := Decimal.digits_of_index? h
    exact ⟨.index digits, rfl, hne, hdigits, Decimal.lt_indexBound_iff.mp hvalue, rfl⟩
  | @predicate condition c hclosing h => exact ⟨.bracket condition, rfl, hclosing, c, h, rfl⟩
  | @filter condition c hclosing h => exact ⟨.star condition, rfl, hclosing, c, h, rfl⟩

/-- Spellings that stand for several steps spell them one by one. -/
theorem Stands.spells_all {σs : List Spelling} {steps : List Selector}
    (h : List.Forall₂ Stands σs steps) : SpellsAll readInner (σs.flatMap text) steps := by
  induction h with
  | nil => exact .nil
  | cons hσ _ ih => exact .cons hσ.spells ih

/-- What spells several steps is the texts of spellings one by one. -/
theorem exists_stands_of_spellsAll {u : List Char} {steps : List Selector}
    (h : SpellsAll readInner u steps) :
    ∃ σs : List Spelling, σs.flatMap text = u ∧ List.Forall₂ Stands σs steps := by
  induction h with
  | nil => exact ⟨[], rfl, .nil⟩
  | cons hstep _ ih =>
    obtain ⟨σ, rfl, hσ⟩ := exists_stands_of_spells hstep
    obtain ⟨σs, rfl, hσs⟩ := ih
    exact ⟨σ :: σs, rfl, .cons hσ hσs⟩

/-- What follows a step begins with a character that ends a name. -/
theorem endsName_of_mem_head? {σs : List Spelling} {steps : List Selector}
    (h : List.Forall₂ Stands σs steps) : ∀ c ∈ (σs.flatMap text).head?, endsName c = true :=
  (Stands.spells_all h).endsName_of_mem_head?

/-! ## One way only -/

/-- The text of a step determines its spelling. -/
theorem eq_of_text_eq (hσ : σ.Stands s) (hτ : τ.Stands t) (h : σ.text = τ.text) : σ = τ := by
  have hdigits : ∀ {digits u : List Char} {c : Char} {s : Selector},
      (Spelling.index digits).Stands s → c = '?' ∨ c = '*' → digits ++ [']'] ≠ c :: u := by
    intro digits u c s hs hc hcons
    obtain ⟨hne, hdigits, -⟩ := hs
    obtain ⟨d, digits, rfl⟩ := List.exists_cons_of_ne_nil hne
    obtain ⟨rfl, -⟩ := List.cons.inj hcons
    have hd := hdigits d List.mem_cons_self
    rcases hc with rfl | rfl <;> exact absurd hd (by decide)
  cases σ <;> cases τ <;>
    simp only [text_property, text_index, text_bracket, text_star, List.cons.injEq, true_and,
      false_and, and_false, Char.reduceEq] at h
  case property.property => rw [h]
  case index.index => rw [List.append_cancel_right h]
  case index.bracket => exact absurd h (hdigits hσ (Or.inl rfl))
  case index.star => exact absurd h (hdigits hσ (Or.inr rfl))
  case bracket.index => exact absurd h.symm (hdigits hτ (Or.inl rfl))
  case bracket.bracket => rw [List.append_cancel_right h]
  case star.index => exact absurd h.symm (hdigits hτ (Or.inr rfl))
  case star.star => rw [List.append_cancel_right h]

/-- **A text falls into steps in one way only.** -/
theorem eq_of_flatMap_text_eq {σs τs : List Spelling} {steps steps' : List Selector}
    (hσs : List.Forall₂ Stands σs steps) (hτs : List.Forall₂ Stands τs steps')
    (h : σs.flatMap text = τs.flatMap text) : σs = τs := by
  have hne : ∀ (σ : Spelling) (r : List Char), σ.text ++ r ≠ [] := by
    intro σ r
    cases σ <;> simp
  induction hσs generalizing τs steps' with
  | nil =>
    cases hτs with
    | nil => rfl
    | cons _ _ => exact absurd h.symm (hne _ _)
  | @cons σ s σs steps hσ hσs ih =>
    cases hτs with
    | nil => exact absurd h (hne _ _)
    | @cons τ t τs steps' hτ hτs =>
      -- the reader takes one step off the front, whichever list the text was written from
      have hread := readStep_of_spells hσ.spells (endsName_of_mem_head? hσs) 0
      have hread' := readStep_of_spells hτ.spells (endsName_of_mem_head? hτs) 0
      rw [List.flatMap_cons, List.flatMap_cons] at h
      rw [h, hread'] at hread
      obtain ⟨-, hrest⟩ := Prod.mk.inj (Except.ok.inj hread)
      have htext : σ.text = τ.text := by
        rw [hrest] at h
        exact List.append_cancel_right h
      rw [eq_of_text_eq hσ hτ htext, ih hτs hrest.symm]

/-! ## The two spellings of a condition -/

/-- Another spelling of the same condition stands for the same step. -/
theorem Alike.stands (h : Alike σ τ) (hσ : σ.Stands s) : τ.Stands s := by
  cases h with
  | same => exact hσ
  | toBracket condition =>
    obtain ⟨hclosing, hcondition⟩ := hσ
    exact ⟨fun hocc => hclosing (hocc.mem List.mem_cons_self), hcondition⟩
  | toStar condition h => exact ⟨h, hσ.2⟩

theorem Alike.stands_all {σs τs : List Spelling} {steps : List Selector}
    (h : List.Forall₂ Alike σs τs) (hσs : List.Forall₂ Stands σs steps) :
    List.Forall₂ Stands τs steps := by
  induction h generalizing steps with
  | nil => exact hσs
  | cons halike _ ih =>
    cases hσs with
    | cons hσ hσs => exact .cons (halike.stands hσ) (ih hσs)

end Spelling
end Selector

namespace Path

open Selector (Spelling)

/-- An expression is a root mark and the texts of steps, of which there is at least one and the
first is a property. -/
structure WrittenAs (e : String) (p : Path) (σs : List Spelling) : Prop where
  text : e.toList = p.root.mark :: σs.flatMap Spelling.text
  steps : List.Forall₂ Spelling.Stands σs p.selectors
  first : ∃ name τs, σs = .property name :: τs

/-- Steps begin with a dot exactly when the first of them is a property. -/
theorem head?_flatMap_text {σs : List Spelling} :
    (σs.flatMap Spelling.text).head? = some '.' ↔ ∃ name τs, σs = .property name :: τs := by
  constructor
  · intro h
    rcases σs with _ | ⟨σ, τs⟩
    · exact absurd h (by simp)
    · cases σ with
      | property name => exact ⟨name, τs, rfl⟩
      | index => exact absurd h (by simp)
      | bracket => exact absurd h (by simp)
      | star => exact absurd h (by simp)
  · rintro ⟨name, τs, rfl⟩
    rfl

/-- What is read is what is written. -/
theorem read_eq_ok_iff_exists {e : String} {p : Path} :
    read e = .ok p ↔ ∃ σs, WrittenAs e p σs := by
  rw [read_eq, readWith_eq_ok_iff]
  constructor
  · rintro ⟨text, htext, hdot, hsteps⟩
    obtain ⟨σs, rfl, hσs⟩ := Spelling.exists_stands_of_spellsAll hsteps
    exact ⟨σs, htext, hσs, head?_flatMap_text.mp hdot⟩
  · rintro ⟨σs, htext, hσs, hfirst⟩
    exact ⟨_, htext, head?_flatMap_text.mpr hfirst, Spelling.Stands.spells_all hσs⟩

/-- **The grammar of paths.**  An expression is read as a path exactly when it is written as that
path, and then it is written so in one way only.  Where conditions are written in their other
spelling, the same path is read. -/
theorem read_eq_ok_iff_existsUnique (e : String) (p : Path) :
    (read e = .ok p ↔ ∃! σs, WrittenAs e p σs) ∧
      ∀ (f : String) (σs τs : List Spelling), WrittenAs e p σs →
        List.Forall₂ Spelling.Alike σs τs → f.toList = p.root.mark :: τs.flatMap Spelling.text →
        read f = .ok p := by
  refine ⟨?_, fun f σs τs hσs halike hf => ?_⟩
  · rw [read_eq_ok_iff_exists]
    refine ⟨fun ⟨σs, hσs⟩ => ⟨σs, hσs, fun τs hτs => ?_⟩, fun ⟨σs, hσs, _⟩ => ⟨σs, hσs⟩⟩
    have htext := hτs.text.symm.trans hσs.text
    exact Spelling.eq_of_flatMap_text_eq hτs.steps hσs.steps (List.cons.inj htext).2
  · obtain ⟨-, hsteps, name, σs, rfl⟩ := hσs
    refine read_eq_ok_iff_exists.mpr ⟨τs, hf, Spelling.Alike.stands_all halike hsteps, ?_⟩
    -- a property has no other spelling
    obtain ⟨_, τs, hproperty, -, rfl⟩ := List.forall₂_cons_left_iff.mp halike
    cases hproperty
    exact ⟨name, τs, rfl⟩

/-- A `)` ends a condition behind a star but not one in brackets. -/
example : (read "$.a[?(@.b == '(x)')]").toOption.isSome = true ∧
    (read "$.a[*]?(@.b == '(x)')").toOption.isSome = false := by decide +kernel

end Path
end LintLocator
