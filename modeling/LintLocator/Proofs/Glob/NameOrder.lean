import LintLocator.Proofs.Glob.Names
import Mathlib.Data.List.Forall2

/-!
# The order of names

Names are compared part by part.  They are read off rows of steps, of which the idle ones are not
always seen; so two things have to be known of two rows of steps before their names can be compared.
If one row is ahead of the other in the first step that differs, and the steps there are names, its
name comes first.  And if the idle steps of both rows stand at the same places, the rows are told apart
by their names.

* `Glob.pathParts_nameOf_lt`: what is ahead comes first;
* `Glob.eq_of_nameOf_eq`: names tell rows of the same form apart.
-/

namespace LintLocator
namespace Glob

open FileTree (pathParts IsName)

variable {xs ys : List String}

/-! ## Rows of steps that are ahead -/

theorem isIdle_of_isName {s : String} (h : IsName s) : isIdle s = false := by
  simp [isIdle, h.ne_empty, h.ne_dot]

/-- A row of steps comes before another: where they part, both go to names, or one of them ends. -/
inductive Ahead : List String → List String → Prop where
  | further {b : String} {ys : List String} (hb : IsName b) : Ahead [] (b :: ys)
  | name {a b : String} {xs ys : List String} (ha : IsName a) (hb : IsName b) (hlt : a < b) :
      Ahead (a :: xs) (b :: ys)
  | same {s : String} {xs ys : List String} (h : Ahead xs ys) : Ahead (s :: xs) (s :: ys)

theorem Ahead.filter_ne_empty (h : Ahead xs ys) :
    Ahead (xs.filter (· ≠ "")) (ys.filter (· ≠ "")) := by
  induction h with
  | further hb => simpa [hb.ne_empty] using Ahead.further hb
  | name ha hb hlt => simpa [ha.ne_empty, hb.ne_empty] using Ahead.name ha hb hlt
  | @same s xs ys _ ih =>
    by_cases hs : s = ""
    · simpa [hs] using ih
    · simpa [hs] using ih.same

theorem Ahead.dropWhile_isIdle (h : Ahead xs ys) :
    Ahead (xs.dropWhile isIdle) (ys.dropWhile isIdle) := by
  induction h with
  | further hb => simpa [isIdle_of_isName hb] using Ahead.further hb
  | name ha hb hlt => simpa [isIdle_of_isName ha, isIdle_of_isName hb] using Ahead.name ha hb hlt
  | @same s xs ys h ih =>
    cases hs : isIdle s with
    | true => simpa [hs] using ih
    | false => simpa [hs] using h.same

theorem rdropWhile_cons (s : String) (xs : List String) :
    (s :: xs).rdropWhile isIdle =
      if xs.rdropWhile isIdle = [] ∧ isIdle s = true then [] else s :: xs.rdropWhile isIdle := by
  rw [List.rdropWhile, List.rdropWhile, List.reverse_cons, List.dropWhile_append]
  cases hrest : xs.reverse.dropWhile isIdle with
  | nil => cases hs : isIdle s <;> simp [hs]
  | cons a r => simp

theorem rdropWhile_cons_of_isName {s : String} (hs : IsName s) (xs : List String) :
    (s :: xs).rdropWhile isIdle = s :: xs.rdropWhile isIdle := by
  rw [rdropWhile_cons, if_neg (by simp [isIdle_of_isName hs])]

/-- **What is ahead comes first**, part by part, also without the idle steps at the end. -/
theorem Ahead.rdropWhile_lt (h : Ahead xs ys) : xs.rdropWhile isIdle < ys.rdropWhile isIdle := by
  induction h with
  | further hb =>
    rw [rdropWhile_cons_of_isName hb]
    exact List.Lex.nil
  | name ha hb hlt =>
    rw [rdropWhile_cons_of_isName ha, rdropWhile_cons_of_isName hb]
    exact List.Lex.rel hlt
  | @same s xs ys _ ih =>
    have hys : ys.rdropWhile isIdle ≠ [] := fun h => List.not_lt_nil _ (h ▸ ih)
    rw [rdropWhile_cons, rdropWhile_cons, if_neg (not_and_of_not_left _ hys)]
    split
    · exact List.Lex.nil
    · exact List.Lex.cons ih

theorem Ahead.shown_lt (h : Ahead xs ys) : shown xs < shown ys :=
  h.filter_ne_empty.dropWhile_isIdle.rdropWhile_lt

/-- **Names come in the order of the steps** if one row is ahead of the other. -/
theorem pathParts_nameOf_lt (h : Ahead xs ys) (hxs : ∀ s ∈ xs, '/' ∉ s.toList)
    (hys : ∀ s ∈ ys, '/' ∉ s.toList) : pathParts (nameOf xs) < pathParts (nameOf ys) := by
  have hlt := h.shown_lt
  have hsome : shown ys ≠ [] := fun h => List.not_lt_nil _ (h ▸ hlt)
  rw [pathParts_nameOf hxs, pathParts_nameOf hys, if_neg hsome]
  split
  · obtain ⟨s, rest, hs⟩ := List.exists_cons_of_ne_nil hsome
    have hmem : s ∈ shown ys := hs ▸ List.mem_cons_self
    have hne : s ≠ "" := (mem_of_mem_shown hmem).2
    obtain ⟨c, cs, hchars⟩ := List.exists_cons_of_ne_nil (mt String.toList_eq_nil_iff.mp hne)
    have hempty : "".toList < s.toList := hchars ▸ List.Lex.nil
    rw [hs]
    exact List.Lex.rel hempty
  · exact hlt

/-! ## Rows of the same form -/

/-- Two steps are the same, or both are seen. -/
def Alike (a b : String) : Prop := a = b ∨ (isIdle a = false ∧ isIdle b = false)

theorem Alike.isIdle_eq {a b : String} (h : Alike a b) : isIdle a = isIdle b := by
  rcases h with rfl | ⟨ha, hb⟩
  · rfl
  · rw [ha, hb]

theorem Alike.eq_of_isIdle {a b : String} (h : Alike a b) (ha : isIdle a = true) : a = b := by
  rcases h with rfl | ⟨ha', -⟩
  · rfl
  · rw [ha] at ha'
    cases ha'

theorem Alike.eq_empty_iff {a b : String} (h : Alike a b) : a = "" ↔ b = "" := by
  rcases h with rfl | ⟨ha, hb⟩
  · rfl
  · constructor <;> rintro rfl
    · exact absurd ha (by decide)
    · exact absurd hb (by decide)

/-- The same steps are dropped from the front of rows of the same form. -/
theorem dropWhile_eq_iff_of_alike (h : List.Forall₂ Alike xs ys) :
    List.Forall₂ Alike (xs.dropWhile isIdle) (ys.dropWhile isIdle) ∧
      (xs.dropWhile isIdle = ys.dropWhile isIdle ↔ xs = ys) := by
  induction h with
  | nil => exact ⟨.nil, Iff.rfl⟩
  | @cons a b xs ys hab hrest ih =>
    cases ha : isIdle a with
    | true =>
      obtain rfl := hab.eq_of_isIdle ha
      rw [List.dropWhile_cons_of_pos ha, List.dropWhile_cons_of_pos ha]
      exact ⟨ih.1, ih.2.trans (by simp)⟩
    | false =>
      have hb : isIdle b = false := hab.isIdle_eq ▸ ha
      rw [List.dropWhile_cons_of_neg (by simp [ha]), List.dropWhile_cons_of_neg (by simp [hb])]
      exact ⟨.cons hab hrest, Iff.rfl⟩

theorem filter_eq_iff_of_alike (h : List.Forall₂ Alike xs ys) :
    List.Forall₂ Alike (xs.filter (· ≠ "")) (ys.filter (· ≠ "")) ∧
      (xs.filter (· ≠ "") = ys.filter (· ≠ "") ↔ xs = ys) := by
  induction h with
  | nil => exact ⟨.nil, Iff.rfl⟩
  | @cons a b xs ys hab hrest ih =>
    by_cases ha : a = ""
    · have hb := hab.eq_empty_iff.mp ha
      subst ha hb
      simpa using ih
    · have hb := mt hab.eq_empty_iff.mpr ha
      rw [List.filter_cons_of_pos (by simpa using ha), List.filter_cons_of_pos (by simpa using hb)]
      exact ⟨.cons hab ih.1, by rw [List.cons.injEq, List.cons.injEq, ih.2]⟩

/-- **Rows of the same form are told apart** by what is seen of them. -/
theorem shown_eq_iff_of_alike (h : List.Forall₂ Alike xs ys) : shown xs = shown ys ↔ xs = ys := by
  obtain ⟨hfilter, hiff⟩ := filter_eq_iff_of_alike h
  obtain ⟨hfront, hiff'⟩ := dropWhile_eq_iff_of_alike hfilter
  obtain ⟨-, hiff''⟩ := dropWhile_eq_iff_of_alike (List.forall₂_reverse_iff.mpr hfront)
  rw [shown, shown, trimIdle, trimIdle, List.reverse_inj, hiff'', List.reverse_inj, hiff', hiff]

end Glob
end LintLocator
