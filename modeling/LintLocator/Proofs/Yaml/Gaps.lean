import LintLocator.Json.Token
import LintLocator.Yaml.Lexer
import Mathlib.Data.List.TakeWhile

/-!
# Blanks between tokens

Between the tokens of a JSON text there are blanks and line breaks, and never a comment.  A place is
`Cursor.IsBefore` a text if nothing else separates the two.

* `Layout.skipToToken_of_stops`: outside of block collections all of it is passed;
* `Cursor.skipMargin_of_stops`: what is on the line is passed;
* `Layout.skipValueIndicator_of_stops`: a `:` is refused where only tabs lead from it to a word.
-/

namespace LintLocator
namespace Yaml

/-! ## Blanks -/

theorem isGap_eq_isBlank (c : Char) : isGap c = Json.isBlank c := by
  simp [isGap, isSpace, isBreak, Json.isBlank, Bool.or_assoc]

/-- What may follow a gap: the end of the text, or a character that neither is a blank nor starts a
comment. -/
def Stops (r : List Char) : Prop := ∀ c ∈ r.head?, isGap c = false ∧ c ≠ '#'

theorem stops_nil : Stops [] := by
  intro c hc
  simp at hc

theorem stops_cons {c : Char} {r : List Char} (h : isGap c = false ∧ c ≠ '#') : Stops (c :: r) := by
  intro d hd
  obtain rfl : c = d := by simpa using hd
  exact h

theorem isGap_eq_false {c : Char} : isGap c = false ↔ isSpace c = false ∧ isBreak c = false := by
  rw [isGap, Bool.or_eq_false_iff]

namespace Cursor

/-- Only blanks stand between a place and a text. -/
def IsBefore (c : Cursor) (r : List Char) : Prop :=
  ∃ gap, (∀ ch ∈ gap, isGap ch = true) ∧ c.rest = gap ++ r

theorem isBefore_of_rest {c : Cursor} {r : List Char} (h : c.rest = r) : c.IsBefore r :=
  ⟨[], by simp, h⟩

/-- A break takes the line feed behind a carriage return with it and leaves the rest of a gap. -/
theorem skipBreak_of_stops {c : Cursor} {ch : Char} {gap r : List Char} (hch : isBreak ch = true)
    (hr : Stops r) (hrest : c.rest = ch :: (gap ++ r)) :
    ∃ left, left <:+ gap ∧ c.skipBreak.rest = left ++ r := by
  rw [isBreak, Bool.or_eq_true, beq_iff_eq, beq_iff_eq] at hch
  rcases hch with rfl | rfl
  · refine ⟨gap, List.suffix_refl gap, ?_⟩
    simp only [skipBreak, hrest]
  · rcases gap with _ | ⟨d, gap⟩
    · refine ⟨[], List.suffix_refl [], ?_⟩
      rw [List.nil_append] at hrest
      rcases r with _ | ⟨d, r⟩
      · simp only [skipBreak, hrest, List.nil_append]
      · have hd : d ≠ '\n' := by
          rintro rfl
          exact absurd (hr '\n' rfl).1 (by decide)
        simp [skipBreak, hrest, hd]
    · by_cases hd : d = '\n'
      · subst hd
        refine ⟨gap, List.suffix_cons _ _, ?_⟩
        simp only [skipBreak, hrest, List.cons_append]
      · refine ⟨d :: gap, List.suffix_refl _, ?_⟩
        simp [skipBreak, hrest, hd]

end Cursor

namespace Layout

/-- **A gap is passed.**  Outside of block collections only the cursor moves, and a line break may
allow a key. -/
theorem skipGap_of_stops {s : Layout} (hlevels : s.levels = []) {gap r : List Char}
    (hgap : ∀ c ∈ gap, isGap c = true) (hr : Stops r) (hrest : s.cursor.rest = gap ++ r)
    (fuel : Nat) (hfuel : gap.length < fuel) :
    ∃ c allowed, skipGap fuel s = some ((s.moveTo c).allowKey allowed) ∧ c.rest = r ∧
      (s.inFlow = true → allowed = s.keyAllowed) ∧ (s.keyAllowed = true → allowed = true) ∧
      (gap = [] → c = s.cursor) := by
  induction fuel generalizing s gap with
  | zero => omega
  | succ fuel ih =>
    have hempty : s.levels.isEmpty = true := List.isEmpty_iff.mpr hlevels
    rcases gap with _ | ⟨ch, gap⟩
    · rw [List.nil_append] at hrest
      refine ⟨s.cursor, s.keyAllowed, ?_, hrest, fun _ => rfl, id, fun _ => rfl⟩
      rw [skipGap]
      rcases r with _ | ⟨ch, r⟩
      · simp only [hrest]
        rfl
      · obtain ⟨hch, hcomment⟩ := hr ch rfl
        obtain ⟨hspace, hbreak⟩ := isGap_eq_false.mp hch
        simp [hrest, hempty, hspace, hbreak, hcomment, moveTo, allowKey]
    · have hch := hgap ch List.mem_cons_self
      have hgap' : ∀ c ∈ gap, isGap c = true := fun c hc => hgap c (List.mem_cons_of_mem _ hc)
      rw [List.cons_append] at hrest
      rw [List.length_cons] at hfuel
      by_cases hspace : isSpace ch = true
      · obtain ⟨c, allowed, hskip, hc, hflow, hkey, -⟩ :=
          ih (s := s.moveTo (s.cursor.skipBlanks 1)) hlevels hgap'
            (by simp [moveTo, Cursor.skipBlanks, hrest]) (by omega)
        have hstep : skipGap (fuel + 1) s = skipGap fuel (s.moveTo (s.cursor.skipBlanks 1)) := by
          rw [skipGap]
          simp [hrest, hempty, hspace]
        exact ⟨c, allowed, hstep.trans hskip, hc, hflow, hkey, fun h => absurd h (by simp)⟩
      · have hbreak : isBreak ch = true := by simpa [isGap, hspace] using hch
        obtain ⟨left, hleft, hrest'⟩ := Cursor.skipBreak_of_stops hbreak hr hrest
        have hlength := hleft.length_le
        obtain ⟨c, allowed, hskip, hc, hflow, hkey, -⟩ :=
          ih (s := (s.moveTo s.cursor.skipBreak).allowKey (s.keyAllowed || !s.inFlow)) hlevels
            (fun c hc => hgap' c (hleft.mem hc)) hrest' (by omega)
        have hstep : skipGap (fuel + 1) s =
            skipGap fuel ((s.moveTo s.cursor.skipBreak).allowKey (s.keyAllowed || !s.inFlow)) := by
          rw [skipGap]
          simp [hrest, hempty, hspace, hbreak]
        refine ⟨c, allowed, hstep.trans hskip, hc, fun h => ?_, fun h => ?_,
          fun h => absurd h (by simp)⟩
        · rw [hflow h]
          simp [allowKey, h]
        · exact hkey (by simp [allowKey, h])

/-- All that stands before a token is passed. -/
theorem skipToToken_of_stops {s : Layout} (hlevels : s.levels = []) {r : List Char} (hr : Stops r)
    (h : s.cursor.IsBefore r) :
    ∃ c allowed, s.skipToToken = some ((s.moveTo c).allowKey allowed) ∧ c.rest = r ∧
      (s.inFlow = true → allowed = s.keyAllowed) ∧ (s.keyAllowed = true → allowed = true) ∧
      (s.cursor.rest = r → c = s.cursor) := by
  obtain ⟨gap, hgap, hrest⟩ := h
  obtain ⟨c, allowed, hskip, hc, hflow, hkey, hstay⟩ :=
    skipGap_of_stops hlevels hgap hr hrest (s.cursor.rest.length + 1)
      (by simp only [hrest, List.length_append]; omega)
  refine ⟨c, allowed, hskip, hc, hflow, hkey, fun h => hstay ?_⟩
  have hlength := congrArg List.length (hrest.symm.trans h)
  rw [List.length_append] at hlength
  exact List.length_eq_zero_iff.mp (by omega)

end Layout

/-! ## The blanks of a line -/

namespace Stops

variable {r : List Char}

theorem startsWith_eq_false (h : Stops r) {p : Char → Bool}
    (hp : ∀ c, isGap c = false → c ≠ '#' → p c = false) : startsWith p r = false := by
  rcases r with _ | ⟨c, r⟩
  · rfl
  · obtain ⟨hgap, hcomment⟩ := h c rfl
    exact hp c hgap hcomment

theorem takeWhile_isSpace (h : Stops r) : r.takeWhile isSpace = [] := by
  rcases r with _ | ⟨c, r⟩
  · rfl
  · have hspace := (isGap_eq_false.mp (h c rfl).1).1
    rw [List.takeWhile_cons, hspace]
    rfl

end Stops

theorem takeWhile_isSpace_append {gap r : List Char} (hr : Stops r) :
    (gap ++ r).takeWhile isSpace = gap.takeWhile isSpace := by
  rw [List.takeWhile_append, hr.takeWhile_isSpace, List.append_nil]
  split
  · next h => exact ((List.takeWhile_prefix isSpace).eq_of_length h).symm
  · rfl

/-- What a gap goes on with behind the blanks of its line is a break. -/
theorem exists_break_of_dropWhile {gap : List Char} (hgap : ∀ c ∈ gap, isGap c = true)
    (hne : gap.dropWhile isSpace ≠ []) :
    ∃ c left, gap.dropWhile isSpace = c :: left ∧ isBreak c = true := by
  obtain ⟨c, left, hdrop⟩ := List.exists_cons_of_ne_nil hne
  have hspace : isSpace c = false := by
    have h := List.head?_dropWhile_not isSpace gap
    rw [hdrop] at h
    simpa using h
  have hc : isGap c = true := by
    refine hgap c ((List.dropWhile_suffix isSpace).mem ?_)
    rw [hdrop]
    exact List.mem_cons_self
  exact ⟨c, left, hdrop, by simpa [isGap, hspace] using hc⟩

theorem startsWith_dropWhile_isSpace {gap r : List Char} (hgap : ∀ c ∈ gap, isGap c = true)
    (hne : gap.dropWhile isSpace ≠ []) {p : Char → Bool}
    (hp : ∀ c, isBreak c = true → p c = false) :
    startsWith p (gap.dropWhile isSpace ++ r) = false := by
  obtain ⟨c, left, hdrop, hbreak⟩ := exists_break_of_dropWhile hgap hne
  rw [hdrop]
  exact hp c hbreak

namespace Cursor

/-- The blanks of a line are passed, and what they are is told. -/
theorem skipMargin_of_stops {c : Cursor} {gap r : List Char} (hgap : ∀ ch ∈ gap, isGap ch = true)
    (hr : Stops r) (hrest : c.rest = gap ++ r) :
    ∃ d, c.skipMargin true = some (⟨(gap.takeWhile isSpace).contains '\t',
        (gap.takeWhile isSpace).contains ' '⟩, d) ∧ d.rest = gap.dropWhile isSpace ++ r := by
  have hseparator : (fun ch => ch == ' ' || (true && ch == '\t')) = isSpace := by
    funext ch
    rw [Bool.true_and, isSpace]
  have htake : c.rest.takeWhile isSpace = gap.takeWhile isSpace := by
    rw [hrest, takeWhile_isSpace_append hr]
  have hsplit : c.rest = gap.takeWhile isSpace ++ (gap.dropWhile isSpace ++ r) := by
    rw [hrest, ← List.append_assoc, List.takeWhile_append_dropWhile]
  have hdrop : c.rest.drop (gap.takeWhile isSpace).length = gap.dropWhile isSpace ++ r := by
    rw [hsplit, List.drop_left]
  have hcomment : startsWith (· == '#') (gap.dropWhile isSpace ++ r) = false := by
    by_cases hne : gap.dropWhile isSpace = []
    · rw [hne, List.nil_append]
      exact hr.startsWith_eq_false fun c _ hc => by simpa using hc
    · refine startsWith_dropWhile_isSpace hgap hne fun c hc => ?_
      rw [beq_eq_false_iff_ne]
      rintro rfl
      exact absurd hc (by decide)
  refine ⟨c.skipBlanks (gap.takeWhile isSpace).length, ?_, hdrop⟩
  simp only [skipMargin, hseparator, htake, skipBlanks, hdrop, hcomment]
  rfl

theorem skipMargin_isBefore {c d : Cursor} {gap r : List Char} {m : Margin}
    (hgap : ∀ ch ∈ gap, isGap ch = true) (hr : Stops r) (hrest : c.rest = gap ++ r)
    (h : c.skipMargin true = some (m, d)) : d.IsBefore r := by
  obtain ⟨e, hskip, he⟩ := skipMargin_of_stops hgap hr hrest
  obtain ⟨-, rfl⟩ := Prod.mk.inj (Option.some.inj (hskip.symm.trans h))
  exact ⟨_, fun ch hch => hgap ch ((List.dropWhile_suffix isSpace).mem hch), he⟩

end Cursor

/-! ## The colon before a value -/

/-- Only tabs lead from a `:` to a word. -/
def IsTabbed (gap r : List Char) : Prop :=
  gap ≠ [] ∧ (∀ c ∈ gap, c = '\t') ∧ startsWith isWord r = true

namespace Layout

/-- What is looked at behind a tab tells whether only tabs lead to a word. -/
theorem isTabbed_iff_of_tab {gap r : List Char} (hgap : ∀ ch ∈ gap, isGap ch = true) (hr : Stops r)
    (htab : startsWith (· == '\t') (gap ++ r) = true) :
    (!(gap.takeWhile isSpace).contains ' ' && startsWith isWord (gap.dropWhile isSpace ++ r)) =
      true ↔ IsTabbed gap r := by
  by_cases htabs : ∀ ch ∈ gap, ch = '\t'
  · have hspaces : ∀ ch ∈ gap, isSpace ch = true := by
      intro ch hch
      rw [htabs ch hch]
      rfl
    have hspace : gap.contains ' ' = false := by
      rw [List.contains_eq_mem, decide_eq_false_iff_not]
      intro hmem
      exact absurd (htabs ' ' hmem) (by decide)
    have hne : gap ≠ [] := by
      rintro rfl
      rw [List.nil_append, hr.startsWith_eq_false fun ch hch _ => ?_] at htab
      · exact absurd htab (by decide)
      · rw [beq_eq_false_iff_ne]
        rintro rfl
        exact absurd hch (by decide)
    rw [List.takeWhile_eq_self_iff.mpr hspaces, List.dropWhile_eq_nil_iff.mpr hspaces,
      List.nil_append, hspace, Bool.not_false, Bool.true_and]
    exact ⟨fun h => ⟨hne, htabs, h⟩, fun h => h.2.2⟩
  -- a blank of another kind is a space on the line, or a break
  · refine ⟨fun h => absurd h ?_, fun h => absurd h.2.1 htabs⟩
    by_cases hne : gap.dropWhile isSpace = []
    · have hspaces := List.dropWhile_eq_nil_iff.mp hne
      obtain ⟨ch, hch, hother⟩ : ∃ ch ∈ gap, ch ≠ '\t' := by simpa using htabs
      obtain rfl : ch = ' ' := by
        have h := hspaces ch hch
        simpa [isSpace, hother] using h
      rw [List.takeWhile_eq_self_iff.mpr hspaces, List.contains_eq_mem, decide_eq_true hch]
      exact Bool.false_ne_true
    · rw [startsWith_dropWhile_isSpace hgap hne, Bool.and_false]
      · exact Bool.false_ne_true
      · intro ch hch
        rw [isBreak, Bool.or_eq_true, beq_iff_eq, beq_iff_eq] at hch
        rcases hch with rfl | rfl
        · rfl
        · rfl

/-- **A `:` is passed, unless only tabs lead from it to a word.** -/
theorem skipValueIndicator_of_stops {c : Cursor} {gap r : List Char}
    (hgap : ∀ ch ∈ gap, isGap ch = true) (hr : Stops r) (hrest : c.rest = ':' :: (gap ++ r)) :
    (¬ IsTabbed gap r → ∃ d, skipValueIndicator c = some d ∧ d.IsBefore r) ∧
      (IsTabbed gap r → skipValueIndicator c = none) := by
  have hbehind : (c.skip 1).rest = gap ++ r := by rw [Cursor.skip, hrest]; rfl
  obtain ⟨d, hskip, hd⟩ := Cursor.skipMargin_of_stops hgap hr hbehind
  by_cases htab : startsWith (· == '\t') (gap ++ r) = true
  · have hvalue : skipValueIndicator c =
        if !(gap.takeWhile isSpace).contains ' ' &&
          startsWith isWord (gap.dropWhile isSpace ++ r) then none else some d := by
      simp only [skipValueIndicator, hbehind, htab, hskip, hd]
      rfl
    have htabbed := isTabbed_iff_of_tab hgap hr htab
    have hbefore : d.IsBefore r := Cursor.skipMargin_isBefore hgap hr hbehind hskip
    refine ⟨fun hfree => ⟨d, ?_, hbefore⟩, fun h => ?_⟩
    · rw [hvalue, if_neg fun h => hfree (htabbed.mp h)]
    · rw [hvalue, if_pos (htabbed.mpr h)]
  · refine ⟨fun _ => ⟨c.skip 1, ?_, ⟨gap, hgap, hbehind⟩⟩, fun h => absurd ?_ htab⟩
    · simp [skipValueIndicator, hbehind, htab]
    · obtain ⟨hne, htabs, -⟩ := h
      rcases gap with _ | ⟨ch, gap⟩
      · exact absurd rfl hne
      · obtain rfl := htabs ch List.mem_cons_self
        rfl

end Layout

end Yaml
end LintLocator
