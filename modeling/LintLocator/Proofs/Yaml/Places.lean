import LintLocator.Yaml.Cursor
import Mathlib.Data.List.TakeWhile
import Mathlib.Order.Defs.PartialOrder

/-!
# Places in a text

A cursor starts in front of a text and moves through it, so its mark always says where it is.  What
has to be known of every reader is therefore one thing: the cursor `Reaches` the place behind what
has been read.  Two facts follow from it, that marks never decrease and that a mark is the place
behind the text that has been passed.

A carriage return and a line feed behind it are one line break, so a text may not be cut in two
between them (`KeepsBreaks`).
-/

namespace LintLocator
namespace Yaml

/-! ## The order of marks -/

/-- Marks are ordered by their lines and then by their columns. -/
instance : Preorder Mark where
  le m n := m.line < n.line ∨ m.line = n.line ∧ m.col ≤ n.col
  lt m n := m.line < n.line ∨ m.line = n.line ∧ m.col < n.col
  le_refl m := .inr ⟨rfl, Nat.le_refl m.col⟩
  le_trans a b c hab hbc := by omega
  lt_iff_le_not_ge a b := by omega

namespace Mark

theorem lt_iff {m n : Mark} : m < n ↔ m.line < n.line ∨ m.line = n.line ∧ m.col < n.col := Iff.rfl

/-! ## Going on in a text -/

/-- The mark behind a text that starts at a mark. -/
def advance (m : Mark) : List Char → Mark
  | [] => m
  | '\r' :: '\n' :: r => advance ⟨m.index + 2, m.line + 1, 0⟩ r
  | c :: r =>
    advance (if isBreak c then ⟨m.index + 1, m.line + 1, 0⟩ else ⟨m.index + 1, m.line, m.col + 1⟩) r

@[simp] theorem advance_nil (m : Mark) : m.advance [] = m := rfl

theorem advance_return (m : Mark) (r : List Char) :
    m.advance ('\r' :: '\n' :: r) = (⟨m.index + 2, m.line + 1, 0⟩ : Mark).advance r := rfl

theorem advance_cons {c : Char} {r : List Char} (m : Mark)
    (h : ∀ s, c = '\r' → r = '\n' :: s → False) :
    m.advance (c :: r) =
      (if isBreak c then ⟨m.index + 1, m.line + 1, 0⟩ else ⟨m.index + 1, m.line, m.col + 1⟩ :
        Mark).advance r := by
  rw [advance]
  exact h

end Mark

/-- No line break is cut in two where the first text ends and the second one starts. -/
def KeepsBreaks (s r : List Char) : Prop := ¬ (s.getLast? = some '\r' ∧ r.head? = some '\n')

theorem keepsBreaks_nil (r : List Char) : KeepsBreaks [] r := fun h => absurd h.1 (by simp)

theorem keepsBreaks_of_getLast {s r : List Char} (h : ∀ c ∈ s.getLast?, isBreak c = false) :
    KeepsBreaks s r := fun hcut => absurd (h '\r' hcut.1) (by decide)

theorem keepsBreaks_of_head {s r : List Char} (h : ∀ c ∈ r.head?, isBreak c = false) :
    KeepsBreaks s r := fun hcut => absurd (h '\n' hcut.2) (by decide)

theorem KeepsBreaks.tail {c : Char} {s r : List Char} (h : KeepsBreaks (c :: s) r) :
    KeepsBreaks s r := by
  rintro ⟨hs, hr⟩
  refine h ⟨?_, hr⟩
  rw [List.getLast?_cons, hs]
  rfl

namespace Mark

/-- A text is passed in two parts. -/
theorem advance_append {s r : List Char} (h : KeepsBreaks s r) (m : Mark) :
    m.advance (s ++ r) = (m.advance s).advance r := by
  induction m, s using advance.induct with
  | case1 m => rw [List.nil_append, advance_nil]
  | case2 m s ih =>
    rw [List.cons_append, List.cons_append, advance_return, advance_return]
    exact ih h.tail.tail
  | case3 m c s hfirst ih =>
    have hboth : ∀ r', c = '\r' → s ++ r = '\n' :: r' → False := by
      rintro r' rfl hr
      rcases s with _ | ⟨d, s⟩
      · exact h ⟨rfl, by simp [show r = '\n' :: r' from hr]⟩
      · obtain ⟨rfl, rfl⟩ := List.cons.inj hr
        exact hfirst s rfl rfl
    rw [List.cons_append, advance_cons m hboth, advance_cons m hfirst]
    exact ih h.tail

/-- Marks never decrease. -/
theorem le_advance (m : Mark) (s : List Char) : m ≤ m.advance s := by
  induction m, s using advance.induct with
  | case1 m => rw [advance_nil]
  | case2 m s ih =>
    rw [advance_return]
    exact le_trans (.inl (Nat.lt_succ_self m.line)) ih
  | case3 m c s hfirst ih =>
    rw [advance_cons m hfirst]
    refine le_trans ?_ ih
    split
    · exact .inl (Nat.lt_succ_self m.line)
    · exact .inr ⟨rfl, Nat.le_succ m.col⟩

/-- A mark counts all characters. -/
theorem index_advance (m : Mark) (s : List Char) : (m.advance s).index = m.index + s.length := by
  induction m, s using advance.induct with
  | case1 m => rw [advance_nil, List.length_nil, Nat.add_zero]
  | case2 m s ih =>
    rw [advance_return, ih, List.length_cons, List.length_cons]
    show m.index + 2 + s.length = _
    omega
  | case3 m c s hfirst ih =>
    rw [advance_cons m hfirst, ih, List.length_cons]
    split
    · show m.index + 1 + s.length = _
      omega
    · show m.index + 1 + s.length = _
      omega

/-- Without a line break the columns are counted on. -/
theorem advance_of_line {s : List Char} (hs : ∀ c ∈ s, isBreak c = false) (m : Mark) :
    m.advance s = ⟨m.index + s.length, m.line, m.col + s.length⟩ := by
  induction s generalizing m with
  | nil => rfl
  | cons c s ih =>
    obtain ⟨hc, hs⟩ := List.forall_mem_cons.mp hs
    have hfirst : ∀ r, c = '\r' → s = '\n' :: r → False := by
      rintro r rfl
      exact absurd hc (by decide)
    rw [advance_cons m hfirst, if_neg (by simp [hc]), ih hs, List.length_cons]
    simp only [Mark.mk.injEq, true_and]
    omega

end Mark

/-! ## Moving through a text -/

/-- A class of characters that holds neither of the two that end lines. -/
theorem isBreak_eq_false_of {p : Char → Bool} (hfeed : p '\n' = false) (hreturn : p '\r' = false)
    {ch : Char} (h : p ch = true) : isBreak ch = false := by
  rw [Bool.eq_false_iff]
  intro hch
  rw [isBreak, Bool.or_eq_true, beq_iff_eq, beq_iff_eq] at hch
  rcases hch with rfl | rfl
  · exact absurd (h.symm.trans hfeed) (by decide)
  · exact absurd (h.symm.trans hreturn) (by decide)

theorem isBreak_eq_false_of_isSpace {ch : Char} (h : isSpace ch = true) : isBreak ch = false :=
  isBreak_eq_false_of rfl rfl h

theorem isBreak_eq_false_of_isGap {ch : Char} (h : isGap ch = false) : isBreak ch = false := by
  rw [isGap, Bool.or_eq_false_iff] at h
  exact h.2

/-- Blanks and a comment behind them, as they may stand between a token and the end of its line. -/
def IsMargin (s : List Char) : Prop :=
  (∀ ch ∈ s, isBreak ch = false) ∧ ∀ ch ∈ (s.dropWhile isSpace).head?, ch = '#'

theorem isMargin_of_blanks {s : List Char} (hs : ∀ ch ∈ s, isSpace ch = true) : IsMargin s := by
  refine ⟨fun ch hch => isBreak_eq_false_of_isSpace (hs ch hch), fun ch hch => ?_⟩
  rw [List.dropWhile_eq_nil_iff.mpr hs] at hch
  exact absurd hch (by simp)

theorem IsMargin.append {s r : List Char} (hs : IsMargin s) (hr : IsMargin r) :
    IsMargin (s ++ r) := by
  refine ⟨List.forall_mem_append.mpr ⟨hs.1, hr.1⟩, fun ch hch => ?_⟩
  rw [List.dropWhile_append] at hch
  split at hch
  · exact hr.2 ch hch
  · next hne =>
    refine hs.2 ch ?_
    rw [List.head?_append] at hch
    cases hhead : (s.dropWhile isSpace).head? with
    | none => exact absurd (List.head?_eq_none_iff.mp hhead) (by simpa using hne)
    | some x => rwa [hhead] at hch

namespace Cursor

/-- The second cursor stands behind a part of what the first one stands before. -/
def Reaches (c d : Cursor) : Prop :=
  ∃ s, c.rest = s ++ d.rest ∧ d.mark = c.mark.advance s ∧ KeepsBreaks s d.rest

variable {c d e : Cursor}

theorem reaches_of_eq (hrest : d.rest = c.rest) (hmark : d.mark = c.mark) : c.Reaches d :=
  ⟨[], hrest.symm, hmark, keepsBreaks_nil d.rest⟩

theorem Reaches.refl (c : Cursor) : c.Reaches c := reaches_of_eq rfl rfl

theorem Reaches.trans (h : c.Reaches d) (h' : d.Reaches e) : c.Reaches e := by
  obtain ⟨s, hrest, hmark, hkeeps⟩ := h
  obtain ⟨s', hrest', hmark', hkeeps'⟩ := h'
  refine ⟨s ++ s', by rw [hrest, hrest', List.append_assoc], ?_, ?_⟩
  · rw [hmark', hmark, Mark.advance_append]
    rintro ⟨hs, hs'⟩
    refine hkeeps ⟨hs, ?_⟩
    rw [hrest', List.head?_append, hs']
    rfl
  · rintro ⟨hs, he⟩
    rcases List.eq_nil_or_concat s' with rfl | ⟨t, ch, rfl⟩
    · exact hkeeps ⟨by simpa using hs, by rwa [hrest']⟩
    · exact hkeeps' ⟨by simpa using hs, he⟩

theorem Reaches.mark_le (h : c.Reaches d) : c.mark ≤ d.mark := by
  obtain ⟨s, -, hmark, -⟩ := h
  rw [hmark]
  exact Mark.le_advance c.mark s

/-- What is passed is a part of a line. -/
theorem reaches_of_line {s : List Char} (hs : ∀ ch ∈ s, isBreak ch = false)
    (hrest : c.rest = s ++ d.rest)
    (hmark : d.mark = ⟨c.mark.index + s.length, c.mark.line, c.mark.col + s.length⟩) :
    c.Reaches d := by
  refine ⟨s, hrest, by rw [hmark, Mark.advance_of_line hs], keepsBreaks_of_getLast ?_⟩
  intro ch hch
  exact hs ch (List.mem_of_getLast? hch)

theorem reaches_skip {s r : List Char} (hs : ∀ ch ∈ s, isBreak ch = false)
    (hrest : c.rest = s ++ r) : c.Reaches (c.skip s.length) :=
  reaches_of_line hs (by rw [skip, hrest, List.drop_left]) rfl

theorem reaches_skipBlanks {s r : List Char} (hs : ∀ ch ∈ s, isBreak ch = false)
    (hrest : c.rest = s ++ r) : c.Reaches (c.skipBlanks s.length) :=
  reaches_of_line hs (by rw [skipBlanks, hrest, List.drop_left]) rfl

/-- A character that ends no line is passed. -/
theorem reaches_skip_one {ch : Char} {r : List Char} (hrest : c.rest = ch :: r)
    (hch : isBreak ch = false) : c.Reaches (c.skip 1) :=
  reaches_skip (s := [ch]) (List.forall_mem_singleton.mpr hch) hrest

theorem reaches_skipBlanks_one {ch : Char} {r : List Char} (hrest : c.rest = ch :: r)
    (hch : isBreak ch = false) : c.Reaches (c.skipBlanks 1) :=
  reaches_skipBlanks (s := [ch]) (List.forall_mem_singleton.mpr hch) hrest

/-- A line break is passed as a whole. -/
theorem reaches_skipBreak (c : Cursor) : c.Reaches c.skipBreak := by
  rw [skipBreak]
  split
  · next r hrest =>
    exact ⟨['\r', '\n'], hrest, (Mark.advance_return _ []).symm, fun h => absurd h.1 (by decide)⟩
  · next r hfirst hrest =>
    refine ⟨['\r'], hrest, ?_, fun h => ?_⟩
    · rw [Mark.advance_cons _ (by simp)]
      rfl
    · obtain ⟨s, hs⟩ := List.head?_eq_some_iff.mp h.2
      exact hfirst s hs
  · next r hrest =>
    refine ⟨['\n'], hrest, ?_, fun h => absurd h.1 (by decide)⟩
    rw [Mark.advance_cons _ (by simp)]
    rfl
  · exact .refl c

/-! ## Runs of characters -/

section

variable {p : Char → Bool} (hp : ∀ ch, p ch = true → isBreak ch = false)

include hp

theorem reaches_takeWhile (c : Cursor) : c.Reaches (c.takeWhile p).2 := by
  have hline : ∀ ch ∈ c.rest.takeWhile p, isBreak ch = false :=
    fun ch hch => hp ch (List.mem_takeWhile_imp hch)
  have hrest : c.rest = c.rest.takeWhile p ++ c.rest.dropWhile p :=
    List.takeWhile_append_dropWhile.symm
  rw [takeWhile]
  split
  · exact .refl c
  · exact reaches_skip hline hrest

theorem reaches_skipBlanksWhile (c : Cursor) : c.Reaches (c.skipBlanksWhile p) :=
  reaches_skipBlanks (fun ch hch => hp ch (List.mem_takeWhile_imp hch))
    List.takeWhile_append_dropWhile.symm

end

theorem reaches_skipLine (c : Cursor) : c.Reaches c.skipLine :=
  reaches_takeWhile (fun ch hch => by simpa using hch) c

/-- The second cursor stands behind blanks and a comment, if there is one, on the line of the first
one. -/
def PassesMargin (c d : Cursor) : Prop :=
  ∃ s, IsMargin s ∧ c.rest = s ++ d.rest ∧
    d.mark = ⟨c.mark.index + s.length, c.mark.line, c.mark.col + s.length⟩

theorem PassesMargin.reaches (h : c.PassesMargin d) : c.Reaches d := by
  obtain ⟨s, hs, hrest, hmark⟩ := h
  exact reaches_of_line hs.1 hrest hmark

theorem PassesMargin.trans (h : c.PassesMargin d) (h' : d.PassesMargin e) : c.PassesMargin e := by
  obtain ⟨s, hs, hrest, hmark⟩ := h
  obtain ⟨s', hs', hrest', hmark'⟩ := h'
  refine ⟨s ++ s', hs.append hs', by rw [hrest, hrest', List.append_assoc], ?_⟩
  rw [hmark', hmark, List.length_append]
  simp only [Nat.add_assoc]

/-- A comment goes on to the end of its line. -/
theorem passesMargin_skipLine (h : startsWith (· == '#') c.rest = true) :
    c.PassesMargin c.skipLine := by
  obtain ⟨r, hrest⟩ : ∃ r, c.rest = '#' :: r := by
    cases hr : c.rest with
    | nil => exact absurd (hr ▸ h) (by simp [startsWith])
    | cons ch r =>
      rw [hr, startsWith, beq_iff_eq] at h
      exact ⟨r, by rw [h]⟩
  have htaken : c.rest.takeWhile (fun ch => !isBreak ch) =
      '#' :: r.takeWhile fun ch => !isBreak ch := by
    rw [hrest, List.takeWhile_cons_of_pos (by decide)]
  have hskip : c.skipLine = c.skip (c.rest.takeWhile fun ch => !isBreak ch).length := by
    rw [skipLine, takeWhile, htaken]
  have hline : ∀ ch ∈ c.rest.takeWhile fun ch => !isBreak ch, isBreak ch = false := by
    intro ch hch
    simpa using List.mem_takeWhile_imp hch
  have hsplit : c.rest.takeWhile (fun ch => !isBreak ch) ++
      c.rest.dropWhile (fun ch => !isBreak ch) = c.rest := List.takeWhile_append_dropWhile
  rw [hskip]
  generalize c.rest.takeWhile (fun ch => !isBreak ch) = s at htaken hline hsplit
  refine ⟨s, ⟨hline, fun ch hch => ?_⟩, ?_, rfl⟩
  · rw [htaken, List.dropWhile_cons_of_neg (by decide)] at hch
    exact (Option.some.inj hch).symm
  · rw [skip, ← hsplit, List.drop_left]

theorem passesMargin_skipMargin {m : Margin} {tabs : Bool} (h : c.skipMargin tabs = some (m, d)) :
    c.PassesMargin d := by
  have hblank : ∀ ch, (ch == ' ' || (tabs && ch == '\t')) = true → isSpace ch = true := by
    intro ch hch
    rw [isSpace, Bool.or_eq_true]
    rw [Bool.or_eq_true, Bool.and_eq_true] at hch
    exact hch.imp_right And.right
  rw [skipMargin] at h
  dsimp only at h
  have hblanks : ∀ ch ∈ c.rest.takeWhile fun ch => ch == ' ' || (tabs && ch == '\t'),
      isSpace ch = true := by
    intro ch hch
    have hseparator := List.mem_takeWhile_imp hch
    exact hblank ch hseparator
  have hsplit : c.rest.takeWhile (fun ch => ch == ' ' || (tabs && ch == '\t')) ++
      c.rest.dropWhile (fun ch => ch == ' ' || (tabs && ch == '\t')) = c.rest :=
    List.takeWhile_append_dropWhile
  generalize c.rest.takeWhile (fun ch => ch == ' ' || (tabs && ch == '\t')) = blanks
    at h hblanks hsplit
  have hbehind : c.PassesMargin (c.skipBlanks blanks.length) := by
    refine ⟨blanks, isMargin_of_blanks hblanks, ?_, rfl⟩
    rw [skipBlanks, ← hsplit, List.drop_left]
  split at h
  · next hcomment =>
    split at h
    · obtain ⟨-, rfl⟩ := Prod.mk.inj (Option.some.inj h)
      exact hbehind.trans (passesMargin_skipLine hcomment)
    · exact absurd h (by simp)
  · obtain ⟨-, rfl⟩ := Prod.mk.inj (Option.some.inj h)
    exact hbehind

theorem reaches_skipMargin {m : Margin} {tabs : Bool} (h : c.skipMargin tabs = some (m, d)) :
    c.Reaches d := (passesMargin_skipMargin h).reaches

theorem reaches_skipToLineEnd (h : c.skipToLineEnd = some d) : c.Reaches d := by
  rw [skipToLineEnd] at h
  split at h
  · next m e hmargin =>
    split at h
    · obtain rfl := Option.some.inj h
      exact reaches_skipMargin hmargin
    · exact absurd h (by simp)
  · exact absurd h (by simp)

end Cursor
end Yaml
end LintLocator
