import LintLocator.Proofs.Yaml.ReaderPlaces

/-!
# The order of tokens

Tokens are not in the order of their marks: a mapping without braces is noticed only at the `:`
behind its first key, and then its tokens are put in before the key.  But the marks of those tokens
that say where a sequence starts, and where its items do, are in order, and what comes behind such a
token in the list comes behind it in the text (`Token.Clears`).
-/

namespace LintLocator
namespace Yaml

/-! ## Marks in a text -/

namespace Cursor

/-- The start of a text that holds no NUL. -/
def atStart (text : List Char) : Cursor := ⟨text, ⟨0, 1, 0⟩, true⟩

end Cursor

namespace Mark

/-- The mark behind the start of a text. -/
def behind (before : List Char) : Mark := (Cursor.atStart before).mark.advance before

/-- The character at a mark of a text. -/
def IsAt (text : List Char) (m : Mark) (c : Char) : Prop :=
  ∃ before after, text = before ++ c :: after ∧ m = behind before

/-- Only blanks lead from the dash at `d` to a mark. -/
def IsBeside (text : List Char) (d m : Mark) : Prop :=
  ∃ before gap after, text = before ++ '-' :: (gap ++ after) ∧ (∀ c ∈ gap, isSpace c = true) ∧
    d = behind before ∧ m = behind (before ++ '-' :: gap)

/-- Only blanks and a comment lead from the dash at `d` to a mark. -/
def Follows (text : List Char) (d m : Mark) : Prop :=
  ∃ before gap after, text = before ++ '-' :: (gap ++ after) ∧ IsMargin gap ∧
    d = behind before ∧ m = behind (before ++ '-' :: gap)

variable {text r : List Char} {c d : Cursor}

/-- A cursor that has come from the start of a text stands at its next character. -/
theorem isAt_of_reaches (h : (Cursor.atStart text).Reaches c) {ch : Char}
    (hrest : c.rest = ch :: r) : IsAt text c.mark ch := by
  obtain ⟨s, hs, hmark, -⟩ := h
  exact ⟨s, r, by rw [← hrest]; exact hs, hmark⟩

/-- A dash that only blanks separate from a mark is no other than the last one that has been passed
on the way to it, or it comes later. -/
theorem le_of_isBeside (h : (Cursor.atStart text).Reaches c) (hrest : c.rest = '-' :: r)
    (hd : (c.skip 1).Reaches d) {m : Mark} (hm : IsBeside text m d.mark) : c.mark ≤ m := by
  obtain ⟨s, hs, hmark, -⟩ := h
  obtain ⟨x, hx, hmark', -⟩ := hd
  obtain ⟨before, gap, after, htext, hgap, rfl, hbeside⟩ := hm
  have hr : r = x ++ d.rest := by
    rw [← hx, Cursor.skip, hrest]
    rfl
  have hs : text = s ++ '-' :: r := by
    rw [← hrest]
    exact hs
  have hsplit : (s ++ '-' :: x) ++ d.rest = (before ++ '-' :: gap) ++ after := by
    rw [List.append_assoc, List.append_assoc, List.cons_append, List.cons_append, ← hr, ← hs,
      ← htext]
  have hlength : (s ++ '-' :: x).length = (before ++ '-' :: gap).length := by
    have hindex := congrArg Mark.index (hmark'.symm.trans hbeside)
    rw [index_advance, behind, index_advance, Cursor.skip, hmark, index_advance] at hindex
    simp only [Cursor.atStart, List.length_append, List.length_cons] at hindex ⊢
    omega
  have hsame : s ++ '-' :: x = before ++ '-' :: gap := (List.append_inj hsplit hlength).1
  rcases List.append_eq_append_iff.mp hsame with ⟨y, rfl, hy⟩ | ⟨y, rfl, hy⟩
  · have hkeeps : KeepsBreaks s y := by
      refine keepsBreaks_of_head fun ch hch => ?_
      rcases y with _ | ⟨z, y⟩
      · exact absurd hch (by simp)
      · obtain rfl : z = ch := by simpa using hch
        obtain ⟨rfl, -⟩ := List.cons.inj hy
        rfl
    rw [hmark, behind, advance_append hkeeps]
    exact le_advance _ y
  · rcases y with _ | ⟨z, y⟩
    · rw [List.append_nil] at hmark
      rw [hmark]
      exact le_refl _
    · obtain ⟨-, rfl⟩ := List.cons.inj hy
      exact absurd (hgap '-' (by simp)) (by decide)

/-- The margin behind a dash leads to the mark behind it. -/
theorem follows_of_passesMargin (h : (Cursor.atStart text).Reaches c) (hrest : c.rest = '-' :: r)
    (hd : (c.skip 1).PassesMargin d) : Follows text c.mark d.mark := by
  obtain ⟨s, hs, hmark, -⟩ := h
  obtain ⟨gap, hgap, hr, hmark'⟩ := hd
  have hr : r = gap ++ d.rest := by
    rw [← hr, Cursor.skip, hrest]
    rfl
  refine ⟨s, gap, d.rest, by rw [← hr, ← hrest]; exact hs, hgap, hmark, ?_⟩
  have hline : ∀ ch ∈ '-' :: gap, isBreak ch = false := List.forall_mem_cons.mpr ⟨rfl, hgap.1⟩
  have hkeeps : KeepsBreaks s ('-' :: gap) := keepsBreaks_of_head (by simp [isBreak])
  have hbehind : behind (s ++ '-' :: gap) = c.mark.advance ('-' :: gap) := by
    rw [behind, advance_append hkeeps, hmark]
    rfl
  rw [hbehind, advance_of_line hline, hmark', Cursor.skip, List.length_cons]
  simp only [Mark.mk.injEq, true_and]
  omega

end Mark

/-! ## Tokens that have to be cleared -/

namespace Token

/-- What the tokens behind a token know about its mark. -/
def ClearsMark (t : Token) (m : Mark) : Prop :=
  match t.kind with
  | .flowSequenceStart => t.mark < m
  | .blockSequenceStart => t.mark < m
  | .blockEntry => t.mark ≤ m
  | .blockEnd => t.mark ≤ m
  | _ => True

/-- What a dash behind a token knows about the mark of the token.  The first dash of a sequence
stands where the sequence starts. -/
def ClearsDash (t : Token) (d : Mark) : Prop :=
  match t.kind with
  | .flowSequenceStart => t.mark < d
  | .blockEntry => t.mark ≤ d
  | .blockEnd => t.mark ≤ d
  | _ => True

/-- The second token comes behind the first one, and so does its dash if it is that of an item. -/
def Clears (text : List Char) (t u : Token) : Prop :=
  t.ClearsMark u.mark ∧ (u.kind = .blockEntry → ∀ d, Mark.IsBeside text d u.mark → t.ClearsDash d)

/-- The start of a sequence stands at its first character, and an item behind its dash. -/
def Fits (text : List Char) (t : Token) : Prop :=
  match t.kind with
  | .flowSequenceStart => t.mark.IsAt text '['
  | .blockSequenceStart => t.mark.IsAt text '-'
  | .blockEntry => ∃ d, Mark.Follows text d t.mark
  | _ => True

variable {t : Token} {m n : Mark}

theorem ClearsMark.mono (h : t.ClearsMark m) (hmn : m ≤ n) : t.ClearsMark n := by
  obtain ⟨kind, mark⟩ := t
  cases kind with
  | flowSequenceStart => exact lt_of_lt_of_le h hmn
  | blockSequenceStart => exact lt_of_lt_of_le h hmn
  | blockEntry => exact le_trans h hmn
  | blockEnd => exact le_trans h hmn
  | _ => trivial

theorem ClearsMark.clearsDash (h : t.ClearsMark m) (hmn : m ≤ n) : t.ClearsDash n := by
  obtain ⟨kind, mark⟩ := t
  cases kind with
  | flowSequenceStart => exact lt_of_lt_of_le h hmn
  | blockEntry => exact le_trans h hmn
  | blockEnd => exact le_trans h hmn
  | _ => trivial

end Token

/-- Tokens are in order, and the starts of sequences and their items stand where they should. -/
structure InOrder (text : List Char) (ts : List Token) : Prop where
  fits : ∀ t ∈ ts, t.Fits text
  clears : ts.Pairwise (Token.Clears text)

/-- The kinds of tokens that nothing has to clear. -/
def TokenKind.IsFree : TokenKind → Prop
  | .flowSequenceStart => False
  | .blockSequenceStart => False
  | .blockEntry => False
  | .blockEnd => False
  | _ => True

namespace Token

variable {kind : TokenKind} (h : kind.IsFree)

include h

theorem clearsMark_of_isFree (m n : Mark) : (⟨kind, m⟩ : Token).ClearsMark n := by
  cases kind <;> trivial

theorem clearsDash_of_isFree (m n : Mark) : (⟨kind, m⟩ : Token).ClearsDash n := by
  cases kind <;> trivial

theorem fits_of_isFree (text : List Char) (m : Mark) : (⟨kind, m⟩ : Token).Fits text := by
  cases kind <;> trivial

theorem ne_blockEntry_of_isFree : kind ≠ .blockEntry := by
  rintro rfl
  exact h

end Token

end Yaml
end LintLocator
