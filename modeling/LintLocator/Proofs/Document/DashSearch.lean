import LintLocator.Document.Builder
import LintLocator.Proofs.Document.Dashes
import LintLocator.Proofs.Text.Splitting
import LintLocator.Proofs.Yaml.TokenOrder
import LintLocator.Text.Lines

/-!
# The search for a dash

`dashBefore` is given a position and searches the lines of the text.  It finds the right dash if
only blanks stand between the dash and the position (`dashBefore_of_isBeside`).

The position counts lines as the scanner does, for which a carriage return ends a line with or
without a line feed behind it.  The lines that are searched end at line feeds.  So before the
position the text may hold no carriage return without a line feed (`Text.PairsReturns`).

* `Text.lines_append_feed`, `Text.exists_head_lines`: what the lines of a text are;
* `Text.exists_line_of_advance`: a mark is where it says in these lines;
* `lastDash?_append`: a dash with nothing but blanks behind it is found.
-/

namespace LintLocator

open Yaml (Mark isBreak isSpace)

/-! ## Lines and marks -/

namespace Text

/-- Every carriage return has a line feed behind it. -/
def PairsReturns (s : List Char) : Prop :=
  ∀ before after, s = before ++ '\r' :: after → after.head? = some '\n'

theorem pairsReturns_of_notMem {s : List Char} (h : '\r' ∉ s) : PairsReturns s := by
  rintro before after rfl
  exact absurd (by simp) h

theorem PairsReturns.of_append {s t : List Char} (h : PairsReturns (s ++ t)) : PairsReturns t := by
  rintro before after rfl
  exact h (s ++ before) after (List.append_assoc _ _ _).symm

theorem lines_append_feed {line : List Char} (hline : '\n' ∉ line) (s : List Char) :
    lines (line ++ '\n' :: s) = dropReturn line :: lines s := by
  have hfirst : ¬ ['\n'] <:+: line ++ ['\n'].dropLast := by
    intro h
    exact hline (by simpa using h.mem List.mem_cons_self)
  have hcut := splitOn_append_append (r := s) (by simp) hfirst
  rw [List.append_assoc, List.singleton_append] at hcut
  obtain ⟨piece, pieces, hpieces⟩ := List.exists_cons_of_ne_nil (splitOn_ne_nil ['\n'] s)
  rw [lines, hcut, hpieces, linesOfPieces, lines, hpieces]

/-- What holds no line break is not shortened. -/
theorem exists_dropReturn {line : List Char} (hline : ∀ c ∈ line, isBreak c = false)
    (s : List Char) : ∃ more, dropReturn (line ++ s) = line ++ more := by
  rw [dropReturn]
  split
  · next hlast =>
    have hs : s ≠ [] := by
      rintro rfl
      rw [List.append_nil, beq_iff_eq] at hlast
      exact absurd (hline '\r' (List.mem_of_getLast? hlast)) (by decide)
    exact ⟨s.dropLast, List.dropLast_append_of_ne_nil hs⟩
  · exact ⟨s, rfl⟩

/-- What a text starts with and what holds no line break is what its first line starts with. -/
theorem exists_head_lines {line : List Char} (hne : line ≠ [])
    (hline : ∀ c ∈ line, isBreak c = false) (s : List Char) :
    ∃ more, (lines (line ++ s))[0]? = some (line ++ more) := by
  have hfeed : '\n' ∉ line := fun h => absurd (hline '\n' h) (by decide)
  by_cases hs : '\n' ∈ s
  · obtain ⟨a, b, rfl, ha⟩ := List.eq_append_cons_of_mem hs
    obtain ⟨more, hmore⟩ := exists_dropReturn hline a
    have hboth : '\n' ∉ line ++ a := fun h => (List.mem_append.mp h).elim hfeed ha
    refine ⟨more, ?_⟩
    rw [← List.append_assoc, lines_append_feed hboth, hmore]
    rfl
  · have hnot : ¬ ['\n'] <:+: line ++ s := by
      intro h
      exact (List.mem_append.mp (h.mem List.mem_cons_self)).elim hfeed hs
    refine ⟨s, ?_⟩
    rw [lines, splitOn_of_not_infix hnot, linesOfPieces, if_neg (by simp [hne])]
    rfl

/-- A line that ends with a line feed is passed. -/
theorem advance_append_feed {p s : List Char} (hp : '\n' ∉ p)
    (hpairs : PairsReturns (p ++ '\n' :: s)) (i k c : Nat) (r : List Char) :
    (⟨i, k, c⟩ : Mark).advance (p ++ '\n' :: r) =
      (⟨i + (p.length + 1), k + 1, 0⟩ : Mark).advance r := by
  induction p generalizing i c with
  | nil =>
    rw [List.nil_append, Mark.advance_cons _ (fun _ h => absurd h (by decide))]
    rfl
  | cons ch p ih =>
    obtain ⟨hch, hrest⟩ := not_or.mp (List.mem_cons.not.mp hp)
    by_cases hreturn : ch = '\r'
    · obtain rfl := hreturn
      -- the line feed behind the carriage return is the one that ends the line
      have hhead := hpairs [] (p ++ '\n' :: s) rfl
      obtain rfl : p = [] := by
        rcases p with _ | ⟨d, p⟩
        · rfl
        · obtain rfl : d = '\n' := Option.some.inj hhead
          exact absurd List.mem_cons_self hrest
      exact Mark.advance_return _ r
    · have hbreak : isBreak ch = false := by
        rw [isBreak, Bool.or_eq_false_iff, beq_eq_false_iff_ne, beq_eq_false_iff_ne]
        exact ⟨Ne.symm hch, hreturn⟩
      have hpairs' : PairsReturns (p ++ '\n' :: s) := hpairs.of_append (s := [ch])
      rw [List.cons_append, Mark.advance_cons _ (fun _ h => absurd h hreturn), hbreak]
      show (⟨i + 1, k, c + 1⟩ : Mark).advance (p ++ '\n' :: r) = _
      rw [ih hrest hpairs', List.length_cons]
      congr 2
      omega

/-- A mark is where it says in the lines of the text. -/
theorem exists_line_of_advance {before line after : List Char}
    (hpairs : PairsReturns (before ++ line)) (hne : line ≠ [])
    (hline : ∀ c ∈ line, isBreak c = false) (i k : Nat) :
    ∃ n p more, (⟨i, k, 0⟩ : Mark).advance before = ⟨i + before.length, k + n, p.length⟩ ∧
      (lines (before ++ (line ++ after)))[n]? = some (p ++ (line ++ more)) := by
  induction hlength : before.length using Nat.strong_induction_on generalizing before i k with
  | _ length ih =>
    by_cases hfeed : '\n' ∈ before
    · obtain ⟨p, r, rfl, hp⟩ := List.eq_append_cons_of_mem hfeed
      have hsplit : ∀ s, p ++ '\n' :: r ++ s = p ++ '\n' :: (r ++ s) := List.append_assoc _ _
      rw [hsplit] at hpairs
      have hrest : PairsReturns (r ++ line) :=
        PairsReturns.of_append (s := p ++ ['\n']) (by simpa using hpairs)
      rw [List.length_append, List.length_cons] at hlength
      obtain ⟨n, q, more, hmark, hget⟩ :=
        ih r.length (by omega) hrest (i + (p.length + 1)) (k + 1) rfl
      refine ⟨n + 1, q, more, ?_, ?_⟩
      · rw [advance_append_feed hp hpairs, hmark]
        simp only [Mark.mk.injEq, and_true]
        omega
      · rw [hsplit, lines_append_feed hp, List.getElem?_cons_succ]
        exact hget
    · have hbefore : ∀ c ∈ before, isBreak c = false := by
        intro c hc
        rw [isBreak, Bool.or_eq_false_iff, beq_eq_false_iff_ne, beq_eq_false_iff_ne]
        refine ⟨fun h => hfeed (h ▸ hc), ?_⟩
        rintro rfl
        obtain ⟨a, b, rfl⟩ := List.append_of_mem hc
        have hhead := hpairs a (b ++ line) (by simp)
        rcases b with _ | ⟨d, b⟩
        · obtain ⟨d, line, rfl⟩ := List.exists_cons_of_ne_nil hne
          obtain rfl : d = '\n' := Option.some.inj hhead
          exact absurd (hline '\n' List.mem_cons_self) (by decide)
        · obtain rfl : d = '\n' := Option.some.inj hhead
          exact hfeed (by simp)
      have hboth : before ++ line ≠ [] := by simp [hne]
      obtain ⟨more, hget⟩ := exists_head_lines hboth
        (List.forall_mem_append.mpr ⟨hbefore, hline⟩) after
      refine ⟨0, before, more, ?_, ?_⟩
      · rw [Mark.advance_of_line hbefore, hlength, Nat.zero_add, Nat.add_zero]
      · rw [← List.append_assoc, hget, List.append_assoc]

end Text

namespace Document

/-! ## The dash -/

theorem lastDash?_of_notMem {s : List Char} (h : '-' ∉ s) : lastDash? s = none :=
  lastDash?_eq_none_iff.mpr fun _ hi => h (List.mem_of_getElem? hi.1)

/-- A dash with nothing but blanks behind it is found. -/
theorem lastDash?_append {p gap : List Char} (hgap : ∀ c ∈ gap, isSpace c = true) :
    lastDash? (p ++ '-' :: gap) = some p.length := by
  have hblank : ∀ c ∈ gap, Text.isBlank c = true ∧ c ≠ '-' := by
    intro c hc
    have hspace := hgap c hc
    rw [isSpace, Bool.or_eq_true, beq_iff_eq, beq_iff_eq] at hspace
    rcases hspace with rfl | rfl
    · decide
    · decide
  have hnone : lastDash? gap = none := lastDash?_of_notMem fun h => (hblank '-' h).2 rfl
  have halone : StandsAlone ('-' :: gap) 0 :=
    ⟨rfl, fun c hc => (hblank c (List.mem_of_getElem? hc)).1⟩
  exact lastDash?_append_of_eq_some p
    (lastDash?_eq_some_iff.mpr (isLastDash_cons_zero halone (lastDash?_eq_none_iff.mp hnone)))

/-- **The dash is found.** -/
theorem dashBefore_of_isBeside {source text : List Char} {d m : Mark} (htext : text <+: source)
    (hpairs : Text.PairsReturns (text.take m.index)) (h : Mark.IsBeside text d m) :
    dashBefore (Text.lines source) (positionOf m) = positionOf d := by
  obtain ⟨before, gap, after, rfl, hgap, rfl, rfl⟩ := h
  obtain ⟨rest, rfl⟩ := htext
  have hline : ∀ c ∈ '-' :: gap, isBreak c = false := by
    refine List.forall_mem_cons.mpr ⟨rfl, fun c hc => ?_⟩
    exact Yaml.isBreak_eq_false_of_isSpace (hgap c hc)
  have hadvance : Mark.behind (before ++ '-' :: gap) =
      (Mark.behind before).advance ('-' :: gap) :=
    Mark.advance_append (Yaml.keepsBreaks_of_head (by simp [isBreak])) _
  have hindex : (Mark.behind (before ++ '-' :: gap)).index = (before ++ '-' :: gap).length := by
    rw [Mark.behind, Mark.index_advance]
    exact Nat.zero_add _
  have hsplit : before ++ '-' :: (gap ++ after) = (before ++ '-' :: gap) ++ after := by simp
  rw [hindex, hsplit, List.take_left] at hpairs
  obtain ⟨n, p, more, hmark, hget⟩ :=
    Text.exists_line_of_advance hpairs (List.cons_ne_nil '-' gap) hline 0 1
  have hsource : before ++ '-' :: (gap ++ after) ++ rest =
      before ++ (('-' :: gap) ++ (after ++ rest)) := by simp
  have hd : Mark.behind before = ⟨0 + before.length, 1 + n, p.length⟩ := hmark
  have hm : positionOf (Mark.behind (before ++ '-' :: gap)) =
      ⟨n + 1, p.length + (gap.length + 1) + 1⟩ := by
    rw [hadvance, hd, Mark.advance_of_line hline, positionOf, List.length_cons, Nat.add_comm 1 n]
  have htake : (p ++ (('-' :: gap) ++ more)).take (p.length + (gap.length + 1)) =
      p ++ '-' :: gap := by
    rw [← List.append_assoc]
    exact List.take_left' (by simp)
  have hdash : dashUpTo (Text.lines (before ++ (('-' :: gap) ++ (after ++ rest)))) (n + 1)
      (some (p.length + (gap.length + 1))) = some ⟨n + 1, p.length + 1⟩ := by
    rw [dashUpTo, hget]
    simp only [htake, lastDash?_append hgap]
  rw [hsource, hm, dashBefore]
  show (dashUpTo _ (n + 1) (some (p.length + (gap.length + 1)))).getD _ = _
  rw [hdash, Option.getD_some, positionOf, hd, Nat.add_comm 1 n]

end Document
end LintLocator
