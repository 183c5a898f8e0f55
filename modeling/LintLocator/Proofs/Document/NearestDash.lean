import LintLocator.Proofs.Document.BackwardSearch
import LintLocator.Proofs.Document.Bounds

/-!
# The nearest dash

An item may start lines below its dash, and an anchor, a tag or a comment may stand between the two.
`dashBefore` does not read any of this.  It goes by the lines and by where the item starts.  Which
dash it takes is said here without a search.

One line decides.  It is the line of the item, of which only what stands before the item counts, and
if only blanks do, the nearest line above that is not blank (`IsNearestText`).  The rightmost dash
that stands alone in this line is taken.  If none does, or if no line is left, the dash is taken to
stand where it usually does.

`SearchEnds` has a case for each of these ends.  No two of them are possible at once and one always
is, since together they say what `dashUpTo` gives (`searchEnds_iff`).
-/

namespace LintLocator
namespace Document

variable {lines : List (List Char)} {item : Position} {dash : Option Position}
  {text : List Char} {below n : Nat}

/-- Nothing but blanks, or nothing at all. -/
def IsBlankText (s : List Char) : Prop := ∀ c ∈ s, Text.isBlank c = true

theorem isBlankText_iff {s : List Char} : IsBlankText s ↔ s.all Text.isBlank = true :=
  List.all_eq_true.symm

theorem StandsAlone.not_isBlankText {s : List Char} {i : Nat} (h : StandsAlone s i) :
    ¬ IsBlankText s :=
  fun hblank => absurd (hblank '-' (List.mem_of_getElem? h.1)) (by decide)

theorem IsBlankText.lastDash?_eq_none {s : List Char} (h : IsBlankText s) : lastDash? s = none :=
  lastDash?_eq_none_iff.mpr fun _ hi => hi.not_isBlankText h

/-! ## The nearest line with text -/

/-- Of the lines above the line `below`, the last one that is not blank has the number `n`. -/
structure IsNearestText (lines : List (List Char)) (below n : Nat) (text : List Char) : Prop where
  above : n < below
  line : lineAt? lines n = some text
  notBlank : ¬ IsBlankText text
  between : ∀ m, n < m → m < below → ∀ t ∈ lineAt? lines m, IsBlankText t

namespace IsNearestText

theorem here (hline : lineAt? lines n = some text) (h : ¬ IsBlankText text) :
    IsNearestText lines (n + 1) n text :=
  ⟨Nat.lt_succ_self n, hline, h, fun m hn hm => by omega⟩

theorem past_blank (h : IsNearestText lines below n text)
    (hblank : ∀ t ∈ lineAt? lines below, IsBlankText t) :
    IsNearestText lines (below + 1) n text := by
  refine ⟨Nat.lt_succ_of_lt h.above, h.line, h.notBlank, fun m hn hm => ?_⟩
  rcases Nat.lt_succ_iff_lt_or_eq.mp hm with hm | rfl
  · exact h.between m hn hm
  · exact hblank

theorem not_lt {m : Nat} {other : List Char} (h : IsNearestText lines below n text)
    (h' : IsNearestText lines below m other) : ¬ n < m :=
  fun hlt => h'.notBlank (h.between m hlt h'.above other h'.line)

theorem unique {m : Nat} {other : List Char} (h : IsNearestText lines below n text)
    (h' : IsNearestText lines below m other) : n = m ∧ text = other := by
  obtain rfl := Nat.le_antisymm (Nat.not_lt.mp (h'.not_lt h)) (Nat.not_lt.mp (h.not_lt h'))
  exact ⟨rfl, Option.some.inj (h.line.symm.trans h'.line)⟩

end IsNearestText

/-! ## How the search ends -/

/-- How the search ends once it has got above the line `below`. -/
inductive EndsAbove (lines : List (List Char)) (below : Nat) : Option Position → Prop
  /-- The nearest line with text has a dash. -/
  | dash {n : Nat} {text : List Char} {i : Nat} (near : IsNearestText lines below n text)
      (last : IsLastDash text i) : EndsAbove lines below (some ⟨n, i + 1⟩)
  /-- The nearest line with text has no dash. -/
  | text {n : Nat} {text : List Char} (near : IsNearestText lines below n text)
      (lacks : ∀ i, ¬ StandsAlone text i) : EndsAbove lines below none
  /-- No line is left. -/
  | blank (blank : ∀ m < below, ∀ t ∈ lineAt? lines m, IsBlankText t) : EndsAbove lines below none

/-- How the search for the dash of an item ends. -/
inductive SearchEnds (lines : List (List Char)) (item : Position) : Option Position → Prop
  /-- The line of the item is missing. -/
  | missing (missing : lineAt? lines item.line = none) : SearchEnds lines item none
  /-- There is a dash before the item on its line. -/
  | beside {whole : List Char} {i : Nat} (line : lineAt? lines item.line = some whole)
      (last : IsLastDash (whole.take (item.column - 1)) i) :
      SearchEnds lines item (some ⟨item.line, i + 1⟩)
  /-- There is other text before the item on its line. -/
  | text {whole : List Char} (line : lineAt? lines item.line = some whole)
      (notBlank : ¬ IsBlankText (whole.take (item.column - 1)))
      (lacks : ∀ i, ¬ StandsAlone (whole.take (item.column - 1)) i) : SearchEnds lines item none
  /-- There are only blanks before the item on its line. -/
  | above {whole : List Char} {dash : Option Position} (line : lineAt? lines item.line = some whole)
      (blank : IsBlankText (whole.take (item.column - 1)))
      (above : EndsAbove lines item.line dash) : SearchEnds lines item dash

namespace EndsAbove

theorem past_blank (h : EndsAbove lines below dash)
    (hblank : ∀ t ∈ lineAt? lines below, IsBlankText t) : EndsAbove lines (below + 1) dash := by
  cases h with
  | dash near last => exact .dash (near.past_blank hblank) last
  | text near lacks => exact .text (near.past_blank hblank) lacks
  | blank blank =>
    refine .blank fun m hm => ?_
    rcases Nat.lt_succ_iff_lt_or_eq.mp hm with hm | rfl
    · exact blank m hm
    · exact hblank

theorem near_or_blank (h : EndsAbove lines below dash) :
    (∃ n text, IsNearestText lines below n text) ∨
      ∀ m < below, ∀ t ∈ lineAt? lines m, IsBlankText t := by
  cases h with
  | dash near last => exact .inl ⟨_, _, near⟩
  | text near lacks => exact .inl ⟨_, _, near⟩
  | blank blank => exact .inr blank

/-- The nearest line with text decides. -/
theorem eq_of_near (h : EndsAbove lines below dash) (near : IsNearestText lines below n text) :
    dash = (lastDash? text).map fun i => ⟨n, i + 1⟩ := by
  cases h with
  | dash near' last =>
    obtain ⟨rfl, rfl⟩ := near.unique near'
    rw [lastDash?_eq_some_iff.mpr last, Option.map_some]
  | text near' lacks =>
    obtain ⟨rfl, rfl⟩ := near.unique near'
    rw [lastDash?_eq_none_iff.mpr lacks, Option.map_none]
  | blank blank => exact absurd (blank n near.above text near.line) near.notBlank

theorem eq_none_of_blank (h : EndsAbove lines below dash)
    (blank : ∀ m < below, ∀ t ∈ lineAt? lines m, IsBlankText t) : dash = none := by
  cases h with
  | dash near last => exact absurd (blank _ near.above _ near.line) near.notBlank
  | text near lacks => rfl
  | blank blank' => rfl

theorem unique {other : Option Position} (h : EndsAbove lines below dash)
    (h' : EndsAbove lines below other) : dash = other := by
  rcases h.near_or_blank with ⟨n, text, near⟩ | blank
  · exact (h.eq_of_near near).trans (h'.eq_of_near near).symm
  · exact (h.eq_none_of_blank blank).trans (h'.eq_none_of_blank blank).symm

end EndsAbove

/-! ## What the search gives -/

/-- One line of the search. -/
theorem dashUpTo_of_line {limit : Option Nat} (hline : lineAt? lines n = some text) :
    dashUpTo lines n limit =
      ((lastDash? (within limit text)).map fun i => ⟨n, i + 1⟩).or
        (if (within limit text).all Text.isBlank then dashUpTo lines (n - 1) none else none) := by
  rw [dashUpTo_eq, hline, Option.bind_some]

/-- Lines are searched as a whole until one is not blank. -/
theorem endsAbove_dashUpTo (hn : n ≤ lines.length) :
    EndsAbove lines (n + 1) (dashUpTo lines n none) := by
  induction n with
  | zero =>
    refine .blank fun m hm t ht => ?_
    obtain rfl := Nat.lt_one_iff.mp hm
    cases ht
  | succ n ih =>
    have hline : lineAt? lines (n + 1) = some lines[n] := List.getElem?_eq_getElem hn
    rw [dashUpTo_of_line hline, within]
    cases hdash : lastDash? lines[n] with
    | some i =>
      have hlast := lastDash?_eq_some_iff.mp hdash
      exact .dash (.here hline hlast.alone.not_isBlankText) hlast
    | none =>
      rw [Option.map_none, Option.none_or]
      by_cases hblank : IsBlankText lines[n]
      · rw [if_pos (isBlankText_iff.mp hblank)]
        refine (ih (Nat.le_of_succ_le hn)).past_blank fun t ht => ?_
        obtain rfl := Option.some.inj (hline.symm.trans ht)
        exact hblank
      · rw [if_neg (isBlankText_iff.not.mp hblank)]
        exact .text (.here hline hblank) (lastDash?_eq_none_iff.mp hdash)

/-- Where there are only blanks before the item, the search goes on above its line. -/
theorem endsAbove_of_blank {whole : List Char} (hline : lineAt? lines item.line = some whole)
    (hblank : IsBlankText (whole.take (item.column - 1))) :
    EndsAbove lines item.line (dashUpTo lines item.line (some (item.column - 1))) := by
  rw [dashUpTo_of_line hline, within, hblank.lastDash?_eq_none, Option.map_none, Option.none_or,
    if_pos (isBlankText_iff.mp hblank)]
  obtain ⟨number, column⟩ := item
  cases number with
  | zero => cases hline
  | succ n => exact endsAbove_dashUpTo (Nat.le_of_lt (List.getElem?_eq_some_iff.mp hline).1)

theorem searchEnds_dashUpTo (lines : List (List Char)) (item : Position) :
    SearchEnds lines item (dashUpTo lines item.line (some (item.column - 1))) := by
  cases hline : lineAt? lines item.line with
  | none =>
    rw [dashUpTo_eq, hline]
    exact .missing hline
  | some whole =>
    by_cases hblank : IsBlankText (whole.take (item.column - 1))
    · exact .above hline hblank (endsAbove_of_blank hline hblank)
    · rw [dashUpTo_of_line hline, within, if_neg (isBlankText_iff.not.mp hblank), Option.or_none]
      cases hdash : lastDash? (whole.take (item.column - 1)) with
      | some i => exact .beside hline (lastDash?_eq_some_iff.mp hdash)
      | none => exact .text hline hblank (lastDash?_eq_none_iff.mp hdash)

/-- The search ends in one way, which is what it gives. -/
theorem searchEnds_iff :
    SearchEnds lines item dash ↔ dashUpTo lines item.line (some (item.column - 1)) = dash := by
  refine ⟨fun h => ?_, fun h => h ▸ searchEnds_dashUpTo lines item⟩
  cases h with
  | missing missing => rw [dashUpTo_eq, missing, Option.bind_none]
  | beside line last =>
    rw [dashUpTo_of_line line, within, lastDash?_eq_some_iff.mpr last, Option.map_some,
      Option.some_or]
  | text line notBlank lacks =>
    rw [dashUpTo_of_line line, within, lastDash?_eq_none_iff.mpr lacks, Option.map_none,
      Option.none_or, if_neg (isBlankText_iff.not.mp notBlank)]
  | above line blank above => exact (endsAbove_of_blank line blank).unique above

/-- A dash that is found is before the item, and all lines between the two are blank. -/
theorem SearchEnds.before_and_blank {p : Position} (h : SearchEnds lines item (some p)) :
    p.before item = true ∧
      ∀ n, p.line < n → n < item.line → ∃ text, lineAt? lines n = some text ∧ IsBlankText text := by
  cases h with
  | @beside whole i line last =>
    have hi := last.alone.lt_length
    rw [List.length_take] at hi
    refine ⟨Position.before_iff.mpr (.inr ⟨rfl, ?_⟩), fun n hlt hgt => ?_⟩
    · show i + 1 < item.column
      omega
    · exact absurd hgt (Nat.lt_asymm hlt)
  | above line blank above =>
    cases above with
    | dash near last =>
      refine ⟨Position.before_iff.mpr (.inl near.above), fun n hlt hgt => ?_⟩
      have hlength := (exists_lineAt?_iff.mp ⟨_, line⟩).2
      obtain ⟨text, htext⟩ := exists_lineAt?_iff.mpr
        ⟨Nat.zero_lt_of_lt hlt, (Nat.le_of_lt hgt).trans hlength⟩
      exact ⟨text, htext, near.between n hlt hgt text htext⟩

/-- **The nearest dash is found.**  Whatever the lines and the item are, the search for the dash of
the item ends in just one way.  If it ends with a dash, this dash is taken.  It stands before the
item, and all lines between the two are blank.  Otherwise the dash is taken to stand two columns
before the item, but no further to the left than the first column.  Going backwards character by
character, the search comes to the same after one step for each character and each line at most. -/
theorem dashBefore_by_nearest_text (lines : List (List Char)) (item : Position) :
    ∃ dash, SearchEnds lines item dash ∧ (∀ other, SearchEnds lines item other → other = dash) ∧
      dashBefore lines item = dash.getD ⟨item.line, max (item.column - 2) 1⟩ ∧
      (∀ p ∈ dash, p.before item = true ∧
        ∀ n, p.line < n → n < item.line →
          ∃ text, lineAt? lines n = some text ∧ IsBlankText text) ∧
      Scan.EndsWithin lines ((lines.take item.line).flatten.length + item.line)
        (Scan.enter lines item.line (some (item.column - 1))) dash := by
  have hends := searchEnds_dashUpTo lines item
  refine ⟨_, hends, fun other hother => (searchEnds_iff.mp hother).symm, rfl, fun p hp => ?_,
    Scan.endsWithin_enter _ _⟩
  rw [hp] at hends
  exact hends.before_and_blank

-- the inner dash of two
example : dashBefore [['k', ':'], ['-', ' ', '-', ' ', 'a']] ⟨2, 5⟩ = ⟨2, 3⟩ := by decide

-- a comment stands between the dash and the item, and what is taken is a dash in the comment
example : dashBefore [['-', ' ', '#', ' ', '-', ' ', 'b'], [' '], [' ', 'a']] ⟨3, 2⟩ = ⟨1, 5⟩ := by
  decide

-- the line above ends the search, since its dash does not stand alone
example : dashBefore [['-'], ['-', '1'], [' ', ' ', 'b']] ⟨3, 3⟩ = ⟨3, 1⟩ := by decide

end Document
end LintLocator
