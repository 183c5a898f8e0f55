import LintLocator.Document.Dash

/-!
# Dashes that stand alone, and the lines they are looked for in

The dash of an item is followed by a blank or ends what is searched, unlike the dash of a negative
number or of a compound word.  `lastDash?` looks for such a dash by recursion from the left.  It
gives the rightmost one (`lastDash?_eq_some_iff`), and none only if there is none
(`lastDash?_eq_none_iff`).

`dashUpTo_eq` is what one line contributes to the search.
-/

namespace LintLocator
namespace Document

variable {s : List Char} {c : Char} {i : Nat}

/-- At the place `i` there is a dash, and behind it comes a blank or nothing. -/
def StandsAlone (s : List Char) (i : Nat) : Prop :=
  s[i]? = some '-' ∧ ∀ c ∈ s[i + 1]?, Text.isBlank c = true

theorem StandsAlone.lt_length (h : StandsAlone s i) : i < s.length :=
  (List.getElem?_eq_some_iff.mp h.1).1

theorem not_standsAlone_nil : ¬ StandsAlone [] i := fun h => Nat.not_lt_zero i h.lt_length

theorem standsAlone_cons_succ : StandsAlone (c :: s) (i + 1) ↔ StandsAlone s i := Iff.rfl

theorem standsAlone_cons_zero :
    StandsAlone (c :: s) 0 ↔ (c == '-' && s.head?.all Text.isBlank) = true := by
  rw [StandsAlone, Bool.and_eq_true, beq_iff_eq, Option.all_eq_true, List.getElem?_cons_zero,
    Option.some_inj, List.getElem?_cons_succ, ← List.head?_eq_getElem?]
  rfl

/-- The rightmost dash that stands alone. -/
structure IsLastDash (s : List Char) (i : Nat) : Prop where
  alone : StandsAlone s i
  last : ∀ j, StandsAlone s j → j ≤ i

theorem IsLastDash.unique {j : Nat} (hi : IsLastDash s i) (hj : IsLastDash s j) : i = j :=
  Nat.le_antisymm (hj.last i hi.alone) (hi.last j hj.alone)

theorem IsLastDash.cons (h : IsLastDash s i) : IsLastDash (c :: s) (i + 1) := by
  refine ⟨standsAlone_cons_succ.mpr h.alone, fun j hj => ?_⟩
  cases j with
  | zero => exact Nat.zero_le _
  | succ j => exact Nat.succ_le_succ (h.last j (standsAlone_cons_succ.mp hj))

/-- The first character is the last dash if it stands alone and no dash behind it does. -/
theorem isLastDash_cons_zero (hzero : StandsAlone (c :: s) 0) (hs : ∀ j, ¬ StandsAlone s j) :
    IsLastDash (c :: s) 0 := by
  refine ⟨hzero, fun j hj => ?_⟩
  cases j with
  | zero => exact Nat.le_refl 0
  | succ j => exact absurd (standsAlone_cons_succ.mp hj) (hs j)

/-! ## What is found -/

theorem lastDash?_cons (c : Char) (s : List Char) :
    lastDash? (c :: s) = ((lastDash? s).map (· + 1)).or
      (if c == '-' && s.head?.all Text.isBlank then some 0 else none) := by
  rw [lastDash?]
  cases lastDash? s <;> rfl

theorem lastDash?_eq_none_iff : lastDash? s = none ↔ ∀ i, ¬ StandsAlone s i := by
  induction s with
  | nil => exact iff_of_true rfl fun _ => not_standsAlone_nil
  | cons c s ih =>
    rw [lastDash?_cons, Option.or_eq_none_iff, Option.map_eq_none_iff, ih, ite_eq_right_iff,
      ← standsAlone_cons_zero]
    constructor
    · rintro ⟨hs, hzero⟩ (_ | i) hi
      · exact absurd (hzero hi) nofun
      · exact hs i (standsAlone_cons_succ.mp hi)
    · intro h
      exact ⟨fun i hi => h (i + 1) (standsAlone_cons_succ.mpr hi), fun hzero => absurd hzero (h 0)⟩

theorem isLastDash_of_lastDash? (h : lastDash? s = some i) : IsLastDash s i := by
  induction s generalizing i with
  | nil => cases h
  | cons c s ih =>
    rw [lastDash?_cons] at h
    rcases Option.or_eq_some_iff.mp h with h | ⟨hnone, h⟩
    · obtain ⟨j, hj, rfl⟩ := Option.map_eq_some_iff.mp h
      exact (ih hj).cons
    · obtain ⟨hzero, h⟩ := Option.ite_none_right_eq_some.mp h
      obtain rfl := Option.some.inj h
      exact isLastDash_cons_zero (standsAlone_cons_zero.mpr hzero)
        (lastDash?_eq_none_iff.mp (Option.map_eq_none_iff.mp hnone))

/-- **The rightmost dash that stands alone is found**, and nothing else is. -/
theorem lastDash?_eq_some_iff : lastDash? s = some i ↔ IsLastDash s i := by
  refine ⟨isLastDash_of_lastDash?, fun h => ?_⟩
  cases hfound : lastDash? s with
  | none => exact absurd h.alone (lastDash?_eq_none_iff.mp hfound i)
  | some j => exact congrArg some ((isLastDash_of_lastDash? hfound).unique h)

/-- What is found in the last part of a text is found in the text. -/
theorem lastDash?_append_of_eq_some (p : List Char) (h : lastDash? s = some i) :
    lastDash? (p ++ s) = some (p.length + i) := by
  induction p with
  | nil => simpa using h
  | cons c p ih =>
    rw [List.cons_append, lastDash?_cons, ih, List.length_cons, Nat.add_right_comm]
    rfl

/-! ## The lines that are searched -/

section Lines

variable {lines : List (List Char)}

/-- The part of a line that is searched. -/
def within (limit : Option Nat) (line : List Char) : List Char :=
  match limit with
  | some k => line.take k
  | none => line

theorem dashUpTo_succ (n : Nat) (limit : Option Nat) :
    dashUpTo lines (n + 1) limit =
      (lines[n]?).bind fun line =>
        ((lastDash? (within limit line)).map fun i => ⟨n + 1, i + 1⟩).or
          (if (within limit line).all Text.isBlank then dashUpTo lines n none else none) := by
  rw [dashUpTo]
  cases lines[n]? with
  | none => rfl
  | some line =>
    cases limit with
    | none =>
      dsimp only [within, Option.bind_some]
      cases lastDash? line <;> rfl
    | some k =>
      dsimp only [within, Option.bind_some]
      cases lastDash? (line.take k) <;> rfl

/-- The line with a number.  There is no line with the number 0. -/
def lineAt? (lines : List (List Char)) : Nat → Option (List Char)
  | 0 => none
  | n + 1 => lines[n]?

theorem exists_lineAt?_iff {n : Nat} :
    (∃ text, lineAt? lines n = some text) ↔ 1 ≤ n ∧ n ≤ lines.length := by
  cases n with
  | zero => exact ⟨nofun, fun h => absurd h.1 (by decide)⟩
  | succ n =>
    constructor
    · rintro ⟨text, h⟩
      exact ⟨Nat.le_add_left 1 n, (List.getElem?_eq_some_iff.mp h).1⟩
    · exact fun h => ⟨lines[n], List.getElem?_eq_getElem h.2⟩

theorem dashUpTo_eq (line : Nat) (limit : Option Nat) :
    dashUpTo lines line limit =
      (lineAt? lines line).bind fun text =>
        ((lastDash? (within limit text)).map fun i => ⟨line, i + 1⟩).or
          (if (within limit text).all Text.isBlank then dashUpTo lines (line - 1) none
            else none) := by
  cases line with
  | zero => rfl
  | succ n => exact dashUpTo_succ n limit

theorem length_within_le (limit : Option Nat) (text : List Char) :
    (within limit text).length ≤ text.length := by
  cases limit with
  | none => exact Nat.le_refl _
  | some k => exact List.length_take_le' k text

end Lines

end Document
end LintLocator
