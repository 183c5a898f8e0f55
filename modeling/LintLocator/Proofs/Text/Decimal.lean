import LintLocator.Text.Decimal
import Mathlib.Algebra.Group.Nat.Even

/-!
# Numbers that are written and read

A text is read as an index exactly when it is a run of digits with a small value
(`digits_of_index?`, `index?_of_digits`).  An index is written without leading zeros and read back
as it was, as long as it is small enough to be an index at all.  A number that is written in the
middle of a text is known from the text.
-/

namespace LintLocator
namespace Decimal

theorem isDigit_iff {d : Char} : d.isDigit = true ↔ '0' ≤ d ∧ d ≤ '9' := by
  simp [Char.isDigit, Char.le_def, UInt32.le_iff_toNat_le]

/-- An index fits a machine word. -/
theorem lt_indexBound_iff {n : Nat} : n < indexBound ↔ n ≤ 2 ^ 64 - 1 := by
  unfold indexBound
  omega

/-- What is read as an index is a run of digits, and the index is its value. -/
theorem digits_of_index? {ds : List Char} {place : Nat} (h : index? ds = some place) :
    ds ≠ [] ∧ (∀ d ∈ ds, '0' ≤ d ∧ d ≤ '9') ∧ value ds < indexBound ∧ place = value ds := by
  unfold index? at h
  split at h
  · rename_i hcond
    simp only [Bool.and_eq_true, Bool.not_eq_true', List.isEmpty_eq_false_iff, List.all_eq_true,
      decide_eq_true_eq, isDigit_iff] at hcond
    obtain ⟨⟨hne, hdigits⟩, hvalue⟩ := hcond
    exact ⟨hne, hdigits, hvalue, (Option.some.inj h).symm⟩
  · exact absurd h (by simp)

/-- A run of digits is read as an index if its value is small enough. -/
theorem index?_of_digits {ds : List Char} (hne : ds ≠ []) (hdigits : ∀ d ∈ ds, '0' ≤ d ∧ d ≤ '9')
    (hvalue : value ds < indexBound) : index? ds = some (value ds) := by
  refine if_pos ?_
  simp only [Bool.and_eq_true, Bool.not_eq_true', List.isEmpty_eq_false_iff, List.all_eq_true,
    decide_eq_true_eq, isDigit_iff]
  exact ⟨⟨hne, hdigits⟩, hvalue⟩

/-- What is read as an index is small enough to be one. -/
theorem lt_indexBound_of_index? {ds : List Char} {place : Nat} (h : index? ds = some place) :
    place < indexBound := by
  obtain ⟨-, -, hvalue, rfl⟩ := digits_of_index? h
  exact hvalue

/-- A written number consists of its digits. -/
theorem toList_toString (n : Nat) : (toString n).toList = Nat.toDigits 10 n := by
  rw [Nat.toString_eq_ofList_toDigits, String.toList_ofList]

/-- A written number has its value. -/
theorem value_toString (n : Nat) : value (toString n).toList = n := by
  rw [toList_toString]
  exact Nat.ofDigitChars_ten_toDigits

theorem isDigit_of_mem_toString {n : Nat} {c : Char} (hc : c ∈ (toString n).toList) :
    c.isDigit = true := by
  rw [toList_toString] at hc
  exact Nat.isDigit_of_mem_toDigits (by decide) (Nat.le_refl 10) hc

/-- An index that has been written is read as it was. -/
theorem index?_toString {place : Nat} (h : place < indexBound) :
    index? (toString place).toList = some place := by
  have hdigits : ∀ c ∈ (toString place).toList, '0' ≤ c ∧ c ≤ '9' := fun c hc =>
    isDigit_iff.mp (isDigit_of_mem_toString hc)
  have hne : (toString place).toList ≠ [] := toList_toString place ▸ Nat.toDigits_ne_nil
  rw [index?_of_digits hne hdigits (by rwa [value_toString]), value_toString]

/-- A written number ends where something follows that is no digit. -/
theorem eq_of_toString_append {n m : Nat} {c d : Char} {s t : List Char}
    (hc : c.isDigit = false) (hd : d.isDigit = false)
    (h : (toString n).toList ++ c :: s = (toString m).toList ++ d :: t) : n = m := by
  have hdigits : ∀ (k : Nat) (c : Char) (s : List Char), c.isDigit = false →
      ((toString k).toList ++ c :: s).takeWhile Char.isDigit = (toString k).toList := by
    intro k c s hc
    rw [List.takeWhile_append_of_pos fun c' hc' => isDigit_of_mem_toString hc',
      List.takeWhile_cons_of_neg (by simp [hc]), List.append_nil]
  have htexts : (toString n).toList = (toString m).toList := by
    rw [← hdigits n c s hc, h, hdigits m d t hd]
  rw [← value_toString n, htexts, value_toString]

end Decimal
end LintLocator
