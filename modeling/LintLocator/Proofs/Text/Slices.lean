import LintLocator.Text.Split
import Mathlib.Data.List.Basic

/-!
# Slices of a text

Offsets count bytes, but a text can only be cut between two characters.  `cutAt?` cuts a text at an
offset if it can be cut there, and what is taken from a text by offsets is taken with it.  Where
every offset in use is the width of a beginning of the text (`cutAt?_width`), nothing can go wrong.

* `cutAt?_eq_some_iff`: the offsets at which a text can be cut;
* `from?_width`, `slice?_width`: what is taken at such offsets;
* `width_eq_utf8ByteSize`: the width of a text is the number of its bytes.
-/

namespace LintLocator
namespace Text

variable {s t a b : List Char}

theorem width_singleton (c : Char) : width [c] = c.utf8Size := Nat.add_zero _

/-- Behind `a` and `t` stands what is left of a text that `t` is taken from. -/
theorem width_add_width_sub {rest : List Char} (hs : s = t ++ rest) :
    width a + (width s - width rest) = width (a ++ t) := by
  rw [hs, width_append, width_append, Nat.add_sub_cancel]

/-- What stands before and behind the first `n` bytes, if a character ends there. -/
def cutAt? : (n : Nat) → List Char → Option (List Char × List Char)
  | 0, s => some ([], s)
  | _ + 1, [] => none
  | n + 1, c :: s =>
    if c.utf8Size ≤ n + 1 then
      (cutAt? (n + 1 - c.utf8Size) s).map fun parts => (c :: parts.1, parts.2)
    else none

/-- The text from the byte `start` on. -/
def from? (start : Nat) (s : List Char) : Option (List Char) := (cutAt? start s).map Prod.snd

/-- The text of `length` bytes that begins at the byte `start`. -/
def slice? (start length : Nat) (s : List Char) : Option (List Char) :=
  (from? start s).bind fun rest => (cutAt? length rest).map Prod.fst

/-- A text can be cut behind any of its beginnings. -/
theorem cutAt?_width (a b : List Char) : cutAt? (width a) (a ++ b) = some (a, b) := by
  induction a with
  | nil => simp only [width_nil, List.nil_append, cutAt?]
  | cons c a ih =>
    have hpos := c.utf8Size_pos
    obtain ⟨n, hn⟩ : ∃ n, width (c :: a) = n + 1 := ⟨width (c :: a) - 1, by
      rw [width_cons]
      omega⟩
    have hlater : n + 1 - c.utf8Size = width a := by
      rw [← hn, width_cons, Nat.add_sub_cancel_left]
    have hsize : c.utf8Size ≤ n + 1 := by
      rw [← hn, width_cons]
      exact Nat.le_add_right _ _
    rw [hn, List.cons_append, cutAt?, if_pos hsize, hlater, ih]
    rfl

theorem eq_of_cutAt? {n : Nat} (h : cutAt? n s = some (a, b)) : s = a ++ b ∧ width a = n := by
  induction s generalizing n a b with
  | nil =>
    cases n with
    | zero =>
      cases h
      exact ⟨rfl, rfl⟩
    | succ n => cases h
  | cons c s ih =>
    cases n with
    | zero =>
      cases h
      exact ⟨rfl, rfl⟩
    | succ n =>
      rw [cutAt?] at h
      split at h
      · rename_i hsize
        obtain ⟨⟨a', b'⟩, hcut, hparts⟩ := Option.map_eq_some_iff.mp h
        obtain ⟨rfl, rfl⟩ := Prod.mk.inj hparts
        obtain ⟨rfl, hwidth⟩ := ih hcut
        refine ⟨rfl, ?_⟩
        rw [width_cons, hwidth]
        omega
      · cases h

/-- **A text can be cut where a character ends**, and nowhere else. -/
theorem cutAt?_eq_some_iff {n : Nat} : cutAt? n s = some (a, b) ↔ s = a ++ b ∧ width a = n := by
  refine ⟨eq_of_cutAt?, ?_⟩
  rintro ⟨rfl, rfl⟩
  exact cutAt?_width a b

/-- Behind a beginning of the text stands the rest of it. -/
theorem from?_width (a b : List Char) : from? (width a) (a ++ b) = some b := by
  rw [from?, cutAt?_width]
  rfl

/-- Between two beginnings of the text stands what the longer one has more. -/
theorem slice?_width (a b t : List Char) : slice? (width a) (width b) (a ++ (b ++ t)) = some b := by
  rw [slice?, from?_width, Option.bind_some, cutAt?_width]
  rfl

/-- Inside of a character there is no slice, and none behind the end. -/
example : from? 1 ['ä', 'b'] = none ∧ from? 2 ['ä', 'b'] = some ['b'] ∧
    slice? 2 2 ['ä', 'b'] = none := ⟨rfl, rfl, rfl⟩

/-- The width of a text is the number of its bytes. -/
theorem width_eq_utf8ByteSize (s : List Char) : width s = (String.ofList s).utf8ByteSize := by
  induction s with
  | nil => rfl
  | cons c s ih =>
    have hsplit : String.ofList (c :: s) = String.singleton c ++ String.ofList s := by
      rw [← String.toList_inj]
      simp
    rw [width_cons, ih, hsplit, String.utf8ByteSize_append, String.utf8ByteSize_singleton]

end Text
end LintLocator
