import LintLocator.Proofs.Document.Dashes
import Mathlib.Data.List.Induction
import Mathlib.Logic.Function.Iterate

/-!
# The search for a dash, character by character

Who searches backwards for a dash need not know what stands before it.  `Scan.step` looks at one
character, from right to left and then in the line above.  What has been passed is remembered only
as far as it matters: the character that was passed last, and whether all were blanks.

This search ends with the dash of `dashUpTo`, or without one where `dashUpTo` gives none.  It takes
at most one step for each character and one for each line, up to the line where it begins
(`Scan.endsWithin_enter`).

* `Scan.step_between`: one step in a line, which has been passed from its end down to some place;
* `Scan.iterate_between`: the steps to the start of the line or to the dash.
-/

namespace LintLocator
namespace Document

variable {lines : List (List Char)}

/-- A search that goes backwards. -/
inductive Scan where
  /-- It is in the line with a number.  The characters `ahead` are still to be looked at, the last
  one first.  The character `behind` was passed last, and if `metText`, not only blanks were. -/
  | reading (line : Nat) (ahead : List Char) (behind : Option Char) (metText : Bool)
  /-- It is over, with a dash or without. -/
  | ended (dash : Option Position)

namespace Scan

/-- Goes to the end of a line, or to the limit within it. -/
def enter (lines : List (List Char)) (line : Nat) (limit : Option Nat) : Scan :=
  match lineAt? lines line with
  | none => .ended none
  | some text => .reading line (within limit text).reverse none false

/-- Looks at one character, or leaves a line whose characters have all been passed. -/
def step (lines : List (List Char)) : Scan → Scan
  | .reading line (c :: ahead) behind metText =>
    if c == '-' && behind.all Text.isBlank then .ended (some ⟨line, ahead.length + 1⟩)
    else .reading line ahead (some c) (metText || !Text.isBlank c)
  | .reading line [] _ metText => if metText then .ended none else enter lines (line - 1) none
  | .ended dash => .ended dash

/-- The search is over after a number of steps, with a dash or without. -/
def EndsWithin (lines : List (List Char)) (n : Nat) (s : Scan) (dash : Option Position) : Prop :=
  (step lines)^[n] s = .ended dash

variable {n : Nat} {s : Scan} {dash : Option Position}

theorem endsWithin_ended (n : Nat) (dash : Option Position) :
    EndsWithin lines n (.ended dash) dash :=
  Function.iterate_fixed rfl n

theorem EndsWithin.after {m : Nat} (h : EndsWithin lines n ((step lines)^[m] s) dash) :
    EndsWithin lines (n + m) s dash := by
  rw [EndsWithin, Function.iterate_add_apply]
  exact h

theorem EndsWithin.mono {m : Nat} (h : EndsWithin lines n s dash) (hle : n ≤ m) :
    EndsWithin lines m s dash := by
  rw [← Nat.sub_add_cancel hle]
  refine EndsWithin.after ?_
  rw [h]
  exact endsWithin_ended _ _

/-! ## In one line -/

/-- In a line, `p` is still to be looked at, and `q`, which comes behind it, has been passed. -/
def between (line : Nat) (p q : List Char) : Scan :=
  .reading line p.reverse q.head? (!q.all Text.isBlank)

/-- A line has been searched. -/
def leaving (line : Nat) (s : List Char) : Scan :=
  match lastDash? s with
  | some i => .ended (some ⟨line, i + 1⟩)
  | none => between line [] s

/-- **One step** ends at a dash that stands alone and passes every other character. -/
theorem step_between (line : Nat) (p : List Char) (c : Char) (q : List Char) :
    step lines (between line (p ++ [c]) q) =
      if c == '-' && q.head?.all Text.isBlank then .ended (some ⟨line, p.length + 1⟩)
      else between line p (c :: q) := by
  rw [between, List.reverse_append, List.reverse_singleton, List.singleton_append, step,
    List.length_reverse, between, List.head?_cons, List.all_cons, Bool.not_and, Bool.or_comm]

/-- **All steps in a line** end at the last dash that stands alone, or at the start of the line.
In what has been passed there is no such dash. -/
theorem iterate_between (line : Nat) (p : List Char) {q : List Char} (hq : lastDash? q = none) :
    (step lines)^[p.length] (between line p q) = leaving line (p ++ q) := by
  induction p using List.reverseRecOn generalizing q with
  | nil =>
    rw [List.nil_append, leaving, hq]
    rfl
  | append_singleton p c ih =>
    rw [List.length_append, List.length_singleton, Function.iterate_succ_apply, step_between,
      List.append_assoc, List.singleton_append]
    have hcons := lastDash?_cons c q
    rw [hq, Option.map_none, Option.none_or] at hcons
    by_cases halone : (c == '-' && q.head?.all Text.isBlank) = true
    · rw [if_pos halone] at hcons
      rw [if_pos halone, leaving, lastDash?_append_of_eq_some p hcons]
      exact endsWithin_ended _ _
    · rw [if_neg halone] at hcons
      rw [if_neg halone]
      exact ih hcons

theorem iterate_line (line : Nat) (s : List Char) :
    (step lines)^[s.length] (between line s []) = leaving line s := by
  have h := @iterate_between lines line s [] rfl
  rwa [List.append_nil] at h

/-! ## From line to line -/

theorem step_between_nil (line : Nat) (s : List Char) :
    step lines (between line [] s) =
      if s.all Text.isBlank then enter lines (line - 1) none else .ended none := by
  rw [between, List.reverse_nil, step]
  cases s.all Text.isBlank <;> rfl

/-- **A line that has been searched** ends the search, or is blank and leads to the line above. -/
theorem endsWithin_leaving (line : Nat) (s : List Char)
    (habove : EndsWithin lines n (enter lines (line - 1) none) dash) :
    EndsWithin lines (n + 1) (leaving line s)
      (((lastDash? s).map fun i => ⟨line, i + 1⟩).or
        (if s.all Text.isBlank then dash else none)) := by
  rw [leaving]
  cases lastDash? s with
  | some i => exact endsWithin_ended _ _
  | none =>
    refine EndsWithin.after (m := 1) ?_
    rw [Function.iterate_one, step_between_nil, Option.map_none, Option.none_or]
    split
    · exact habove
    · exact endsWithin_ended _ _

theorem length_flatten_take_succ {n : Nat} {text : List Char}
    (htext : lineAt? lines (n + 1) = some text) :
    (lines.take (n + 1)).flatten.length = (lines.take n).flatten.length + text.length := by
  obtain ⟨hlt, rfl⟩ := List.getElem?_eq_some_iff.mp htext
  rw [← List.take_append_getElem hlt, List.flatten_append, List.length_append,
    List.flatten_singleton]

/-- **The search ends** where `dashUpTo` says.  By then it has taken no more than one step for each
character and one for each line. -/
theorem endsWithin_enter (line : Nat) (limit : Option Nat) :
    EndsWithin lines ((lines.take line).flatten.length + line) (enter lines line limit)
      (dashUpTo lines line limit) := by
  induction line generalizing limit with
  | zero => rfl
  | succ n ih =>
    rw [enter, dashUpTo_eq]
    cases htext : lineAt? lines (n + 1) with
    | none => exact endsWithin_ended _ _
    | some text =>
      have hsearched := endsWithin_leaving (n + 1) (within limit text) (ih none)
      rw [← iterate_line] at hsearched
      have hle := length_within_le limit text
      have hlength := length_flatten_take_succ htext
      exact hsearched.after.mono (by omega)

end Scan
end Document
end LintLocator
