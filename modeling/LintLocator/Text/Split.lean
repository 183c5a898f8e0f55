/-!
# Cutting a text at a separator

The languages read here delimit their parts by the *first* occurrence of a fixed text and know no
escape, so one search is enough for all of them: `breakOn` stops at the first occurrence and
`splitOn` goes on behind it, which makes the occurrences it cuts at leftmost and disjoint.
-/

namespace LintLocator
namespace Text

/-- Cuts `s` at the first occurrence of `sep`: what stands before it and what stands after it. -/
def breakOn (sep : List Char) : List Char → Option (List Char × List Char)
  | [] => if sep.isEmpty then some ([], []) else none
  | c :: r =>
    if sep.isPrefixOf (c :: r) then some ([], (c :: r).drop sep.length)
    else (breakOn sep r).map fun p => (c :: p.1, p.2)

theorem breakOn_nil (sep : List Char) :
    breakOn sep [] = if sep.isEmpty then some ([], []) else none := rfl

theorem breakOn_cons (sep : List Char) (c : Char) (r : List Char) :
    breakOn sep (c :: r) =
      if sep.isPrefixOf (c :: r) then some ([], (c :: r).drop sep.length)
      else (breakOn sep r).map fun p => (c :: p.1, p.2) := rfl

/-- The piece that `s` starts with and the pieces after it, where the first `skip` characters
still belong to a separator that has been found already. -/
def splitFrom (sep : List Char) : Nat → List Char → List Char × List (List Char)
  | _, [] => ([], [])
  | skip + 1, _ :: r => splitFrom sep skip r
  | 0, c :: r =>
    if sep.isPrefixOf (c :: r) then
      let later := splitFrom sep (sep.length - 1) r
      ([], later.1 :: later.2)
    else
      let later := splitFrom sep 0 r
      (c :: later.1, later.2)

@[simp] theorem splitFrom_nil (sep : List Char) (skip : Nat) :
    splitFrom sep skip [] = ([], []) := by
  cases skip <;> rfl

@[simp] theorem splitFrom_succ_cons (sep : List Char) (skip : Nat) (c : Char) (r : List Char) :
    splitFrom sep (skip + 1) (c :: r) = splitFrom sep skip r := rfl

theorem splitFrom_zero_cons (sep : List Char) (c : Char) (r : List Char) :
    splitFrom sep 0 (c :: r) =
      if sep.isPrefixOf (c :: r) then
        ([], (splitFrom sep (sep.length - 1) r).1 :: (splitFrom sep (sep.length - 1) r).2)
      else (c :: (splitFrom sep 0 r).1, (splitFrom sep 0 r).2) := rfl

/-- All pieces of `s` between the occurrences of the non-empty text `sep`; there is always one
piece more than there are occurrences. -/
def splitOn (sep s : List Char) : List (List Char) :=
  let pieces := splitFrom sep 0 s
  pieces.1 :: pieces.2

theorem splitOn_eq (sep s : List Char) :
    splitOn sep s = (splitFrom sep 0 s).1 :: (splitFrom sep 0 s).2 := rfl

@[simp] theorem splitOn_nil (sep : List Char) : splitOn sep [] = [[]] := rfl

/-- The pieces with `sep` between them. -/
def joinWith (sep : String) : List String → String
  | [] => ""
  | [s] => s
  | s :: t :: r => s ++ sep ++ joinWith sep (t :: r)

@[simp] theorem joinWith_nil (sep : String) : joinWith sep [] = "" := rfl

@[simp] theorem joinWith_singleton (sep s : String) : joinWith sep [s] = s := rfl

theorem joinWith_cons_cons (sep s t : String) (r : List String) :
    joinWith sep (s :: t :: r) = s ++ sep ++ joinWith sep (t :: r) := rfl

/-- The number of bytes that the text takes in UTF-8. -/
def width : List Char → Nat
  | [] => 0
  | c :: s => c.utf8Size + width s

@[simp] theorem width_nil : width [] = 0 := rfl

@[simp] theorem width_cons (c : Char) (s : List Char) : width (c :: s) = c.utf8Size + width s := rfl

@[simp] theorem width_append (s t : List Char) : width (s ++ t) = width s + width t := by
  induction s with
  | nil => simp
  | cons c s ih => simp [ih, Nat.add_assoc]

end Text
end LintLocator
