import LintLocator.Text.Split

/-!
# Patterns for the names of files

A pattern is matched part by part, where slashes separate the parts.  In a part, `?` stands for
any character, `*` for any text, `[...]` for one of some characters and `[!...]` for any other
character; everything else stands for itself, and there is no escape character.  A part that is
`**` stands for any number of folders.

The first character between brackets never closes them, which makes it possible to write any
character literally: `[[]` is an opening and `[]]` a closing bracket.
-/

namespace LintLocator
namespace Glob

/-- What a part of a pattern is made of. -/
inductive Token where
  | char (c : Char)
  | anyChar
  | anyText
  /-- A character in one of the ranges, ends included. -/
  | oneOf (ranges : List (Char × Char))
  | noneOf (ranges : List (Char × Char))
  deriving DecidableEq, Repr, Inhabited

/-- A part of a pattern. -/
inductive Part where
  | folders
  | name (tokens : List Token)
  deriving DecidableEq, Repr, Inhabited

/-! ## Reading patterns -/

/-- The ranges written between brackets.  A hyphen makes a range only between two characters. -/
def ranges : List Char → List (Char × Char)
  | [] => []
  | a :: '-' :: b :: r => (a, b) :: ranges r
  | a :: r => (a, a) :: ranges r

/-- What stands before the first closing bracket, and what comes behind the bracket. -/
def untilBracket? (s : List Char) : Option (List Char × List Char) := Text.breakOn [']'] s

/-- Reads the rest of a bracket expression behind its opening bracket. -/
def bracket? : List Char → Option (Token × List Char)
  | '!' :: first :: r => (untilBracket? r).map fun p => (.noneOf (ranges (first :: p.1)), p.2)
  | ['!'] => none
  | first :: r => (untilBracket? r).map fun p => (.oneOf (ranges (first :: p.1)), p.2)
  | [] => none

/-- Reads the tokens of a part; each takes one unit of fuel. -/
def tokensWithin? : (fuel : Nat) → List Char → Option (List Token)
  | _, [] => some []
  | 0, _ :: _ => none
  | fuel + 1, c :: r =>
    match c with
    | '?' => (tokensWithin? fuel r).map (.anyChar :: ·)
    | '*' => if r.head? == some '*' then none else (tokensWithin? fuel r).map (.anyText :: ·)
    | '[' => (bracket? r).bind fun p => (tokensWithin? fuel p.2).map (p.1 :: ·)
    | _ => (tokensWithin? fuel r).map (.char c :: ·)

/-- Reads a part of a pattern.  Two stars in a row have a meaning only as a whole part. -/
def Part.read? (s : List Char) : Option Part :=
  if s == ['*', '*'] then some .folders else (tokensWithin? s.length s).map .name

/-- The parts between slashes; a slash at the very end begins no part. -/
def partTexts (s : List Char) : List (List Char) :=
  let texts := Text.splitOn ['/'] s
  if texts.getLast? == some [] then texts.dropLast else texts

/-- Drops all but the first of neighbouring `**`, which mean no more than one of them. -/
def collapse : List Part → List Part
  | .folders :: .folders :: r => collapse (.folders :: r)
  | p :: r => p :: collapse r
  | [] => []

/-- Reads the parts of a pattern. -/
def readParts? (s : List Char) : Option (List Part) :=
  ((partTexts s).mapM Part.read?).map collapse

/-- Writes a text so that it stands for itself in a pattern. -/
def escape : List Char → List Char
  | [] => []
  | c :: r =>
    if c == '?' || c == '*' || c == '[' || c == ']' then '[' :: c :: ']' :: escape r
    else c :: escape r

/-! ## Matching names -/

/-- The text that tokens stand for, if they stand for one text only. -/
def literal? : List Token → Option (List Char)
  | [] => some []
  | .char c :: r => (literal? r).map (c :: ·)
  | _ :: _ => none

def inRanges (ranges : List (Char × Char)) (c : Char) : Bool :=
  ranges.any fun r => r.1 ≤ c && c ≤ r.2

/-- Whether a token that stands for one character stands for `c`. -/
def Token.accepts (c : Char) : Token → Bool
  | char d => c == d
  | anyChar => true
  | anyText => false
  | oneOf rs => inRanges rs c
  | noneOf rs => !inRanges rs c

/-- Whether a property holds of some end of a text, the whole text included. -/
def someEnd (holds : List Char → Bool) : List Char → Bool
  | [] => holds []
  | c :: r => holds (c :: r) || someEnd holds r

/-- Whether tokens match the whole of a name. -/
def matchName : List Token → List Char → Bool
  | [], s => s.isEmpty
  | .anyText :: ts, s => someEnd (matchName ts) s
  | t :: ts, s =>
    match s with
    | [] => false
    | c :: r => t.accepts c && matchName ts r

/-- Whether a part of a pattern matches a name. -/
def Part.accepts (name : String) : Part → Bool
  | folders => false
  | .name tokens => matchName tokens name.toList

end Glob
end LintLocator
