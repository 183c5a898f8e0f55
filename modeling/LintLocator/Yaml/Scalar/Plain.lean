import LintLocator.Yaml.Scalar.Gap

/-!
# Plain scalars

A plain scalar has no delimiters.  It ends at a `: `, at a comment, at a mark between documents,
inside flow collections at one of their indicators, and outside of them on the first line that is
not indented far enough.  A mark between documents stands at the very start of a line; further in,
it is a word like any other.
-/

namespace LintLocator
namespace Yaml

/-- The characters up to the next blank, break or indicator that ends a plain scalar. -/
def plainWord (inFlow : Bool) : List Char → List Char
  | [] => []
  | c :: r =>
    if isGap c || (inFlow && isFlow c) then []
    else if c == ':' && (endsOrStartsWith isGap r || (inFlow && startsWith isFlow r)) then []
    else c :: plainWord inFlow r

/-- Reads the gap behind a word.  A tab inside the indentation is allowed only on a line that
holds nothing else. -/
def readPlainGap (indent : Int) : (fuel : Nat) → Gap → Cursor → Option (Gap × Cursor)
  | 0, g, c => some (g, c)
  | fuel + 1, g, c =>
    match c.rest with
    | [] => some (g, c)
    | ch :: _ =>
      if isSpace ch then
        if !c.fresh then readPlainGap indent fuel (g.addBlank ch) (c.skipBlanks 1)
        else if ch == '\t' && c.column < indent then
          c.skipToLineEnd.bind fun d => readPlainGap indent fuel g d
        else readPlainGap indent fuel g (c.skipBlanks 1)
      else if isBreak ch then
        readPlainGap indent fuel (if c.fresh then g.addEmptyLine else g.breakLine) c.skipBreak
      else some (g, c)

/-- Whether a dash stands directly before an indicator of a flow collection. -/
def atFlowDash : List Char → Bool
  | '-' :: r => startsWith isFlow r
  | _ => false

/-- Reads words and the gaps between them.  The text so far is given, and answered, with its last
character first. -/
def readPlainWords (inFlow : Bool) (indent : Int) :
    (fuel : Nat) → (text : List Char) → Gap → Cursor → Option (List Char × Cursor)
  | 0, text, _, c => some (text, c)
  | fuel + 1, text, g, c =>
    if (c.mark.col == 0 && atDocumentMark c.rest) || startsWith (· == '#') c.rest then some (text, c)
    else if inFlow && atFlowDash c.rest then none
    else
      match plainWord inFlow c.rest with
      | [] => some (text, c)
      | word =>
        let longer := word.reverse ++ g.text.reverse ++ text
        let d := c.skip word.length
        if !startsWith isGap d.rest then some (longer, d)
        else
          match readPlainGap indent d.rest.length Gap.none d with
          | none => none
          | some (gap, e) =>
            if !inFlow && e.column < indent then some (longer, e)
            else readPlainWords inFlow indent fuel longer gap e

/-- Reads a plain scalar whose lines are indented by at least `indent`. -/
def readPlain (inFlow : Bool) (indent : Int) (c : Cursor) : Option (List Char × Cursor) :=
  if inFlow && c.column < indent then none
  else
    match readPlainWords inFlow indent (c.rest.length + 1) [] Gap.none c with
    | some (text, d) => if text.isEmpty then none else some (text.reverse, d)
    | none => none

end Yaml
end LintLocator
