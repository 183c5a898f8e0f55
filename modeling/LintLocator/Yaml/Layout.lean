import LintLocator.Yaml.Token

/-!
# The layout that has been read so far

Indentation opens and closes collections without a character of its own, and a key is known to be
one only when its `:` comes.  The state of a reader therefore holds, beside the tokens, the stack of
indentations and the places at which a key may turn out to have started: when a `:` confirms one,
tokens are put in at its place.

A token is *settled* once no candidate stands at it or before it.  Only settled tokens may be
used when the text later turns out not to be YAML: what follows them was still open.

* `Layout.indentTo`, `Layout.dedentTo`: opening and closing block collections.
* `Layout.markCandidate`, `Layout.dropCandidate`, `Layout.expireCandidates`: keys that may be.
* `Layout.settle`: what can no longer change.
-/

namespace LintLocator
namespace Yaml

/-- A place at which a key may have started: the number of its token, and whether nothing but a key
can stand there. -/
structure Candidate where
  place : Nat
  mark : Mark
  required : Bool
  deriving DecidableEq, Repr, Inhabited

/-- An indentation that is to be restored, and whether a block collection ends there. -/
structure Level where
  outer : Int
  closes : Bool
  deriving DecidableEq, Repr, Inhabited

/-- The state of a reader of layout. -/
structure Layout where
  cursor : Cursor
  /-- The tokens, the last one first. -/
  tokens : List Token
  /-- How many tokens there are. -/
  count : Nat
  /-- How many of them are settled. -/
  settled : Nat
  /-- The candidate of each open flow collection, innermost first, and of the text around them. -/
  candidates : List (Option Candidate)
  /-- Whether a key may start here. -/
  keyAllowed : Bool
  /-- The indentation of the innermost collection, and -1 outside of all. -/
  indent : Int
  levels : List Level
  /-- The number of open flow collections. -/
  depth : Nat
  /-- Whether the last `:` began a pair without braces.  This is remembered once and not for each
  collection, so the next comma or closing bracket ends the pair, wherever it stands. -/
  inPair : Bool
  /-- Whether a `:` belongs to a mapping that has been announced. -/
  inMapping : Bool
  /-- The place at which a `:` may stand directly before its value. -/
  adjacentValue : Nat
  deriving DecidableEq, Repr, Inhabited

namespace Layout

/-- The state before the first token. -/
def start (source : List Char) : Layout :=
  { cursor := Cursor.ofText source
    tokens := [], count := 0, settled := 0
    candidates := [none], keyAllowed := true
    indent := -1, levels := []
    depth := 0, inPair := false, inMapping := false, adjacentValue := 0 }

def mark (s : Layout) : Mark := s.cursor.mark

def column (s : Layout) : Int := s.cursor.column

def inFlow (s : Layout) : Bool := s.depth != 0

def moveTo (s : Layout) (c : Cursor) : Layout := { s with cursor := c }

def allowKey (s : Layout) (allowed : Bool) : Layout := { s with keyAllowed := allowed }

/-! ## Tokens -/

/-- Adds a token at the end. -/
def push (s : Layout) (kind : TokenKind) (mark : Mark) : Layout :=
  { s with tokens := ⟨kind, mark⟩ :: s.tokens, count := s.count + 1 }

/-- Adds a token so that it gets the number `place`. -/
def insert (s : Layout) (place : Nat) (kind : TokenKind) (mark : Mark) : Layout :=
  { s with tokens := s.tokens.insertIdx (s.count - place) ⟨kind, mark⟩, count := s.count + 1 }

/-- The last token, unless it is settled. -/
def lastUnsettled? (s : Layout) : Option Token :=
  if s.settled < s.count then s.tokens.head? else none

/-- The least of `n` and the places of the candidates. -/
def firstPlace (n : Nat) : List (Option Candidate) → Nat
  | [] => n
  | some c :: r => firstPlace (min n c.place) r
  | none :: r => firstPlace n r

/-- Settles all tokens before the first candidate. -/
def settle (s : Layout) : Layout := { s with settled := firstPlace s.count s.candidates }

/-- The settled tokens in order. -/
def settledTokens (s : Layout) : List Token := s.tokens.reverse.take s.settled

/-- Whether the end of the text has been read. -/
def isFinished (s : Layout) : Bool :=
  match s.tokens with
  | ⟨.streamEnd, _⟩ :: _ => true
  | _ => false

/-! ## Candidates for keys -/

/-- Notes that a key may start here, if one may. -/
def markCandidate (s : Layout) : Layout :=
  if s.keyAllowed then
    let required := !s.inFlow && s.indent == s.column &&
      (match s.levels with
        | level :: _ => level.closes
        | [] => false)
    { s with candidates := some ⟨s.count, s.mark, required⟩ :: s.candidates.drop 1 }
  else s

/-- Gives up the innermost candidate, which must not be a required one. -/
def dropCandidate (s : Layout) : Option Layout :=
  match s.candidates with
  | some c :: outer =>
    if c.required then none else some { s with candidates := none :: outer }
  | _ => some s

/-- Whether a candidate is too far back.  Outside of flow collections a key stands on one line, and
its `:` follows within 1024 characters. -/
def isExpired (s : Layout) (c : Candidate) : Bool :=
  !s.inFlow && (c.mark.line < s.mark.line || c.mark.index + 1024 < s.mark.index)

/-- Gives up the candidates that are too far back. -/
def expireCandidates (s : Layout) : Option Layout :=
  if s.candidates.any fun c => c.any fun c => s.isExpired c && c.required then none
  else some { s with candidates := s.candidates.map fun c => c.filter fun c => !s.isExpired c }

/-! ## Indentation -/

/-- Forgets an indentation that no block collection has taken up. -/
def forgetLoose (s : Layout) : Layout :=
  match s.levels with
  | level :: outer => if level.closes then s else { s with indent := level.outer, levels := outer }
  | [] => s

/-- Starts a block collection at a column, if the column is a deeper one.  Its token gets the number
`place` or, without one, is added at the end. -/
def indentTo (s : Layout) (column : Int) (place : Option Nat) (kind : TokenKind) (mark : Mark) :
    Layout :=
  if s.inFlow then s
  else
    let t := if s.indent ≤ column then s.forgetLoose else s
    if t.indent < column then
      let u := { t with indent := column, levels := ⟨t.indent, true⟩ :: t.levels }
      match place with
      | some n => u.insert n kind mark
      | none => u.push kind mark
    else t

/-- Allows content one column further in than the innermost block collection. -/
def indentLoosely (s : Layout) : Layout :=
  match s.levels with
  | level :: _ =>
    if !s.inFlow && level.closes then
      { s with indent := s.indent + 1, levels := ⟨s.indent, false⟩ :: s.levels }
    else s
  | [] => s

/-- Forgets indentations from the inside, as long as no block collection has taken them up. -/
def forgetAllLoose (s : Layout) : Layout :=
  let rec go : List Level → Int → List Level × Int
    | [], indent => ([], indent)
    | level :: outer, indent =>
      if level.closes then (level :: outer, indent) else go outer level.outer
  let (levels, indent) := go s.levels s.indent
  { s with levels := levels, indent := indent }

/-- Ends the block collections that are indented further than a column. -/
def dedentTo (s : Layout) (column : Int) : Layout :=
  if s.inFlow then s
  else
    let rec go : List Level → Layout → Layout
      | [], t => t
      | level :: outer, t =>
        if column < t.indent then
          let u := { t with indent := level.outer, levels := outer }
          go outer (if level.closes then u.push .blockEnd s.mark else u)
        else t
    go s.levels s

/-! ## Flow collections -/

/-- The deepest nesting of flow collections that is read. -/
def maxDepth : Nat := 255

def openFlow (s : Layout) : Option Layout :=
  if s.depth < maxDepth then
    some { s with depth := s.depth + 1, candidates := none :: s.candidates }
  else none

def closeFlow (s : Layout) : Layout :=
  if s.inFlow then { s with depth := s.depth - 1, candidates := s.candidates.drop 1 } else s

/-- Ends a pair without braces, if one is open. -/
def closePair (s : Layout) : Layout :=
  if s.inPair then { s with inMapping := false, inPair := false }.push .flowMappingEnd s.mark
  else s

end Layout
end Yaml
end LintLocator
