import LintLocator.Yaml.Classic.Scalar
import LintLocator.Yaml.Classic.Tag
import LintLocator.Yaml.Layout

/-!
# From text to tokens in the older form of YAML

The layout of a text means what it means in the current form, so its state is the same `Layout`.
The rules for its tokens are fewer and stricter: a key stands on one line even inside flow
collections, and there a `?` or `:` is an indicator whatever follows it.

A text that goes wrong anywhere is of no use here, so there is no talk of what has been read until
then.
-/

namespace LintLocator
namespace Yaml
namespace Classic

open Layout

/-! ## Between tokens -/

/-- Passes blanks, comments and line breaks.  A tab is a blank only where no key may start, and a
byte order mark is one at the start of a line, where it takes up a column. -/
def skipGap : (fuel : Nat) → Layout → Layout
  | 0, s => s
  | fuel + 1, s =>
    let c := s.cursor
    match c.rest with
    | [] => s
    | ch :: _ =>
      if ch == '\ufeff' && c.mark.col == 0 then skipGap fuel (s.moveTo (c.skip 1))
      else if ch == ' ' || (ch == '\t' && (s.inFlow || !s.keyAllowed)) then
        skipGap fuel (s.moveTo (c.skipBlanks 1))
      else if ch == '#' then skipGap fuel (s.moveTo (skipLine c))
      else if isBreak ch then
        skipGap fuel ((s.moveTo (skipBreak c)).allowKey (s.keyAllowed || !s.inFlow))
      else s

/-- Whether a candidate is too far back: a key stands on one line, and its `:` follows within 1024
characters. -/
def isExpired (s : Layout) (c : Candidate) : Bool :=
  c.mark.line < s.mark.line || c.mark.index + 1024 < s.mark.index

/-- Gives up the candidates that are too far back, none of which may be a required one. -/
def expireCandidates (s : Layout) : Option Layout :=
  if s.candidates.any fun c => c.any fun k => isExpired s k && k.required then none
  else some { s with candidates := s.candidates.map fun c => c.filter fun k => !isExpired s k }

/-! ## Streams and documents -/

/-- Reads the end of the text, at which all block collections end. -/
def readEnd (s : Layout) : Option Layout := do
  let t ← (s.dedentTo (-1)).dropCandidate
  return (t.allowKey false).push .streamEnd s.mark

def readDirectiveLine (s : Layout) : Option Layout := do
  let t ← (s.dedentTo (-1)).dropCandidate
  let (kind, c) ← readDirective t.cursor
  return ((t.allowKey false).moveTo c).push kind s.mark

/-- Reads a mark of three characters between documents. -/
def readDocumentMark (s : Layout) (kind : TokenKind) : Option Layout := do
  let t ← (s.dedentTo (-1)).dropCandidate
  return ((t.allowKey false).moveTo (t.cursor.skip 3)).push kind s.mark

/-! ## Collections -/

/-- Opens a flow collection, however deep. -/
def readFlowStart (s : Layout) (kind : TokenKind) : Layout :=
  let t := s.markCandidate
  let u := { t with depth := t.depth + 1, candidates := none :: t.candidates }
  ((u.allowKey true).moveTo (u.cursor.skip 1)).push kind s.mark

def readFlowEnd (s : Layout) (kind : TokenKind) : Option Layout := do
  let t ← s.dropCandidate
  return ((t.closeFlow.allowKey false).moveTo (t.cursor.skip 1)).push kind s.mark

def readFlowEntry (s : Layout) : Option Layout := do
  let t ← s.dropCandidate
  return ((t.allowKey true).moveTo (t.cursor.skip 1)).push .flowEntry s.mark

/-- Reads the `-` of an item. -/
def readBlockEntry (s : Layout) : Option Layout := do
  if !s.inFlow && !s.keyAllowed then none
  else
    let t ← (s.indentTo s.column none .blockSequenceStart s.mark).dropCandidate
    return ((t.allowKey true).moveTo (t.cursor.skip 1)).push .blockEntry s.mark

/-- Reads the `?` of a key. -/
def readKey (s : Layout) : Option Layout := do
  if !s.inFlow && !s.keyAllowed then none
  else
    let t ← (s.indentTo s.column none .blockMappingStart s.mark).dropCandidate
    return ((t.allowKey (!t.inFlow)).moveTo (t.cursor.skip 1)).push .key s.mark

/-- Reads the `:` of a value.  Its key starts at the candidate, if there is one. -/
def readValue (s : Layout) : Option Layout :=
  let t := s.moveTo (s.cursor.skip 1)
  match s.candidates with
  | some k :: outer =>
    let u := t.insert k.place .key k.mark
    let v := u.indentTo k.mark.col (some k.place) .blockMappingStart k.mark
    some (({ v with candidates := none :: outer }.allowKey false).push .value s.mark)
  | _ =>
    if !s.inFlow && !s.keyAllowed then none
    else
      let v := t.indentTo s.column none .blockMappingStart s.mark
      some ((v.allowKey (!s.inFlow)).push .value s.mark)

/-! ## Nodes -/

def readAnchor (s : Layout) (kind : List Char → TokenKind) : Option Layout := do
  let t := s.markCandidate.allowKey false
  let (name, c) ← readAnchorName t.cursor
  return (t.moveTo c).push (kind name) s.mark

def readTagToken (s : Layout) : Option Layout := do
  let t := s.markCandidate.allowKey false
  let (kind, c) ← readTag s.inFlow t.cursor
  return (t.moveTo c).push kind s.mark

def readBlockScalar (s : Layout) (folded : Bool) : Option Layout := do
  let t ← s.dropCandidate
  let (text, c) ← readBlock folded t.indent t.cursor
  let style := if folded then .folded else .literal
  return ((t.allowKey true).moveTo c).push (.scalar style text) s.mark

def readQuotedScalar (s : Layout) (quote : Char) : Option Layout := do
  let t := s.markCandidate.allowKey false
  let (text, c) ← readQuoted quote t.cursor
  let style := if quote == '\'' then .singleQuoted else .doubleQuoted
  return (t.moveTo c).push (.scalar style text) s.mark

/-- Reads a plain scalar.  When a line has ended behind it, a key may follow. -/
def readPlainScalar (s : Layout) : Option Layout := do
  let t := s.markCandidate.allowKey false
  let (text, broken, c) ← readPlain t.inFlow (t.indent + 1) t.cursor
  return ((t.moveTo c).allowKey broken).push (.scalar .plain text) s.mark

/-! ## One token after the other -/

/-- Reads the token that starts here, which is neither a mark between documents nor a directive. -/
def readToken (s : Layout) (c : Char) (r : List Char) : Option Layout :=
  let alone := endsOrStartsWith isGap r
  match c with
  | '[' => some (readFlowStart s .flowSequenceStart)
  | '{' => some (readFlowStart s .flowMappingStart)
  | ']' => readFlowEnd s .flowSequenceEnd
  | '}' => readFlowEnd s .flowMappingEnd
  | ',' => readFlowEntry s
  | '-' =>
    if alone then readBlockEntry s
    else readPlainScalar s
  | '?' => if s.inFlow || alone then readKey s else readPlainScalar s
  | ':' => if s.inFlow || alone then readValue s else readPlainScalar s
  | '*' => readAnchor s .alias
  | '&' => readAnchor s .anchor
  | '!' => readTagToken s
  | '|' => if s.inFlow then none else readBlockScalar s false
  | '>' => if s.inFlow then none else readBlockScalar s true
  | '\'' => readQuotedScalar s '\''
  | '"' => readQuotedScalar s '"'
  | '\t' => none
  | '%' => none
  | '@' => none
  | '\x60' => none
  | _ => readPlainScalar s

/-- Reads the next token, or the end of the text. -/
def next (s : Layout) : Option Layout := do
  let t ← expireCandidates (skipGap (s.cursor.rest.length + 1) s)
  let u := t.dedentTo t.column
  match u.cursor.rest with
  | [] => readEnd u
  | c :: r =>
    if u.mark.col == 0 && c == '%' then readDirectiveLine u
    else if atDocumentMark u.cursor then
      readDocumentMark u (if c == '-' then .documentStart else .documentEnd)
    else readToken u c r

/-- Reads all tokens.  Each takes at least one character. -/
def readAll : (fuel : Nat) → Layout → Option (List Token)
  | 0, _ => none
  | fuel + 1, s =>
    match next s with
    | none => none
    | some t => if t.isFinished then some t.tokens.reverse else readAll fuel t

/-- The tokens of a text, if it is one. -/
def tokens? (source : List Char) : Option (List Token) :=
  if source.all isPrintable then readAll (source.length + 2) (Layout.start source) else none

end Classic
end Yaml
end LintLocator
