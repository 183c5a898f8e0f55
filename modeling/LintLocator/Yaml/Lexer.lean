import LintLocator.Yaml.Layout
import LintLocator.Yaml.Tag
import LintLocator.Yaml.Scalar.Plain
import LintLocator.Yaml.Scalar.Quoted
import LintLocator.Yaml.Scalar.Block

/-!
# From text to tokens

`Layout.next` reads one token, or the few that one indicator gives rise to.  What comes next is told
by one or two characters; the readers below are one for each of these cases.  They fail where the
text is not YAML, and then `TokenStream.ofText` keeps the tokens that were settled.
-/

namespace LintLocator
namespace Yaml

namespace Layout

/-! ## Between tokens -/

/-- Passes blanks, comments and line breaks.  A tab may not stand inside the indentation of a block
collection, unless nothing else stands on its line. -/
def skipGap : (fuel : Nat) → Layout → Option Layout
  | 0, s => some s
  | fuel + 1, s =>
    let c := s.cursor
    match c.rest with
    | [] => some s
    | ch :: _ =>
      if ch == '\t' && !s.levels.isEmpty && c.fresh && c.column < s.indent then
        match c.skipToLineEnd with
        | some d => skipGap fuel (s.moveTo d)
        | none => none
      else if isSpace ch then skipGap fuel (s.moveTo (c.skipBlanks 1))
      else if isBreak ch then
        skipGap fuel ((s.moveTo c.skipBreak).allowKey (s.keyAllowed || !s.inFlow))
      else if ch == '#' then skipGap fuel (s.moveTo c.skipLine)
      else some s

/-- Passes all that may stand before a token. -/
def skipToToken (s : Layout) : Option Layout := skipGap (s.cursor.rest.length + 1) s

/-- Passes the blanks and the comment behind an indicator. -/
def skipMargin (s : Layout) : Option Layout :=
  (s.cursor.skipMargin true).map fun p => s.moveTo p.2

/-! ## Streams and documents -/

/-- Reads the end of the text, at which all block collections end.  Content that does not end its
line is taken to do so. -/
def readEnd (s : Layout) : Option Layout :=
  let m := s.mark
  let c := if m.col = 0 then s.cursor else { s.cursor with mark := ⟨m.index, m.line + 1, 0⟩ }
  let required := fun candidate : Option Candidate =>
    match candidate with
    | some c => c.required
    | none => false
  if s.candidates.any required then none
  else
    let t := { s with cursor := c, candidates := s.candidates.map fun _ => none }
    some (((t.dedentTo (-1)).allowKey false).push .streamEnd c.mark)

def readDirectiveLine (s : Layout) : Option Layout := do
  let t ← (s.dedentTo (-1)).dropCandidate
  let (kind, c) ← readDirective t.cursor
  return ((t.allowKey false).moveTo c).push kind s.mark

/-- Reads a mark of three characters between documents. -/
def readDocumentMark (s : Layout) (kind : TokenKind) : Option Layout := do
  let t ← (s.dedentTo (-1)).dropCandidate
  return ((t.allowKey false).moveTo (t.cursor.skip 3)).push kind s.mark

/-- Reads the mark that ends a document; nothing but a comment may follow it on its line. -/
def readDocumentEnd (s : Layout) : Option Layout := do
  let t ← s.readDocumentMark .documentEnd
  let c ← t.cursor.skipToLineEnd
  return t.moveTo c

/-! ## Flow collections -/

def readFlowStart (s : Layout) (kind : TokenKind) : Option Layout := do
  let t ← s.markCandidate.indentLoosely.openFlow
  let u := { t with inMapping := t.inMapping || kind == TokenKind.flowMappingStart }
  let v ← ((u.allowKey true).moveTo (u.cursor.skip 1)).skipMargin
  return v.push kind s.mark

def readFlowEnd (s : Layout) (kind : TokenKind) : Option Layout := do
  let t ← s.dropCandidate
  let u := (t.closeFlow.allowKey false).closePair
  let v ← (u.moveTo (u.cursor.skip 1)).skipMargin
  let w := if v.inFlow then { v with adjacentValue := v.mark.index } else v
  return w.push kind s.mark

def readFlowEntry (s : Layout) : Option Layout := do
  let t ← s.dropCandidate
  let u := (t.allowKey true).closePair
  let v ← (u.moveTo (u.cursor.skip 1)).skipMargin
  return v.push .flowEntry s.mark

/-! ## Block collections -/

/-- Whether the last token is an anchor or a tag at the start of a line, which then cannot belong to
a collection that goes on at the start of the next one. -/
def hasStrayProperty (s : Layout) : Bool :=
  match s.lastUnsettled? with
  | some ⟨.anchor _, m⟩ => s.mark.col == 0 && m.col == 0 && -1 < s.indent
  | some ⟨.tag _ _, m⟩ => s.mark.col == 0 && m.col == 0 && -1 < s.indent
  | _ => false

/-- Whether the text goes on with the indicator of an item. -/
def atEntry : List Char → Bool
  | '-' :: r => endsOrStartsWith isGap r
  | _ => false

/-- Reads the `-` of an item.  Its token stands behind the blanks that follow it. -/
def readBlockEntry (s : Layout) : Option Layout := do
  if s.inFlow || !s.keyAllowed || s.hasStrayProperty then none
  else
    let t := (s.moveTo (s.cursor.skip 1)).indentTo s.column none .blockSequenceStart s.mark
    let (margin, c) ← t.cursor.skipMargin true
    if margin.tab && atEntry c.rest then none
    else
      let (_, d) ← c.skipMargin false
      let u := t.moveTo d
      let v :=
        if startsWith (fun ch => isBreak ch || isFlow ch) d.rest then u.indentLoosely else u
      let w ← v.dropCandidate
      return (w.allowKey true).push .blockEntry w.mark

/-- Passes blanks, breaks and comments behind the `?` of a key, and tells whether there was a blank
or a break. -/
def skipKeyGap : (fuel : Nat) → (found : Bool) → Layout → Bool × Layout
  | 0, found, s => (found, s)
  | fuel + 1, found, s =>
    let c := s.cursor
    match c.rest with
    | [] => (found, s)
    | ch :: _ =>
      if ch == ' ' then skipKeyGap fuel true (s.moveTo (c.skipBlanks 1))
      else if isBreak ch then
        skipKeyGap fuel true ((s.moveTo c.skipBreak).allowKey (s.keyAllowed || !s.inFlow))
      else if ch == '#' then skipKeyGap fuel found (s.moveTo c.skipLine)
      else (found, s)

/-- Reads the `?` of a key. -/
def readKey (s : Layout) : Option Layout := do
  if !s.inFlow && !s.keyAllowed then none
  else
    let t :=
      if s.inFlow then { s with inMapping := true }
      else s.indentTo s.column none .blockMappingStart s.mark
    let u ← t.dropCandidate
    let v := (u.allowKey (!s.inFlow)).moveTo (u.cursor.skip 1)
    let (found, w) := skipKeyGap (v.cursor.rest.length + 1) false v
    if !found || startsWith (· == '\t') w.cursor.rest then none
    else return w.push .key s.mark

/-- Passes the `:` of a value.  A tab directly behind it may not lead to a word. -/
def skipValueIndicator (c : Cursor) : Option Cursor :=
  let d := c.skip 1
  if startsWith (· == '\t') d.rest then
    match d.skipMargin true with
    | none => none
    | some (margin, e) =>
      if !margin.space && startsWith isWord e.rest then none else some e
  else some d

/-- Reads the `:` of a value whose key started at a candidate. -/
def readSimpleValue (s t : Layout) (pair : Bool) (candidate : Candidate) : Option Layout :=
  if pair && candidate.mark.line < s.mark.line then none
  else
    let u := t.insert candidate.place .key candidate.mark
    let v := if pair then u.insert candidate.place .flowMappingStart t.mark else u
    let w := v.indentTo candidate.mark.col (some candidate.place) .blockMappingStart s.mark
    let x := w.indentLoosely
    some (({ x with candidates := none :: x.candidates.drop 1 }.allowKey false).push .value s.mark)

/-- Reads the `:` of a value behind a longer key or no key. -/
def readLongValue (s t : Layout) (pair : Bool) : Option Layout :=
  let u := if pair then t.push .flowMappingStart t.mark else t
  if !s.inFlow && !s.keyAllowed then none
  else
    let v := (u.indentTo s.column none .blockMappingStart s.mark).indentLoosely
    some ((v.allowKey (!s.inFlow)).push .value s.mark)

/-- Reads the `:` of a value.  Inside flow collections it begins a pair without braces, unless a
brace or a `?` has announced a mapping. -/
def readValue (s : Layout) : Option Layout := do
  let pair := s.inFlow && !s.inMapping
  let t := { s with inPair := pair }
  let c ← skipValueIndicator t.cursor
  match s.candidates with
  | some candidate :: _ => readSimpleValue s (t.moveTo c) pair candidate
  | _ => readLongValue s (t.moveTo c) pair

/-! ## Nodes -/

def readAnchor (s : Layout) (kind : List Char → TokenKind) : Option Layout := do
  let t := s.markCandidate.allowKey false
  let (name, c) ← readAnchorName t.cursor
  return (t.moveTo c).push (kind name) s.mark

def readTagToken (s : Layout) : Option Layout := do
  let t := s.markCandidate.allowKey false
  let (kind, c) ← readTag s.inFlow t.cursor
  return (t.moveTo c).push kind s.mark

def readBlockScalar (s : Layout) (folded : Bool) : Option Layout := do
  let t := (s.markCandidate.allowKey true).forgetAllLoose
  let (m, text, c) ← readBlock folded t.indent t.cursor
  return (t.moveTo c).push (.scalar (if folded then .folded else .literal) text) m

/-- Reads a quoted scalar and passes what may stand before the next token, where a `:` then needs
no blank behind it. -/
def readQuotedScalar (s : Layout) (quote : Char) : Option Layout := do
  let t := s.markCandidate.allowKey false
  let (text, c) ← readQuoted quote t.inFlow t.indent t.cursor
  let u ← (t.moveTo c).skipToToken
  let style := if quote == '\'' then .singleQuoted else .doubleQuoted
  return ({ u with adjacentValue := u.mark.index }).push (.scalar style text) s.mark

/-- Reads a plain scalar.  When it ends with its line, a key may follow. -/
def readPlainScalar (s : Layout) : Option Layout := do
  let t := (s.markCandidate.allowKey false).forgetAllLoose
  let (text, c) ← readPlain t.inFlow (t.indent + 1) t.cursor
  return ((t.moveTo c).allowKey c.fresh).push (.scalar .plain text) s.mark

/-! ## One token after the other -/

/-- Reads the token that starts here, which is neither a mark between documents nor a directive. -/
def readToken (s : Layout) (c : Char) (r : List Char) : Option Layout :=
  let alone := endsOrStartsWith isGap r
  match c with
  | '[' => s.readFlowStart .flowSequenceStart
  | '{' => s.readFlowStart .flowMappingStart
  | ']' => s.readFlowEnd .flowSequenceEnd
  | '}' => s.readFlowEnd .flowMappingEnd
  | ',' => s.readFlowEntry
  | '-' => if alone then s.readBlockEntry else s.readPlainScalar
  | '?' => if alone then s.readKey else s.readPlainScalar
  | ':' =>
    if alone || (s.inFlow && (startsWith isFlow r || s.mark.index == s.adjacentValue)) then
      s.readValue
    else s.readPlainScalar
  | '*' => s.readAnchor .alias
  | '&' => s.readAnchor .anchor
  | '!' => s.readTagToken
  | '|' => if s.inFlow then s.readPlainScalar else s.readBlockScalar false
  | '>' => if s.inFlow then s.readPlainScalar else s.readBlockScalar true
  | '\'' => s.readQuotedScalar '\''
  | '"' => s.readQuotedScalar '"'
  | '%' => none
  | '@' => none
  | '\x60' => none
  | _ => s.readPlainScalar

/-- Whether the text goes on with the mark that starts a document. -/
def atDocumentStart : List Char → Bool
  | '-' :: '-' :: '-' :: r => endsOrStartsWith isGap r
  | _ => false

/-- Reads the next token, or the end of the text. -/
def next (s : Layout) : Option Layout := do
  let t ← s.skipToToken
  let u ← t.expireCandidates
  let v := u.dedentTo u.column
  match v.cursor.rest with
  | [] => v.readEnd
  | c :: r =>
    if v.mark.col == 0 && c == '%' then v.readDirectiveLine
    else if v.mark.col == 0 && atDocumentStart (c :: r) then v.readDocumentMark .documentStart
    else if v.mark.col == 0 && atDocumentEnd (c :: r) then v.readDocumentEnd
    else if v.column < v.indent then none
    else v.readToken c r

/-- Settles what can be settled behind a token. -/
def settleAll (s : Layout) : Option Layout :=
  if s.settled < s.count then s.expireCandidates.map settle else some s

/-- Reads tokens to the end of the text or to the first place that is not YAML.  Every token takes
at least one character, so `fuel` need not exceed the length of the text by more than one. -/
def readAll : (fuel : Nat) → Layout → TokenStream
  | 0, s => ⟨s.settledTokens, true⟩
  | fuel + 1, s =>
    match s.next with
    | none => ⟨s.settledTokens, true⟩
    | some t =>
      match t.settleAll with
      | none => ⟨s.settledTokens, true⟩
      | some u => if u.isFinished then ⟨u.settledTokens, false⟩ else readAll fuel u

end Layout

/-- The tokens of a text. -/
def TokenStream.ofText (source : List Char) : TokenStream :=
  Layout.readAll (source.length + 2) (Layout.start source)

end Yaml
end LintLocator
