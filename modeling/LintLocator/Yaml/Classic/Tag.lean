import LintLocator.Yaml.Classic.Text
import LintLocator.Yaml.Tag

/-!
# Names in the older form of YAML: anchors, tags and directives

A directive with an unknown name is an error here, and so is a tag that a flow bracket follows
directly.  The bytes of an escaped character in a tag are kept apart; no tag that means anything
has one.
-/

namespace LintLocator
namespace Yaml
namespace Classic

/-! ## Anchors -/

/-- The indicators that may follow the name of an anchor directly. -/
def mayFollowAnchor (c : Char) : Bool := "?:,]\x7d%@\x60".toList.contains c

/-- Reads the name of an anchor or an alias behind its indicator. -/
def readAnchorName (c : Cursor) : Option (List Char × Cursor) :=
  let (name, d) := (c.skip 1).takeWhile isWord
  if name.isEmpty then none
  else if endsOrStartsWith isGap d.rest || startsWith mayFollowAnchor d.rest then some (name, d)
  else none

/-! ## Tags -/

/-- The characters of a tag; in angle brackets there are more of them. -/
def isTagChar (bracketed : Bool) (c : Char) : Bool :=
  isWord c || ";/?:@&=+$.%!~*'()".toList.contains c ||
    (bracketed && (c == ',' || c == '[' || c == ']'))

/-- Reads the bytes of one escaped character behind its first one. -/
def readContinuation : (n : Nat) → Cursor → Option (List Char × Cursor)
  | 0, c => some ([], c)
  | n + 1, c => do
    let (byte, d) ← readEscapedByte c
    if 0x80 ≤ byte ∧ byte < 0xC0 then
      let (chars, e) ← readContinuation n d
      return (Char.ofNat byte :: chars, e)
    else none

/-- Reads the bytes of one escaped character. -/
def readEscaped (c : Cursor) : Option (List Char × Cursor) := do
  let (byte, d) ← readEscapedByte c
  let n ← announcedBytes? byte
  let (chars, e) ← readContinuation (n - 1) d
  return (Char.ofNat byte :: chars, e)

/-- Reads characters of a tag. -/
def readUri (bracketed : Bool) : (fuel : Nat) → Cursor → Option (List Char × Cursor)
  | 0, c => some ([], c)
  | fuel + 1, c =>
    match c.rest with
    | [] => some ([], c)
    | ch :: _ =>
      if !isTagChar bracketed ch then some ([], c)
      else if ch == '%' then do
        let (bytes, d) ← readEscaped c
        let (chars, e) ← readUri bracketed fuel d
        return (bytes ++ chars, e)
      else do
        let (chars, e) ← readUri bracketed fuel (c.skip 1)
        return (ch :: chars, e)

/-- Reads at least one character of a tag. -/
def readUri1 (bracketed : Bool) (c : Cursor) : Option (List Char × Cursor) :=
  (readUri bracketed c.rest.length c).bind fun p => if p.1.isEmpty then none else some p

/-- Reads a tag set in angle brackets. -/
def readVerbatimTag (c : Cursor) : Option (TokenKind × Cursor) := do
  let (suffix, d) ← readUri1 true (c.skip 2)
  if startsWith (· == '>') d.rest then some (.tag [] suffix, d.skip 1) else none

/-- Reads a tag that starts with a handle.  What looks like a handle but is not closed belongs to
the suffix of the handle `!`, and a mere `!` has no handle. -/
def readShorthandTag (c : Cursor) : Option (TokenKind × Cursor) := do
  let (handle, d) ← readHandle c
  if 2 ≤ handle.length && handle.getLast? == some '!' then
    let (suffix, e) ← readUri1 false d
    return (.tag handle suffix, e)
  else
    let (suffix, e) ← readUri false d.rest.length d
    match handle.drop 1 ++ suffix with
    | [] => some (.tag [] ['!'], e)
    | whole => some (.tag ['!'] whole, e)

/-- Reads a tag, which blanks or, inside flow collections, a comma have to follow. -/
def readTag (inFlow : Bool) (c : Cursor) : Option (TokenKind × Cursor) := do
  let (kind, d) ←
    match c.rest with
    | _ :: '<' :: _ => readVerbatimTag c
    | _ => readShorthandTag c
  if endsOrStartsWith isGap d.rest || (inFlow && startsWith (· == ',') d.rest) then some (kind, d)
  else none

/-! ## Directives -/

/-- Reads the handle and its replacement behind `%TAG`. -/
def readTagDirective (c : Cursor) : Option (TokenKind × Cursor) := do
  let (handle, d) ← readHandle (skipBlanks c)
  if handle != ['!'] && handle.getLast? != some '!' || !startsWith isSpace d.rest then none
  else
    let (replacement, e) ← readUri1 true (skipBlanks d)
    if endsOrStartsWith isGap e.rest then some (.tagDirective handle replacement, e) else none

/-- Reads a directive and the line that it stands on. -/
def readDirective (c : Cursor) : Option (TokenKind × Cursor) := do
  let (name, d) := (c.skip 1).takeWhile isWord
  if !endsOrStartsWith isGap d.rest then none
  else
    let (kind, e) ←
      if name == "YAML".toList then readVersion d
      else if name == "TAG".toList then readTagDirective d
      else none
    let f ← skipToNextLine e
    return (kind, f)

end Classic
end Yaml
end LintLocator
