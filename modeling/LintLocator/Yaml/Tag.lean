import LintLocator.Yaml.Token

/-!
# Names: anchors, tags and directives

The small words of YAML that are neither layout nor content.  All of them fail only by being
malformed, so their readers answer `none` and say no more.
-/

namespace LintLocator
namespace Yaml

/-! ## Anchors -/

/-- The characters of an anchor's name. -/
def isAnchorChar (c : Char) : Bool := !isGap c && !isFlow c && c != '\ufeff'

/-- Reads the name of an anchor or an alias behind its indicator. -/
def readAnchorName (c : Cursor) : Option (List Char × Cursor) :=
  match (c.skip 1).takeWhile isAnchorChar with
  | ([], _) => none
  | found => some found

/-! ## Tags -/

/-- The characters that may stand in a tag as they are. -/
def isUriChar (c : Char) : Bool :=
  c.isAlphanum || c == '-' || "#;/?:@&=+$,_.!~*'()[]%".toList.contains c

/-- The characters of a tag that is not set in angle brackets. -/
def isTagChar (c : Char) : Bool := isUriChar c && !isFlow c && c != '!'

/-- The number of bytes that a first byte announces. -/
def announcedBytes? (byte : Nat) : Option Nat :=
  if byte < 0x80 then some 1
  else if 0xC0 ≤ byte ∧ byte < 0xE0 then some 2
  else if 0xE0 ≤ byte ∧ byte < 0xF0 then some 3
  else if 0xF0 ≤ byte ∧ byte < 0xF8 then some 4
  else none

/-- Reads one byte written as `%` and two digits. -/
def readEscapedByte (c : Cursor) : Option (Nat × Cursor) :=
  match c.rest with
  | '%' :: h :: l :: _ => do
    let high ← hexDigit? h
    let low ← hexDigit? l
    return (high * 16 + low, c.skip 3)
  | _ => none

/-- Reads the `n` bytes that continue an escaped character of code `code` so far.  The bytes are
strung together as they are. -/
def readContinuation : (n code : Nat) → Cursor → Option (Nat × Cursor)
  | 0, code, c => some (code, c)
  | n + 1, code, c => do
    let (byte, d) ← readEscapedByte c
    if 0x80 ≤ byte ∧ byte < 0xC0 then readContinuation n (code * 256 + byte) d else none

/-- Reads one character of a tag that is written in escapes. -/
def readEscaped (c : Cursor) : Option (Char × Cursor) := do
  let (byte, d) ← readEscapedByte c
  let n ← announcedBytes? byte
  let (code, e) ← readContinuation (n - 1) byte d
  let char ← charOfCode? code
  return (char, e)

/-- Reads the characters of a class, of which `%` starts an escape. -/
def readUri (p : Char → Bool) : (fuel : Nat) → Cursor → Option (List Char × Cursor)
  | 0, c => some ([], c)
  | fuel + 1, c =>
    match c.rest with
    | [] => some ([], c)
    | ch :: _ =>
      if !p ch then some ([], c)
      else if ch == '%' then do
        let (char, d) ← readEscaped c
        let (chars, e) ← readUri p fuel d
        return (char :: chars, e)
      else do
        let (chars, e) ← readUri p fuel (c.skip 1)
        return (ch :: chars, e)

/-- Reads a handle: `!`, word characters, and a closing `!`, which may be missing. -/
def readHandle (c : Cursor) : Option (List Char × Cursor) :=
  match c.rest with
  | '!' :: _ =>
    let (word, d) := (c.skip 1).takeWhile isWord
    match d.rest with
    | '!' :: _ => some ('!' :: word ++ ['!'], d.skip 1)
    | _ => some ('!' :: word, d)
  | _ => none

/-- Reads a tag set in angle brackets. -/
def readVerbatimTag (c : Cursor) : Option (TokenKind × Cursor) := do
  let (suffix, d) ← readUri isUriChar c.rest.length (c.skip 2)
  if startsWith (· == '>') d.rest then some (.tag [] suffix, d.skip 1) else none

/-- Reads a tag that starts with a handle.  What looks like a handle but is not closed belongs to
the suffix of the handle `!`, and a mere `!` has no handle. -/
def readShorthandTag (c : Cursor) : Option (TokenKind × Cursor) := do
  let (handle, d) ← readHandle c
  let (suffix, e) ← readUri isTagChar d.rest.length d
  if 2 ≤ handle.length && handle.getLast? == some '!' then
    if suffix.isEmpty then none else some (.tag handle suffix, e)
  else
    match handle.drop 1 ++ suffix with
    | [] => some (.tag [] ['!'], e)
    | whole => some (.tag ['!'] whole, e)

/-- Reads a tag, which blanks or, inside flow collections, their delimiters have to follow. -/
def readTag (inFlow : Bool) (c : Cursor) : Option (TokenKind × Cursor) := do
  let (kind, d) ←
    match c.rest with
    | _ :: '<' :: _ => readVerbatimTag c
    | _ => readShorthandTag c
  if endsOrStartsWith isGap d.rest || (inFlow && startsWith isFlow d.rest) then some (kind, d)
  else none

/-! ## Directives -/

/-- Reads a part of a version number, which has at most nine digits. -/
def readVersionPart (c : Cursor) : Option (Nat × Cursor) :=
  let (digits, d) := c.takeWhile Char.isDigit
  if digits.isEmpty || 9 < digits.length then none
  else some (digits.foldl (fun n ch => n * 10 + (ch.toNat - '0'.toNat)) 0, d)

/-- Reads the version behind `%YAML`. -/
def readVersion (c : Cursor) : Option (TokenKind × Cursor) := do
  let (major, d) ← readVersionPart (c.skipBlanksWhile isSpace)
  if startsWith (· == '.') d.rest then
    let (minor, e) ← readVersionPart (d.skip 1)
    return (.versionDirective major minor, e)
  else none

/-- Reads what a handle stands for. -/
def readReplacement (c : Cursor) : Option (List Char × Cursor) := do
  match c.rest with
  | '!' :: _ =>
    let (chars, d) ← readUri isUriChar c.rest.length (c.skip 1)
    return ('!' :: chars, d)
  | ch :: _ => if isTagChar ch then readUri isUriChar c.rest.length c else none
  | [] => none

/-- Reads the handle and its replacement behind `%TAG`. -/
def readTagDirective (c : Cursor) : Option (TokenKind × Cursor) := do
  let (handle, d) ← readHandle (c.skipBlanksWhile isSpace)
  if handle != ['!'] && handle.getLast? != some '!' then none
  else
    let (replacement, e) ← readReplacement (d.skipBlanksWhile isSpace)
    if endsOrStartsWith isGap e.rest then some (.tagDirective handle replacement, e) else none

/-- Reads a directive and the line that it stands on. -/
def readDirective (c : Cursor) : Option (TokenKind × Cursor) := do
  let (name, d) := (c.skip 1).takeWhile isWord
  if name.isEmpty || !endsOrStartsWith isGap d.rest then none
  else
    let (kind, e) ←
      if name == "YAML".toList then readVersion d
      else if name == "TAG".toList then readTagDirective d
      else some (.tagDirective [] [], d.skipLine)
    let f ← e.skipToLineEnd
    return (kind, f.skipBreak)

end Yaml
end LintLocator
