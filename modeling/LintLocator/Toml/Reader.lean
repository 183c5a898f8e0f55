import LintLocator.Toml.Scalar
import LintLocator.Toml.Value

/-!
# Reading TOML

A text is read line by line; a line is a pair, a header or empty, and may end in a comment.  Every
reader answers with what is left of the text, and `none` where the text is malformed.
-/

namespace LintLocator
namespace Toml

def isBlank (c : Char) : Bool := c == ' ' || c == '\t'

def skipBlanks (s : List Char) : List Char := s.dropWhile isBlank

/-- The characters that may stand in a comment and, apart from its quotes, in a string as they
are. -/
def isTextChar (c : Char) : Bool := c == '\t' || (0x20 ≤ c.toNat && c != '\x7f')

/-- Passes a line break. -/
def readBreak : List Char → Option (List Char)
  | '\n' :: r => some r
  | '\r' :: '\n' :: r => some r
  | _ => none

/-- Passes a comment, if there is one. -/
def skipComment : List Char → List Char
  | '#' :: r => r.dropWhile isTextChar
  | s => s

/-- Passes what may stand at the end of a line, and its end. -/
def readLineEnd (s : List Char) : Option (List Char) :=
  match skipComment (skipBlanks s) with
  | [] => some []
  | r => readBreak r

/-- Passes blanks, comments and line breaks between the items of an array. -/
def skipSpace : (fuel : Nat) → List Char → Option (List Char)
  | 0, s => some s
  | fuel + 1, s =>
    let r := skipBlanks s
    match r with
    | '#' :: _ => (readBreak (skipComment r)).bind (skipSpace fuel)
    | '\n' :: t => skipSpace fuel t
    | '\r' :: _ => (readBreak r).bind (skipSpace fuel)
    | _ => some r

/-! ## Strings -/

/-- The value of hexadecimal digits. -/
def codeOf? (digits : List Char) (n : Nat) : Option Char :=
  let code := numberOf 16 digits
  if digits.length = n && digits.all isHexDigit &&
      (code < 0xD800 || (0xDFFF < code && code < 0x110000)) then some (Char.ofNat code)
  else none

/-- Reads an escape behind its backslash. -/
def readEscape : List Char → Option (Char × List Char)
  | 'b' :: r => some ('\x08', r)
  | 't' :: r => some ('\t', r)
  | 'n' :: r => some ('\n', r)
  | 'f' :: r => some ('\x0c', r)
  | 'r' :: r => some ('\r', r)
  | '"' :: r => some ('"', r)
  | '\\' :: r => some ('\\', r)
  | 'u' :: r => (codeOf? (r.take 4) 4).map fun c => (c, r.drop 4)
  | 'U' :: r => (codeOf? (r.take 8) 8).map fun c => (c, r.drop 8)
  | _ => none

/-- Reads a string on one line behind its opening quote.  Escapes count only between double
quotes. -/
def readLine (quote : Char) : (fuel : Nat) → List Char → Option (List Char × List Char)
  | 0, _ => none
  | _ + 1, [] => none
  | fuel + 1, c :: r =>
    if c == quote then some ([], r)
    else if quote == '"' && c == '\\' then
      (readEscape r).bind fun p => (readLine quote fuel p.2).map fun q => (p.1 :: q.1, q.2)
    else if isTextChar c then (readLine quote fuel r).map fun q => (c :: q.1, q.2)
    else none

/-- Passes blanks and breaks. -/
def skipEmptyLines : List Char → List Char
  | '\r' :: '\n' :: r => skipEmptyLines r
  | c :: r => if isBlank c || c == '\n' then skipEmptyLines r else c :: r
  | [] => []

/-- Passes the blanks and breaks behind a backslash at the end of a line. -/
def skipEscapedBreak (s : List Char) : Option (List Char) :=
  (readBreak (skipBlanks s)).map skipEmptyLines

/-- Reads a string of several lines behind its opening quotes.  Up to two quotes may stand directly
before the three that end it. -/
def readLines (quote : Char) : (fuel : Nat) → List Char → Option (List Char × List Char)
  | 0, _ => none
  | fuel + 1, s =>
    let quotes := (s.takeWhile (· == quote)).length
    if 3 ≤ quotes then
      if quotes ≤ 5 then some (List.replicate (quotes - 3) quote, s.drop quotes)
      else some ([quote, quote], s.drop 5)
    else
      match s with
      | [] => none
      | c :: r =>
        if c == quote then (readLines quote fuel r).map fun q => (c :: q.1, q.2)
        else if quote == '"' && c == '\\' then
          match readEscape r with
          | some (d, t) => (readLines quote fuel t).map fun q => (d :: q.1, q.2)
          | none => (skipEscapedBreak r).bind (readLines quote fuel)
        else if isTextChar c then (readLines quote fuel r).map fun q => (c :: q.1, q.2)
        else (readBreak s).bind fun t => (readLines quote fuel t).map fun q => ('\n' :: q.1, q.2)

/-- Reads a string behind its first quote. -/
def readString (quote : Char) (s : List Char) : Option (String × List Char) :=
  let found :=
    match s with
    | a :: b :: r =>
      if a == quote && b == quote then readLines quote (r.length + 1) ((readBreak r).getD r)
      else readLine quote (s.length + 1) s
    | _ => readLine quote (s.length + 1) s
  found.map fun p => (String.ofList p.1, p.2)

/-! ## Keys -/

/-- The characters of keys without quotes. -/
def isKeyChar (c : Char) : Bool := c.isAlphanum || c == '_' || c == '-'

/-- Reads one part of a key. -/
def readKeyPart (s : List Char) : Option (String × List Char) :=
  match s with
  | '"' :: r => (readLine '"' (r.length + 1) r).map fun p => (String.ofList p.1, p.2)
  | '\'' :: r => (readLine '\'' (r.length + 1) r).map fun p => (String.ofList p.1, p.2)
  | _ =>
    let word := s.takeWhile isKeyChar
    if word.isEmpty then none else some (String.ofList word, s.drop word.length)

/-- Reads the parts of a key with points between them and blanks around them. -/
def readKeyParts : (fuel : Nat) → List Char → Option (List String × List Char)
  | 0, _ => none
  | fuel + 1, s =>
    match readKeyPart (skipBlanks s) with
    | none => none
    | some (part, r) =>
      match skipBlanks r with
      | '.' :: t => (readKeyParts fuel t).map fun p => (part :: p.1, p.2)
      | t => some ([part], t)

/-- How deep keys and values may be nested. -/
def maxDepth : Nat := 80

def readKey (s : List Char) : Option (List String × List Char) :=
  match readKeyParts (s.length + 1) s with
  | some (parts, r) => if parts.length < maxDepth then some (parts, r) else none
  | none => none

/-! ## Values -/

mutual

/-- Reads a value at a depth. -/
def readValue : (fuel depth : Nat) → List Char → Option (Value × List Char)
  | 0, _, _ => none
  | fuel + 1, depth, s =>
    match s with
    | '"' :: r => (readString '"' r).map fun p => (.text p.1, p.2)
    | '\'' :: r => (readString '\'' r).map fun p => (.text p.1, p.2)
    | '[' :: r =>
      if depth + 1 < maxDepth then
        (readItems fuel (depth + 1) r).map fun p => (.array p.1, p.2)
      else none
    | '{' :: r =>
      if depth + 1 < maxDepth then
        match skipBlanks r with
        | '}' :: t => some (.table .braces [], t)
        | t => readEntries fuel (depth + 1) (.table .braces []) t
      else none
    | _ =>
      let word := s.takeWhile isWordChar
      if word == "true".toList then some (.boolean true, s.drop 4)
      else if word == "false".toList then some (.boolean false, s.drop 5)
      else (readOther s).map fun r => (.other, r)

/-- Reads the items of an array and its end.  A comma may stand behind the last item. -/
def readItems : (fuel depth : Nat) → List Char → Option (List Value × List Char)
  | 0, _, _ => none
  | fuel + 1, depth, s =>
    match skipSpace (s.length + 1) s with
    | none => none
    | some (']' :: r) => some ([], r)
    | some r =>
      match readValue fuel depth r with
      | none => none
      | some (v, t) =>
        match skipSpace (t.length + 1) t with
        | some (',' :: u) => (readItems fuel depth u).map fun p => (v :: p.1, p.2)
        | some (']' :: u) => some ([v], u)
        | _ => none

/-- Reads at least one entry of a table in braces and the end of the table. -/
def readEntries : (fuel depth : Nat) → (table : Value) → List Char → Option (Value × List Char)
  | 0, _, _, _ => none
  | fuel + 1, depth, table, s =>
    match readKey s with
    | some (keys, '=' :: r) =>
      match readValue fuel depth (skipBlanks r) with
      | none => none
      | some (v, t) =>
        match table.insert keys v with
        | none => none
        | some longer =>
          match skipBlanks t with
          | ',' :: u => readEntries fuel depth longer u
          | '}' :: u => some (longer, u)
          | _ => none
    | _ => none

end

/-! ## Documents -/

/-- The table of the document so far, and the parts of the last header. -/
structure Sheet where
  table : Value
  header : List String

/-- Reads a header, behind its first bracket. -/
def readHeader (sheet : Sheet) (s : List Char) : Option (Sheet × List Char) := do
  match s with
  | '[' :: r =>
    match ← readKey r with
    | (keys, ']' :: ']' :: t) =>
      let table ← sheet.table.openElement keys
      return (⟨table, keys⟩, ← readLineEnd t)
    | _ => none
  | _ =>
    match ← readKey s with
    | (keys, ']' :: t) =>
      let table ← sheet.table.openTable keys
      return (⟨table, keys⟩, ← readLineEnd t)
    | _ => none

/-- Reads a pair, which belongs to the table of the last header. -/
def readPair (sheet : Sheet) (s : List Char) : Option (Sheet × List Char) := do
  match ← readKey s with
  | (keys, '=' :: r) =>
    let (value, t) ← readValue (2 * r.length + 2) 0 (skipBlanks r)
    let rest ← readLineEnd t
    let table ← Value.alterWithin false (fun t => t.insert keys value) sheet.header sheet.table
    return (⟨table, sheet.header⟩, rest)
  | _ => none

/-- Reads the lines of a text; each takes one unit of fuel. -/
def readSheet : (fuel : Nat) → Sheet → List Char → Option Value
  | 0, _, _ => none
  | fuel + 1, sheet, s =>
    match skipBlanks s with
    | [] => some sheet.table
    | '#' :: r => (readLineEnd ('#' :: r)).bind (readSheet fuel sheet)
    | '\n' :: r => readSheet fuel sheet r
    | '\r' :: r => (readBreak ('\r' :: r)).bind (readSheet fuel sheet)
    | '[' :: r => (readHeader sheet r).bind fun p => readSheet fuel p.1 p.2
    | r => (readPair sheet r).bind fun p => readSheet fuel p.1 p.2

/-- The table that a text stands for.  A byte order mark may stand before it. -/
def read? (source : List Char) : Option Value :=
  let text :=
    match source with
    | '\ufeff' :: r => r
    | s => s
  readSheet (text.length + 1) ⟨.empty, []⟩ text

end Toml
end LintLocator
