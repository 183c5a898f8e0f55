import LintLocator.Text.Utf8

/-!
# Tokens of JSON

A JSON text is cut into tokens here, and blanks between them are dropped.  The input is a list of
pieces in the sense of `Utf8`: only strings may hold ill-formed pieces, and a string that does has
no text.  Nor has one with an escaped surrogate that has no partner.  Such strings are not an
error as long as nobody asks for their text.

What number a number stands for is not kept, since linters report texts only.
-/

namespace LintLocator
namespace Json

inductive Token where
  | openArray
  | closeArray
  | openObject
  | closeObject
  | comma
  | colon
  | null
  | boolean (b : Bool)
  | number
  | string (text : Option String)
  deriving DecidableEq, Repr, Inhabited

/-- A text in pieces; `none` stands for something ill-formed. -/
abbrev Pieces := List (Option Char)

/-- The blanks of JSON. -/
def isBlank (c : Char) : Bool := c == ' ' || c == '\t' || c == '\n' || c == '\r'

/-! ## Strings -/

/-- What a string is made of. -/
inductive Atom where
  | char (c : Char)
  /-- The number in an escape with four digits. -/
  | unit (n : Nat)
  | illFormed
  deriving DecidableEq, Repr, Inhabited

/-- The text of atoms.  Two escapes that stand for a high and a low surrogate make one
character. -/
def textOf? : List Atom → Option (List Char)
  | [] => some []
  | .illFormed :: _ => none
  | .char c :: r => (textOf? r).map (c :: ·)
  | .unit n :: r =>
    if 0xD800 ≤ n && n < 0xDC00 then
      match r with
      | .unit m :: s =>
        if 0xDC00 ≤ m && m < 0xE000 then
          (textOf? s).map (Char.ofNat (0x10000 + (n - 0xD800) * 0x400 + (m - 0xDC00)) :: ·)
        else none
      | _ => none
    else if 0xDC00 ≤ n && n < 0xE000 then none
    else (textOf? r).map (Char.ofNat n :: ·)

/-- The value of a hexadecimal digit. -/
def hexDigit? (c : Char) : Option Nat :=
  if '0' ≤ c && c ≤ '9' then some (c.toNat - '0'.toNat)
  else if 'a' ≤ c && c ≤ 'f' then some (c.toNat - 'a'.toNat + 10)
  else if 'A' ≤ c && c ≤ 'F' then some (c.toNat - 'A'.toNat + 10)
  else none

/-- The value of hexadecimal digits that follow digits of value `acc`. -/
def hexValue? (acc : Nat) : Pieces → Option Nat
  | [] => some acc
  | none :: _ => none
  | some c :: r => (hexDigit? c).bind fun d => hexValue? (acc * 16 + d) r

/-- The character that a short escape stands for. -/
def shortEscape? : Char → Option Char
  | '"' => some '"'
  | '\\' => some '\\'
  | '/' => some '/'
  | 'b' => some '\x08'
  | 'f' => some '\x0c'
  | 'n' => some '\n'
  | 'r' => some '\r'
  | 't' => some '\t'
  | _ => none

/-- Reads a string whose opening quote has been read, up to its closing quote, and returns its
atoms and what comes after it.  A control character cannot stand in a string. -/
def stringTail? : Pieces → Option (List Atom × Pieces)
  | [] => none
  | some '"' :: r => some ([], r)
  | some '\\' :: some 'u' :: a :: b :: c :: d :: r =>
    (hexValue? 0 [a, b, c, d]).bind fun n => (stringTail? r).map fun p => (.unit n :: p.1, p.2)
  | some '\\' :: some e :: r =>
    (shortEscape? e).bind fun c => (stringTail? r).map fun p => (.char c :: p.1, p.2)
  | some c :: r =>
    if c < ' ' || c == '\\' then none
    else (stringTail? r).map fun p => (.char c :: p.1, p.2)
  | none :: r => (stringTail? r).map fun p => (.illFormed :: p.1, p.2)

/-! ## Numbers -/

def isDigit : Option Char → Bool
  | some c => c.isDigit
  | none => false

/-- Skips at least one digit. -/
def digits? : Pieces → Option Pieces
  | [] => none
  | p :: r => if isDigit p then some (r.dropWhile isDigit) else none

/-- Skips the digits before the point.  A leading zero stands alone. -/
def whole? : Pieces → Option Pieces
  | some '0' :: r => some r
  | r => digits? r

/-- Skips a point and the digits behind it, if there is a point. -/
def fraction? : Pieces → Option Pieces
  | some '.' :: r => digits? r
  | r => some r

/-- Skips the digits of an exponent and the sign before them. -/
def exponentDigits? : Pieces → Option Pieces
  | some '+' :: r => digits? r
  | some '-' :: r => digits? r
  | r => digits? r

/-- Skips an exponent, if there is one. -/
def exponent? : Pieces → Option Pieces
  | some 'e' :: r => exponentDigits? r
  | some 'E' :: r => exponentDigits? r
  | r => some r

/-- Skips a number that has no sign. -/
def unsigned? (r : Pieces) : Option Pieces := ((whole? r).bind fraction?).bind exponent?

/-! ## Tokens -/

/-- Skips the rest of a word. -/
def word? : List Char → Pieces → Option Pieces
  | [], r => some r
  | _ :: _, [] => none
  | c :: cs, p :: r => if p == some c then word? cs r else none

/-- The token that starts with `c`, and what comes after it. -/
def tokenAt? (c : Char) (r : Pieces) : Option (Token × Pieces) :=
  match c with
  | '[' => some (.openArray, r)
  | ']' => some (.closeArray, r)
  | '{' => some (.openObject, r)
  | '}' => some (.closeObject, r)
  | ',' => some (.comma, r)
  | ':' => some (.colon, r)
  | 'n' => (word? "ull".toList r).map fun s => (.null, s)
  | 't' => (word? "rue".toList r).map fun s => (.boolean true, s)
  | 'f' => (word? "alse".toList r).map fun s => (.boolean false, s)
  | '"' => (stringTail? r).map fun p => (.string ((textOf? p.1).map String.ofList), p.2)
  | '-' => (unsigned? r).map fun s => (.number, s)
  | _ => (unsigned? (some c :: r)).map fun s => (.number, s)

/-- The tokens of a text; every token and every blank takes one unit of fuel. -/
def tokensWithin? : (fuel : Nat) → Pieces → Option (List Token)
  | _, [] => some []
  | 0, _ :: _ => none
  | _ + 1, none :: _ => none
  | fuel + 1, some c :: r =>
    if isBlank c then tokensWithin? fuel r
    else (tokenAt? c r).bind fun p => (tokensWithin? fuel p.2).map (p.1 :: ·)

theorem tokensWithin?_nil (fuel : Nat) : tokensWithin? fuel [] = some [] := by
  cases fuel <;> rfl

theorem tokensWithin?_succ_cons (fuel : Nat) (c : Char) (r : Pieces) :
    tokensWithin? (fuel + 1) (some c :: r) =
      if isBlank c then tokensWithin? fuel r
      else (tokenAt? c r).bind fun p => (tokensWithin? fuel p.2).map (p.1 :: ·) := rfl

/-- The tokens of a text. -/
def tokens? (text : Pieces) : Option (List Token) := tokensWithin? text.length text

end Json
end LintLocator
