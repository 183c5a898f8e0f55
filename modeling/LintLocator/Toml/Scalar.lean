/-!
# Numbers and dates in TOML

A number or a date is a word without blanks, except that a blank may separate a date from a time.
What it stands for is of no interest here, but a word that is not well-formed makes the text
malformed, and so does a number that is too large for its kind.
-/

namespace LintLocator
namespace Toml

/-- The characters of the words that stand for numbers, dates, times, and truth values. -/
def isWordChar (c : Char) : Bool :=
  c.isAlphanum || c == '+' || c == '-' || c == '_' || c == '.' || c == ':'

/-! ## Numbers -/

/-- Digits without the underscores between them. -/
def ungroup? (isDigit : Char → Bool) : List Char → Option (List Char)
  | [] => none
  | [c] => if isDigit c then some [c] else none
  | c :: '_' :: r => if isDigit c then (ungroup? isDigit r).map (c :: ·) else none
  | c :: r => if isDigit c then (ungroup? isDigit r).map (c :: ·) else none

/-- The value of a digit in any of the bases. -/
def digitValue (c : Char) : Nat :=
  if c.isDigit then c.toNat - '0'.toNat
  else if c.isUpper then c.toNat - 'A'.toNat + 10
  else c.toNat - 'a'.toNat + 10

def numberOf (base : Nat) (digits : List Char) : Nat :=
  digits.foldl (fun n c => n * base + digitValue c) 0

def isHexDigit (c : Char) : Bool := c.isDigit || ('a' ≤ c && c ≤ 'f') || ('A' ≤ c && c ≤ 'F')

/-- How far whole numbers go: positive ones stay below this, and negative ones go down to it. -/
def integerBound : Nat := 9223372036854775808

/-- Whether digits make a whole number in a base that is not too large. -/
def isBased (base : Nat) (isDigit : Char → Bool) (s : List Char) : Bool :=
  match ungroup? isDigit s with
  | some digits => numberOf base digits < integerBound
  | none => false

/-- The digits of a whole number in decimal, which has no leading zeros. -/
def whole? (s : List Char) : Option (List Char) :=
  match ungroup? Char.isDigit s with
  | some ('0' :: _ :: _) => none
  | digits => digits

/-- A number without its sign, and whether the sign was a minus. -/
def splitSign : List Char → Bool × List Char
  | '+' :: r => (false, r)
  | '-' :: r => (true, r)
  | s => (false, s)

def isDecimal (s : List Char) : Bool :=
  let (negative, r) := splitSign s
  match whole? r with
  | some digits => numberOf 10 digits < integerBound + (if negative then 1 else 0)
  | none => false

def isInteger : List Char → Bool
  | '0' :: 'x' :: r => isBased 16 isHexDigit r
  | '0' :: 'o' :: r => isBased 8 (fun c => '0' ≤ c && c ≤ '7') r
  | '0' :: 'b' :: r => isBased 2 (fun c => c == '0' || c == '1') r
  | s => isDecimal s

/-- Whether a number is too large for a float, that is, nearer to `2 ^ 1024` than to any smaller
float.  The number has the given digits, and its point is moved by `shift` places to the right. -/
def isHuge (digits : List Char) (shift : Int) : Bool :=
  let n := numberOf 10 digits
  let places : Int := (digits.dropWhile (· == '0')).length + shift
  if n = 0 || places ≤ 308 then false
  else if 310 ≤ places then true
  else
    Nat.pow 2 970 * (Nat.pow 2 54 - 1) * Nat.pow 10 (-shift).toNat ≤ n * Nat.pow 10 shift.toNat

/-- What stands before an `e`, and what stands behind it. -/
def splitExponent (s : List Char) : List Char × Option (List Char) :=
  let mantissa := s.takeWhile fun c => c != 'e' && c != 'E'
  match s.drop mantissa.length with
  | [] => (mantissa, none)
  | _ :: exponent => (mantissa, some exponent)

/-- The value of an exponent; without one it is 0. -/
def exponent? : Option (List Char) → Option Int
  | none => some 0
  | some s =>
    let (negative, r) := splitSign s
    (ungroup? Char.isDigit r).map fun digits =>
      if negative then -(numberOf 10 digits : Int) else numberOf 10 digits

/-- The digits before and behind a point, which may be missing. -/
def mantissa? (s : List Char) : Option (List Char × List Char) :=
  let before := s.takeWhile (· != '.')
  match whole? before, s.drop before.length with
  | some digits, [] => some (digits, [])
  | some digits, _ :: behind => (ungroup? Char.isDigit behind).map fun f => (digits, f)
  | none, _ => none

/-- A float has a point or an exponent, or one of two names. -/
def isFloat (s : List Char) : Bool :=
  let (negative, r) := splitSign s
  let (mantissa, exponent) := splitExponent r
  if r == "inf".toList || r == "nan".toList then true
  else if exponent.isNone && !mantissa.contains '.' then false
  else
    match mantissa? mantissa, exponent? exponent with
    | some (digits, fraction), some e =>
      negative || !isHuge (digits ++ fraction) (e - fraction.length)
    | _, _ => false

/-! ## Dates and times -/

/-- Reads `n` digits. -/
def readDigits (n : Nat) (s : List Char) : Option (Nat × List Char) :=
  let digits := s.take n
  if digits.length = n && digits.all Char.isDigit then some (numberOf 10 digits, s.drop n) else none

def isLeap (year : Nat) : Bool := year % 4 == 0 && (year % 100 != 0 || year % 400 == 0)

def daysIn (year month : Nat) : Nat :=
  if month == 2 then (if isLeap year then 29 else 28)
  else if month == 4 || month == 6 || month == 9 || month == 11 then 30
  else 31

/-- Reads a separator. -/
def readChar (c : Char) : List Char → Option (List Char)
  | d :: r => if c == d then some r else none
  | [] => none

/-- Reads a date of the calendar. -/
def readDate (s : List Char) : Option (List Char) := do
  let (year, r) ← readDigits 4 s
  let (month, t) ← readDigits 2 (← readChar '-' r)
  let (day, u) ← readDigits 2 (← readChar '-' t)
  if 1 ≤ month && month ≤ 12 && 1 ≤ day && day ≤ daysIn year month then some u else none

/-- Reads a time of the day with seconds, which may have a fraction. -/
def readTime (s : List Char) : Option (List Char) := do
  let (hour, r) ← readDigits 2 s
  let (minute, t) ← readDigits 2 (← readChar ':' r)
  let (second, u) ← readDigits 2 (← readChar ':' t)
  if hour ≤ 23 && minute ≤ 59 && second ≤ 60 then
    match u with
    | '.' :: v =>
      if (v.takeWhile Char.isDigit).isEmpty then none else some (v.dropWhile Char.isDigit)
    | _ => some u
  else none

/-- Reads a distance from universal time. -/
def readOffset : List Char → Option (List Char)
  | 'Z' :: r => some r
  | 'z' :: r => some r
  | c :: r => do
    if c != '+' && c != '-' then none
    else
      let (hour, t) ← readDigits 2 r
      let (minute, u) ← readDigits 2 (← readChar ':' t)
      if hour ≤ 23 && minute ≤ 59 then some u else none
  | [] => none

/-- Whether a word is a time that may follow a date. -/
def isClock (s : List Char) : Bool :=
  match readTime s with
  | some [] => true
  | some r => readOffset r == some []
  | none => false

/-- Whether a word is a date without a time. -/
def isDay (s : List Char) : Bool := readDate s == some []

def isDateTime (s : List Char) : Bool :=
  match readDate s with
  | some [] => true
  | some ('T' :: r) => isClock r
  | some ('t' :: r) => isClock r
  | some _ => false
  | none => readTime s == some []

/-- Reads a number or a date. -/
def readOther (s : List Char) : Option (List Char) :=
  let word := s.takeWhile isWordChar
  let rest := s.drop word.length
  if isDay word then
    match rest with
    | ' ' :: r =>
      let clock := r.takeWhile isWordChar
      if isClock clock then some (r.drop clock.length) else some rest
    | _ => some rest
  else if isDateTime word || isFloat word || isInteger word then some rest
  else none

end Toml
end LintLocator
