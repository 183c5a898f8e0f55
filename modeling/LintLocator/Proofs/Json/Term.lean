import LintLocator.Json.Token
import LintLocator.Tree
import LintLocator.Yaml.Layout

/-!
# JSON texts and what they say

A `Term` is a JSON value as it is written, with every blank, every escape and every digit, so that
`Term.text` ranges over all texts of the grammar.  The proofs that parts of a text are as the
grammar wants them are carried by the terms: there are no ill-formed terms.

What a term says is a `Datum`, a document without positions: objects are mappings, arrays are
sequences, and everything else is a scalar, a string with its escapes decoded and the rest as
written.  A string says nothing if a half of a surrogate pair stands alone in it (`Term.datum?`).

`Term.Readable` tells the terms that can also be read as YAML.  Three things keep a term from that:
collections that are nested too deep, an escape for a half of a surrogate pair, and a literal that
only tabs separate from the `:` before it.
-/

namespace LintLocator

/-! ## Documents without positions -/

/-- What a document says, wherever it stands. -/
inductive Datum where
  | scalar (text : String)
  | sequence (items : List Datum)
  | mapping (entries : List (Datum × Datum))

namespace Tree

mutual

/-- What a tree says. -/
def datum : Tree → Datum
  | .scalar text _ => .scalar text
  | .sequence items _ => .sequence (dataOf items)
  | .mapping entries _ => .mapping (pairsOf entries)

/-- What the items of a sequence say. -/
def dataOf : List Tree → List Datum
  | [] => []
  | t :: ts => t.datum :: dataOf ts

/-- What the entries of a mapping say. -/
def pairsOf : List (Tree × Tree) → List (Datum × Datum)
  | [] => []
  | (key, value) :: es => (key.datum, value.datum) :: pairsOf es

end

end Tree

namespace Json

/-! ## Parts of a text -/

/-- Blanks around the parts of a text. -/
structure Blanks where
  chars : List Char
  blank : ∀ c ∈ chars, isBlank c = true

/-- The first half of a surrogate pair, or the second. -/
def isSurrogate (n : Nat) : Bool := 0xD800 ≤ n && n < 0xE000

/-- A part of a string. -/
inductive Piece where
  /-- A character that stands for itself. -/
  | plain (c : Char) (h : ' ' ≤ c ∧ c ≠ '"' ∧ c ≠ '\\')
  /-- An escape of one letter. -/
  | short (letter c : Char) (h : shortEscape? letter = some c)
  /-- An escape of four digits. -/
  | code (digits : List Char) (n : Nat) (hlength : digits.length = 4)
      (hvalue : hexValue? 0 (digits.map some) = some n)

namespace Piece

def text : Piece → List Char
  | .plain c _ => [c]
  | .short letter _ _ => ['\\', letter]
  | .code digits _ _ _ => '\\' :: 'u' :: digits

def atom : Piece → Atom
  | .plain c _ => .char c
  | .short _ c _ => .char c
  | .code _ n _ _ => .unit n

/-- The character that a part stands for by itself. -/
def char? : Piece → Option Char
  | .plain c _ => some c
  | .short _ c _ => some c
  | .code _ n _ _ => if isSurrogate n then none else some (Char.ofNat n)

def isSpace (p : Piece) : Bool := p.text == [' ']

theorem length_text_pos (p : Piece) : 0 < p.text.length := by
  cases p with
  | plain => exact Nat.one_pos
  | short => exact Nat.succ_pos 1
  | code => exact Nat.succ_pos _

/-- A space stands for itself. -/
theorem eq_of_isSpace {p : Piece} (h : p.isSpace = true) :
    p.text = [' '] ∧ p.char? = some ' ' := by
  have htext : p.text = [' '] := by simpa [isSpace] using h
  refine ⟨htext, ?_⟩
  cases p with
  | plain c _ =>
    obtain rfl : c = ' ' := by simpa [text] using htext
    rfl
  | short => exact absurd htext (by simp [text])
  | code => exact absurd htext (by simp [text])

end Piece

/-- The text between the quotes of a string. -/
def stringText (ps : List Piece) : List Char := ps.flatMap Piece.text

/-- The text of a string with its quotes. -/
def quoted (ps : List Piece) : List Char := '"' :: (stringText ps ++ ['"'])

/-- What a string says, where two halves of a surrogate pair make one character. -/
def decoded? (ps : List Piece) : Option (List Char) := textOf? (ps.map Piece.atom)

/-- Whether every part of a string stands for a character by itself. -/
def IsPlainText (ps : List Piece) : Prop := ∀ p ∈ ps, p.char?.isSome = true

/-- The characters that the parts of a string stand for by themselves. -/
def plainText (ps : List Piece) : List Char := ps.filterMap Piece.char?

theorem stringText_cons (p : Piece) (ps : List Piece) :
    stringText (p :: ps) = p.text ++ stringText ps := List.flatMap_cons

theorem length_le_length_stringText (ps : List Piece) : ps.length ≤ (stringText ps).length := by
  induction ps with
  | nil => exact Nat.le_refl 0
  | cons p ps ih =>
    have hpos := p.length_text_pos
    rw [stringText_cons, List.length_append, List.length_cons]
    omega

theorem isPlainText_nil : IsPlainText [] := by
  intro p hp
  simp at hp

theorem isPlainText_cons {p : Piece} {ps : List Piece} :
    IsPlainText (p :: ps) ↔ p.char?.isSome = true ∧ IsPlainText ps := List.forall_mem_cons

theorem isPlainText_append {ps qs : List Piece} :
    IsPlainText (ps ++ qs) ↔ IsPlainText ps ∧ IsPlainText qs := List.forall_mem_append

theorem plainText_cons {p : Piece} {c : Char} (h : p.char? = some c) (ps : List Piece) :
    plainText (p :: ps) = c :: plainText ps := List.filterMap_cons_some h

theorem plainText_append (ps qs : List Piece) :
    plainText (ps ++ qs) = plainText ps ++ plainText qs := List.filterMap_append

/-- At least one digit. -/
def IsDigits (s : List Char) : Prop := s ≠ [] ∧ ∀ c ∈ s, c.isDigit = true

/-- Digits before the point, of which only a single one may be a zero at the start. -/
def IsWhole (s : List Char) : Prop := s = ['0'] ∨ IsDigits s ∧ s.head? ≠ some '0'

/-- The digits before the point start with one. -/
theorem IsWhole.exists_digit {s : List Char} (h : IsWhole s) :
    ∃ d left, s = d :: left ∧ d.isDigit = true ∧ ∀ c ∈ left, c.isDigit = true := by
  rcases h with rfl | ⟨⟨hne, hdigits⟩, -⟩
  · exact ⟨'0', [], rfl, rfl, by simp⟩
  · obtain ⟨d, left, rfl⟩ := List.exists_cons_of_ne_nil hne
    exact ⟨d, left, rfl, hdigits d List.mem_cons_self,
      fun c hc => hdigits c (List.mem_cons_of_mem _ hc)⟩

def IsFraction (s : List Char) : Prop := s = [] ∨ ∃ digits, IsDigits digits ∧ s = '.' :: digits

def IsExponent (s : List Char) : Prop :=
  s = [] ∨ ∃ mark sign digits, (mark = 'e' ∨ mark = 'E') ∧
    (sign = [] ∨ sign = ['+'] ∨ sign = ['-']) ∧ IsDigits digits ∧ s = mark :: (sign ++ digits)

/-- A number as it may be written. -/
def IsNumber (s : List Char) : Prop :=
  ∃ sign whole fraction exponent, (sign = [] ∨ sign = ['-']) ∧ IsWhole whole ∧
    IsFraction fraction ∧ IsExponent exponent ∧ s = sign ++ (whole ++ (fraction ++ exponent))

/-- A number or one of the three words. -/
def IsLiteral (s : List Char) : Prop :=
  s = ['t', 'r', 'u', 'e'] ∨ s = ['f', 'a', 'l', 's', 'e'] ∨ s = ['n', 'u', 'l', 'l'] ∨ IsNumber s

/-! ## Terms -/

/-- The name of a member, with the blanks around it and around the `:` behind it. -/
structure Name where
  before : Blanks
  pieces : List Piece
  after : Blanks
  /-- The blanks between the `:` and the value. -/
  behind : Blanks

def Name.text (n : Name) : List Char :=
  n.before.chars ++ (quoted n.pieces ++ (n.after.chars ++ ':' :: n.behind.chars))

mutual

/-- A value as it is written. -/
inductive Term where
  | literal (text : List Char) (h : IsLiteral text)
  | string (pieces : List Piece)
  | emptyArray (gap : Blanks)
  | array (items : Items)
  | emptyObject (gap : Blanks)
  | object (members : Members)

/-- The items of an array that is not empty. -/
inductive Items where
  | last (before : Blanks) (item : Term) (after : Blanks)
  | more (before : Blanks) (item : Term) (after : Blanks) (others : Items)

/-- The members of an object that is not empty. -/
inductive Members where
  | last (name : Name) (value : Term) (after : Blanks)
  | more (name : Name) (value : Term) (after : Blanks) (others : Members)

end

mutual

/-- The text of a value. -/
def Term.text : Term → List Char
  | .literal text _ => text
  | .string ps => quoted ps
  | .emptyArray gap => '[' :: (gap.chars ++ [']'])
  | .array items => '[' :: (items.text ++ [']'])
  | .emptyObject gap => '{' :: (gap.chars ++ ['}'])
  | .object members => '{' :: (members.text ++ ['}'])

/-- The text between the brackets of an array. -/
def Items.text : Items → List Char
  | .last before item after => before.chars ++ (item.text ++ after.chars)
  | .more before item after others =>
    before.chars ++ (item.text ++ (after.chars ++ ',' :: others.text))

/-- The text between the braces of an object. -/
def Members.text : Members → List Char
  | .last name value after => name.text ++ (value.text ++ after.chars)
  | .more name value after others =>
    name.text ++ (value.text ++ (after.chars ++ ',' :: others.text))

end

mutual

/-- What a value says. -/
def Term.datum? : Term → Option Datum
  | .literal text _ => some (.scalar (String.ofList text))
  | .string ps => (decoded? ps).map fun s => .scalar (String.ofList s)
  | .emptyArray _ => some (.sequence [])
  | .array items => items.data?.map .sequence
  | .emptyObject _ => some (.mapping [])
  | .object members => members.pairs?.map .mapping

/-- What the items of an array say, in their order. -/
def Items.data? : Items → Option (List Datum)
  | .last _ item _ => item.datum?.map fun d => [d]
  | .more _ item _ others => item.datum?.bind fun d => others.data?.map fun ds => d :: ds

/-- What the members of an object say, in their order. -/
def Members.pairs? : Members → Option (List (Datum × Datum))
  | .last name value _ =>
    (decoded? name.pieces).bind fun s =>
      value.datum?.map fun d => [(.scalar (String.ofList s), d)]
  | .more name value _ others =>
    (decoded? name.pieces).bind fun s => value.datum?.bind fun d =>
      others.pairs?.map fun ps => (.scalar (String.ofList s), d) :: ps

end

/-! ## Terms that can be read as YAML -/

/-- A literal. -/
def Term.IsWord : Term → Prop
  | .literal .. => True
  | _ => False

/-- Whether only tabs separate a literal from what stands before it. -/
def Term.IsTabbed (gap : Blanks) (t : Term) : Prop :=
  t.IsWord ∧ gap.chars ≠ [] ∧ ∀ c ∈ gap.chars, c = '\t'

mutual

/-- Whether a value inside of `depth` collections can be read as YAML. -/
def Term.ReadableAt : (depth : Nat) → Term → Prop
  | _, .literal .. => True
  | _, .string ps => IsPlainText ps
  | depth, .emptyArray _ => depth < Yaml.Layout.maxDepth
  | depth, .array items => depth < Yaml.Layout.maxDepth ∧ items.ReadableAt (depth + 1)
  | depth, .emptyObject _ => depth < Yaml.Layout.maxDepth
  | depth, .object members => depth < Yaml.Layout.maxDepth ∧ members.ReadableAt (depth + 1)

def Items.ReadableAt : (depth : Nat) → Items → Prop
  | depth, .last _ item _ => item.ReadableAt depth
  | depth, .more _ item _ others => item.ReadableAt depth ∧ others.ReadableAt depth

def Members.ReadableAt : (depth : Nat) → Members → Prop
  | depth, .last name value _ =>
    IsPlainText name.pieces ∧ ¬ value.IsTabbed name.behind ∧ value.ReadableAt depth
  | depth, .more name value _ others =>
    IsPlainText name.pieces ∧ ¬ value.IsTabbed name.behind ∧ value.ReadableAt depth ∧
      others.ReadableAt depth

end

/-- Whether a value can be read as YAML. -/
def Term.Readable (t : Term) : Prop := t.ReadableAt 0

def Term.IsObject : Term → Prop
  | .emptyObject _ => True
  | .object _ => True
  | _ => False

end Json
end LintLocator
