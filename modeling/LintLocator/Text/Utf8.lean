/-!
# Text in UTF-8

Bytes are cut into pieces, each of which is either a character or *ill-formed*: as many bytes as
still look like the start of a character, and at least one.  A byte that ends an ill-formed piece
is looked at again as the start of the next one, so an ASCII character is never lost in one.

A text is well-formed when all its pieces are characters; a text that is only to be shown has a
replacement character in the place of each ill-formed piece.
-/

namespace LintLocator
namespace Utf8

/-- A character of which some bytes are still to come. -/
structure Pending where
  /-- How many bytes are to come after the next one. -/
  later : Nat
  /-- The next byte lies between `low` and `high`; this is what rules out overlong forms,
  surrogates, and numbers beyond the last character. -/
  low : Nat
  high : Nat
  /-- The number that the bytes so far stand for. -/
  value : Nat

/-- What a byte means where a character starts: the character, or the wait for more bytes.
There is no answer for a byte that no character starts with. -/
def start? (b : Nat) : Option (Char ⊕ Pending) :=
  if b < 0x80 then some (.inl (Char.ofNat b))
  else if b < 0xC2 then none
  else if b < 0xE0 then some (.inr ⟨0, 0x80, 0xBF, b - 0xC0⟩)
  else if b = 0xE0 then some (.inr ⟨1, 0xA0, 0xBF, 0⟩)
  else if b = 0xED then some (.inr ⟨1, 0x80, 0x9F, 0xD⟩)
  else if b < 0xF0 then some (.inr ⟨1, 0x80, 0xBF, b - 0xE0⟩)
  else if b = 0xF0 then some (.inr ⟨2, 0x90, 0xBF, 0⟩)
  else if b < 0xF4 then some (.inr ⟨2, 0x80, 0xBF, b - 0xF0⟩)
  else if b = 0xF4 then some (.inr ⟨2, 0x80, 0x8F, 4⟩)
  else none

/-- What a byte means for a character that waits for it; no answer if it does not belong there. -/
def Pending.continue? (p : Pending) (b : Nat) : Option (Char ⊕ Pending) :=
  if p.low ≤ b && b ≤ p.high then
    let value := p.value * 64 + (b - 0x80)
    match p.later with
    | 0 => some (.inl (Char.ofNat value))
    | n + 1 => some (.inr ⟨n, 0x80, 0xBF, value⟩)
  else none

/-- The pieces of a text, where a character may have begun already. -/
def piecesFrom : Option Pending → List UInt8 → List (Option Char)
  | none, [] => []
  | some _, [] => [none]
  | pending, b :: bs =>
    match pending.bind fun p => p.continue? b.toNat with
    | some (.inl c) => some c :: piecesFrom none bs
    | some (.inr p) => piecesFrom (some p) bs
    | none =>
      let rest :=
        match start? b.toNat with
        | some (.inl c) => some c :: piecesFrom none bs
        | some (.inr p) => piecesFrom (some p) bs
        | none => none :: piecesFrom none bs
      if pending.isSome then none :: rest else rest

theorem piecesFrom_none_cons (b : UInt8) (bs : List UInt8) :
    piecesFrom none (b :: bs) =
      match start? b.toNat with
      | some (.inl c) => some c :: piecesFrom none bs
      | some (.inr p) => piecesFrom (some p) bs
      | none => none :: piecesFrom none bs := rfl

/-- What has begun is ill-formed if the byte does not belong there, and then the byte is looked at
again. -/
theorem piecesFrom_some_cons (p : Pending) (b : UInt8) (bs : List UInt8) :
    piecesFrom (some p) (b :: bs) =
      match p.continue? b.toNat with
      | some (.inl c) => some c :: piecesFrom none bs
      | some (.inr q) => piecesFrom (some q) bs
      | none => none :: piecesFrom none (b :: bs) := rfl

/-- The pieces of a text: its characters, and `none` for whatever is ill-formed. -/
def pieces (bytes : List UInt8) : List (Option Char) := piecesFrom none bytes

/-- The characters of pieces none of which is ill-formed. -/
def characters? : List (Option Char) → Option (List Char)
  | [] => some []
  | none :: _ => none
  | some c :: r => (characters? r).map (c :: ·)

/-- The text, if it is well-formed. -/
def decode? (bytes : List UInt8) : Option String := (characters? (pieces bytes)).map String.ofList

/-- The text for people to look at. -/
def decodeShown (bytes : List UInt8) : String :=
  String.ofList ((pieces bytes).map fun p => p.getD (Char.ofNat 0xFFFD))

@[simp] theorem pieces_nil : pieces [] = [] := rfl

end Utf8
end LintLocator
