import LintLocator.Proofs.Json.Term

/-!
# What readable terms say

In a term that can be read as YAML every part of a string stands for a character by itself.  Then
the strings need no decoding beyond their parts, and nothing is left that could fail.
-/

namespace LintLocator

namespace Json

mutual

/-- What a value says if every part of its strings stands for a character by itself. -/
def Term.plainDatum : Term → Datum
  | .literal text _ => .scalar (String.ofList text)
  | .string ps => .scalar (String.ofList (plainText ps))
  | .emptyArray _ => .sequence []
  | .array items => .sequence items.plainData
  | .emptyObject _ => .mapping []
  | .object members => .mapping members.plainPairs

def Items.plainData : Items → List Datum
  | .last _ item _ => [item.plainDatum]
  | .more _ item _ others => item.plainDatum :: others.plainData

def Members.plainPairs : Members → List (Datum × Datum)
  | .last name value _ => [(.scalar (String.ofList (plainText name.pieces)), value.plainDatum)]
  | .more name value _ others =>
    (.scalar (String.ofList (plainText name.pieces)), value.plainDatum) :: others.plainPairs

end

/-- An escape for a character that is no half of a surrogate pair stands for itself. -/
theorem textOf?_unit {n : Nat} (h : isSurrogate n = false) (r : List Atom) :
    textOf? (.unit n :: r) = (textOf? r).map (Char.ofNat n :: ·) := by
  have hout : ¬ (0xD800 ≤ n ∧ n < 0xE000) := by simpa [isSurrogate] using h
  have hlow : (decide (0xD800 ≤ n) && decide (n < 0xDC00)) = false := by
    simp only [Bool.and_eq_false_iff, decide_eq_false_iff_not]
    omega
  have hhigh : (decide (0xDC00 ≤ n) && decide (n < 0xE000)) = false := by
    simp only [Bool.and_eq_false_iff, decide_eq_false_iff_not]
    omega
  rw [textOf?.eq_def]
  simp only [hlow, hhigh, Bool.false_eq_true, if_false]

/-- Where every part of a string stands for a character, they are what the string says. -/
theorem decoded?_of_isPlainText {ps : List Piece} (h : IsPlainText ps) :
    decoded? ps = some (plainText ps) := by
  induction ps with
  | nil => rfl
  | cons p ps ih =>
    obtain ⟨hp, hps⟩ := isPlainText_cons.mp h
    have ih := ih hps
    rw [decoded?] at ih
    rw [decoded?, List.map_cons]
    cases p with
    | plain c hc =>
      rw [Piece.atom, textOf?, ih]
      rfl
    | short letter c hc =>
      rw [Piece.atom, textOf?, ih]
      rfl
    | code digits n hlength hvalue =>
      have hn : isSurrogate n = false := by
        rw [Bool.eq_false_iff]
        intro hn
        rw [Piece.char?, if_pos hn] at hp
        exact absurd hp (by simp)
      have hchar : (Piece.code digits n hlength hvalue).char? = some (Char.ofNat n) := by
        rw [Piece.char?, hn]
        rfl
      rw [Piece.atom, textOf?_unit hn, ih, plainText_cons hchar]
      rfl

mutual

/-- **What can be read as YAML says what its parts stand for.** -/
theorem Term.datum?_of_readableAt (t : Term) {depth : Nat} (h : t.ReadableAt depth) :
    t.datum? = some t.plainDatum := by
  cases t with
  | literal text htext => rfl
  | string ps =>
    rw [Term.datum?, decoded?_of_isPlainText h]
    rfl
  | emptyArray gap => rfl
  | array items =>
    rw [Term.datum?, items.data?_of_readableAt h.2]
    rfl
  | emptyObject gap => rfl
  | object members =>
    rw [Term.datum?, members.pairs?_of_readableAt h.2]
    rfl

theorem Items.data?_of_readableAt (items : Items) {depth : Nat} (h : items.ReadableAt depth) :
    items.data? = some items.plainData := by
  cases items with
  | last before item after =>
    rw [Items.data?, item.datum?_of_readableAt h]
    rfl
  | more before item after others =>
    rw [Items.data?, item.datum?_of_readableAt h.1, others.data?_of_readableAt h.2]
    rfl

theorem Members.pairs?_of_readableAt (members : Members) {depth : Nat}
    (h : members.ReadableAt depth) : members.pairs? = some members.plainPairs := by
  cases members with
  | last name value after =>
    rw [Members.pairs?, decoded?_of_isPlainText h.1, value.datum?_of_readableAt h.2.2]
    rfl
  | more name value after others =>
    rw [Members.pairs?, decoded?_of_isPlainText h.1, value.datum?_of_readableAt h.2.2.1,
      others.pairs?_of_readableAt h.2.2.2]
    rfl

end

end Json
end LintLocator
