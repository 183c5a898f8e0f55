import LintLocator.Json.Value
import LintLocator.Proofs.Json.Tokens
import LintLocator.Proofs.Text.Encoding

/-!
# The value of a term

`Term.value` is what a term stands for where its members and items are looked at one by one.  It is
what is read in the bytes of its text: the tokens of a value are taken from the front of the tokens
that are there, and two units of fuel for each of them are enough.
-/

namespace LintLocator

namespace Json

/-- The value of a literal. -/
def literalValue : List Char → Value
  | ['t', 'r', 'u', 'e'] => .boolean true
  | ['f', 'a', 'l', 's', 'e'] => .boolean false
  | ['n', 'u', 'l', 'l'] => .null
  | _ => .number

mutual

/-- The value that a term stands for. -/
def Term.value : Term → Value
  | .literal text _ => literalValue text
  | .string ps => .string (string? ps)
  | .emptyArray _ => .array []
  | .array items => .array items.values
  | .emptyObject _ => .object []
  | .object members => .object members.values

/-- The values of the items of an array. -/
def Items.values : Items → List Value
  | .last _ item _ => [item.value]
  | .more _ item _ others => item.value :: others.values

/-- The names and the values of the members of an object. -/
def Members.values : Members → List (Option String × Value)
  | .last name value _ => [(string? name.pieces, value.value)]
  | .more name value _ others => (string? name.pieces, value.value) :: others.values

end

/-! ## Values at the front of tokens -/

/-- The token of a literal stands for its value. -/
theorem valueWithin?_literal (s : List Char) (fuel : Nat) (rest : List Token) :
    valueWithin? (fuel + 1) (literalToken s :: rest) = some (literalValue s, rest) := by
  unfold literalToken
  split
  · rfl
  · rfl
  · rfl
  · next htrue hfalse hnull =>
    rw [literalValue]
    · rfl
    · exact htrue
    · exact hfalse
    · exact hnull

/-- No value starts with the end of an array. -/
theorem Term.tokens_ne_closeArray (t : Term) (rest s : List Token) :
    t.tokens ++ rest ≠ .closeArray :: s := by
  cases t with
  | literal text h =>
    intro heq
    have hhead : literalToken text = .closeArray := (List.cons.inj heq).1
    unfold literalToken at hhead
    split at hhead <;> cases hhead
  | string ps => exact fun heq => Token.noConfusion (List.cons.inj heq).1
  | emptyArray gap => exact fun heq => Token.noConfusion (List.cons.inj heq).1
  | array items => exact fun heq => Token.noConfusion (List.cons.inj heq).1
  | emptyObject gap => exact fun heq => Token.noConfusion (List.cons.inj heq).1
  | object members => exact fun heq => Token.noConfusion (List.cons.inj heq).1

theorem Items.tokens_ne_closeArray (items : Items) (rest s : List Token) :
    items.tokens ++ rest ≠ .closeArray :: s := by
  cases items with
  | last before item after => exact item.tokens_ne_closeArray rest s
  | more before item after others =>
    rw [Items.tokens, List.append_assoc]
    exact item.tokens_ne_closeArray _ s

theorem valueWithin?_openArray {r : List Token} (h : ∀ s, r ≠ .closeArray :: s) (fuel : Nat) :
    valueWithin? (fuel + 1) (.openArray :: r) =
      (itemsWithin? fuel r).map fun p => (.array p.1, p.2) := by
  rw [valueWithin?]
  exact h

theorem valueWithin?_openObject {r : List Token} (h : ∀ s, r ≠ .closeObject :: s) (fuel : Nat) :
    valueWithin? (fuel + 1) (.openObject :: r) =
      (membersWithin? fuel r).map fun p => (.object p.1, p.2) := by
  rw [valueWithin?]
  exact h

mutual

/-- **The tokens of a value stand for it**, and what comes behind them is left. -/
theorem valueWithin?_tokens : ∀ (t : Term) (fuel : Nat) (rest : List Token),
    2 * t.tokens.length ≤ fuel → valueWithin? fuel (t.tokens ++ rest) = some (t.value, rest)
  | .literal text h, fuel + 1, rest, _ => valueWithin?_literal text fuel rest
  | .string ps, fuel + 1, rest, _ => rfl
  | .emptyArray gap, fuel + 1, rest, _ => rfl
  | .array items, fuel + 1, rest, hfuel => by
    have hfuel : 2 * items.tokens.length + 1 ≤ fuel := by
      rw [Term.tokens, List.length_cons, List.length_append, List.length_singleton] at hfuel
      omega
    have hitems := itemsWithin?_tokens items fuel rest hfuel
    rw [Term.tokens, List.cons_append, List.append_assoc,
      valueWithin?_openArray (items.tokens_ne_closeArray _)]
    exact congrArg (Option.map _) hitems
  | .emptyObject gap, fuel + 1, rest, _ => rfl
  | .object members, fuel + 1, rest, hfuel => by
    have hfuel : 2 * members.tokens.length + 1 ≤ fuel := by
      rw [Term.tokens, List.length_cons, List.length_append, List.length_singleton] at hfuel
      omega
    have hmembers := membersWithin?_tokens members fuel rest hfuel
    rw [Term.tokens, List.cons_append, List.append_assoc, valueWithin?_openObject]
    · exact congrArg (Option.map _) hmembers
    · intro s heq
      cases members with
      | last => exact Token.noConfusion (List.cons.inj heq).1
      | more => exact Token.noConfusion (List.cons.inj heq).1

/-- A list calls for its first value with one unit of fuel less than it has, so it is given one
unit more than a value is. -/
theorem itemsWithin?_tokens : ∀ (items : Items) (fuel : Nat) (rest : List Token),
    2 * items.tokens.length + 1 ≤ fuel →
      itemsWithin? fuel (items.tokens ++ .closeArray :: rest) = some (items.values, rest)
  | .last before item after, fuel + 1, rest, hfuel => by
    have hitem := valueWithin?_tokens item fuel (.closeArray :: rest) (by
      rw [Items.tokens] at hfuel
      omega)
    rw [itemsWithin?, Items.tokens, hitem]
    rfl
  | .more before item after others, fuel + 1, rest, hfuel => by
    rw [Items.tokens, List.length_append, List.length_cons] at hfuel
    have hitem := valueWithin?_tokens item fuel
      (.comma :: (others.tokens ++ .closeArray :: rest)) (by omega)
    have hothers := itemsWithin?_tokens others fuel rest (by omega)
    rw [itemsWithin?, Items.tokens, List.append_assoc, List.cons_append, hitem]
    exact congrArg (Option.map _) hothers

theorem membersWithin?_tokens : ∀ (members : Members) (fuel : Nat) (rest : List Token),
    2 * members.tokens.length + 1 ≤ fuel →
      membersWithin? fuel (members.tokens ++ .closeObject :: rest) = some (members.values, rest)
  | .last name value after, fuel + 1, rest, hfuel => by
    rw [Members.tokens, List.length_append] at hfuel
    have hvalue := valueWithin?_tokens value fuel (.closeObject :: rest) (by omega)
    rw [Members.tokens, Name.tokens]
    simp only [List.cons_append, List.nil_append]
    rw [membersWithin?, hvalue]
    rfl
  | .more name value after others, fuel + 1, rest, hfuel => by
    rw [Members.tokens, List.length_append, List.length_append, List.length_cons] at hfuel
    have hvalue := valueWithin?_tokens value fuel
      (.comma :: (others.tokens ++ .closeObject :: rest)) (by omega)
    have hothers := membersWithin?_tokens others fuel rest (by omega)
    rw [Members.tokens, Name.tokens]
    simp only [List.cons_append, List.nil_append, List.append_assoc]
    rw [membersWithin?, hvalue]
    exact congrArg (Option.map _) hothers

end

/-- The bytes of a text that holds one value, with blanks before and behind it. -/
def document (before : Blanks) (t : Term) (after : Blanks) : List UInt8 :=
  Utf8.encode (before.chars ++ (t.text ++ after.chars))

namespace Value

theorem ofTokens?_tokens (t : Term) : ofTokens? t.tokens = some t.value := by
  have h := valueWithin?_tokens t (2 * t.tokens.length + 1) [] (Nat.le_succ _)
  rw [List.append_nil] at h
  rw [ofTokens?, h]

/-- **What is read in a text is the value that it holds.** -/
theorem read?_document (before : Blanks) (t : Term) (after : Blanks) :
    read? (document before t after) = some t.value := by
  rw [read?, document, Utf8.pieces_encode, tokens?_text, Option.bind_some, ofTokens?_tokens]

end Value
end Json
end LintLocator
