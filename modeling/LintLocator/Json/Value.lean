import LintLocator.Json.Token

/-!
# JSON values

The value that a JSON text stands for, as far as linters report anything in it.  Objects keep all
their members in the order in which they are written, and repeated names are kept too: whether
they are an error depends on whether the name means anything.

A linter's record is written as an object, whose members are found by name, or as an array, whose
items stand for the fields in a fixed order.
-/

namespace LintLocator
namespace Json

inductive Value where
  | null
  | boolean (b : Bool)
  | number
  /-- A string without a text is one that holds something ill-formed. -/
  | string (text : Option String)
  | array (items : List Value)
  | object (members : List (Option String × Value))
  deriving Inhabited

mutual

/-- Reads a value from the front of a list of tokens. -/
def valueWithin? : (fuel : Nat) → List Token → Option (Value × List Token)
  | 0, _ => none
  | _ + 1, [] => none
  | fuel + 1, t :: r =>
    match t with
    | .null => some (.null, r)
    | .boolean b => some (.boolean b, r)
    | .number => some (.number, r)
    | .string text => some (.string text, r)
    | .openArray =>
      match r with
      | .closeArray :: s => some (.array [], s)
      | _ => (itemsWithin? fuel r).map fun p => (.array p.1, p.2)
    | .openObject =>
      match r with
      | .closeObject :: s => some (.object [], s)
      | _ => (membersWithin? fuel r).map fun p => (.object p.1, p.2)
    | _ => none

/-- Reads at least one item and the end of the array. -/
def itemsWithin? : (fuel : Nat) → List Token → Option (List Value × List Token)
  | 0, _ => none
  | fuel + 1, ts =>
    match valueWithin? fuel ts with
    | some (v, .comma :: r) => (itemsWithin? fuel r).map fun p => (v :: p.1, p.2)
    | some (v, .closeArray :: r) => some ([v], r)
    | _ => none

/-- Reads at least one member and the end of the object. -/
def membersWithin? : (fuel : Nat) → List Token → Option (List (Option String × Value) × List Token)
  | 0, _ => none
  | fuel + 1, .string name :: .colon :: ts =>
    match valueWithin? fuel ts with
    | some (v, .comma :: r) => (membersWithin? fuel r).map fun p => ((name, v) :: p.1, p.2)
    | some (v, .closeObject :: r) => some ([(name, v)], r)
    | _ => none
  | _ + 1, _ => none

end

namespace Value

/-- The value that tokens stand for.  Of two calls inside one another, one at least takes a token
away, which bounds the fuel. -/
def ofTokens? (ts : List Token) : Option Value :=
  match valueWithin? (2 * ts.length + 1) ts with
  | some (v, []) => some v
  | _ => none

/-- Reads a JSON text. -/
def read? (bytes : List UInt8) : Option Value := (tokens? (Utf8.pieces bytes)).bind ofTokens?

/-! ## Records -/

/-- The only value with a name among members.  A name that occurs twice has none, and then the
outer `Option` is `none`. -/
def only? (name : String) (members : List (Option String × Value)) : Option (Option Value) :=
  match members.filter fun m => m.1 == some name with
  | [] => some none
  | [m] => some (some m.2)
  | _ => none

/-- The values of the fields of a record; fields may be left out.  An array leaves out the last
ones and cannot have more items than there are fields. -/
def fields? (names : List String) : Value → Option (List (Option Value))
  | .object members =>
    if members.all fun m => m.1.isSome then names.mapM fun name => only? name members else none
  | .array items =>
    if items.length ≤ names.length then
      some (items.map some ++ List.replicate (names.length - items.length) none)
    else none
  | _ => none

/-- The text of a string. -/
def text? : Value → Option String
  | .string text => text
  | _ => none

/-- The text of a field, which is empty if the field is left out. -/
def textField? : Option Value → Option String
  | none => some ""
  | some v => v.text?

/-- The members of a list that a field holds; `null` is as good as leaving the field out. -/
def listField? {α : Type} (read : Value → Option α) : Option Value → Option (List α)
  | none => some []
  | some .null => some []
  | some (.array items) => items.mapM read
  | some _ => none

end Value
end Json
end LintLocator
