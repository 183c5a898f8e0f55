/-!
# Indexes in decimal

An index is a run of ASCII digits.  Leading zeros are allowed and change nothing, but the value
has to fit a machine word: a longer number cannot be the place of anything, and it is refused
where it is read instead of being looked up in vain.
-/

namespace LintLocator
namespace Decimal

/-- The value of a run of digits. -/
def value (ds : List Char) : Nat := Nat.ofDigitChars 10 ds 0

/-- The first number that is too large for an index. -/
def indexBound : Nat := 18446744073709551616

/-- Reads an index: at least one digit, digits only, below `indexBound`. -/
def index? (ds : List Char) : Option Nat :=
  if !ds.isEmpty && ds.all Char.isDigit && value ds < indexBound then some (value ds) else none

@[simp] theorem index?_nil : index? [] = none := rfl

end Decimal
end LintLocator
