/-!
Whole numbers of the binary64 format: those with at most 53 significant binary digits. The
exponent's range plays no part.
-/

namespace Concord.Decimal.Binary64

def excess (n : Nat) : Nat := n.log2 + 1 - 53

/-- The nearest whole number of the format. Of two, the one with an even significand. -/
def nearest (n : Nat) : Nat :=
  let unit := Nat.shiftLeft 1 (excess n)
  let low := n / unit
  let twice := 2 * (n % unit)
  let up := unit < twice || (twice = unit && low % 2 = 1)
  (if up then low + 1 else low) * unit

def add (m n : Nat) : Nat := nearest (m + n)

end Concord.Decimal.Binary64
