import Concord.Decimal.Binary64

/-!
The shortest decimal digits that stand for a whole binary64 number: of the numbers with the most
zeros at the end that are nearer to it than to any other of the format, the nearest. They are
written out without an exponent.
-/

namespace Concord.Decimal.Shortest

def standsFor (n candidate : Nat) : Bool := Binary64.nearest candidate = n

/-- The multiple of `grid` that rounds to `n`, if there is one. Of two, the nearer. -/
def onGrid? (n grid : Nat) : Option Nat :=
  let low := n / grid * grid
  let high := low + grid
  match standsFor n low, standsFor n high with
  | true, true => some (if high - n < n - low then high else low)
  | true, false => some low
  | false, true => some high
  | false, false => none

def search (n : Nat) : (places : Nat) → Nat
  | 0 => n
  | places + 1 =>
    match onGrid? n (Nat.pow 10 (places + 1)) with
    | some found => found
    | none => search n places

def whole (n : Nat) : Nat :=
  let rounded := Binary64.nearest n
  if Binary64.excess rounded = 0 then rounded else search rounded (Nat.log2 rounded)

def text (n : Int) : String :=
  let digits := toString (whole n.natAbs)
  if n < 0 then "-" ++ digits else digits

end Concord.Decimal.Shortest
