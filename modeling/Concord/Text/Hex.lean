import Concord.Bytes

/-!
Hexadecimal text. Bytes are written with lower case digits; either case is read.
Positions and unreadable characters in a fault are those of the UTF-8 bytes of the text.
-/

namespace Concord.Text.Hex

def digit (n : Nat) : Char :=
  if n < 10 then Char.ofNat ('0'.toNat + n) else Char.ofNat ('a'.toNat + (n - 10))

def encode (b : Bytes) : String :=
  String.ofList (b.flatMap fun x => [digit (x.toNat / 16), digit (x.toNat % 16)])

inductive Fault
  | oddLength
  | badDigit (byte : UInt8) (position : Nat)
deriving DecidableEq, Repr

def value? (c : UInt8) : Option Nat :=
  let n := c.toNat
  if 48 ≤ n ∧ n ≤ 57 then some (n - 48)
  else if 97 ≤ n ∧ n ≤ 102 then some (n - 87)
  else if 65 ≤ n ∧ n ≤ 70 then some (n - 55)
  else none

/-- Reads pairs of digits from `position` on, putting the bytes read before `acc`'s reverse. -/
def decodePairs : (acc : Bytes) → (position : Nat) → Bytes → Except Fault Bytes
  | acc, position, hi :: lo :: rest =>
    match value? hi, value? lo with
    | some h, some l => decodePairs (UInt8.ofNat (16 * h + l) :: acc) (position + 2) rest
    | none, _ => .error (.badDigit hi position)
    | some _, none => .error (.badDigit lo (position + 1))
  | acc, _, _ => .ok acc.reverse

def decode (text : String) : Except Fault Bytes :=
  let b := text.toByteArray.toList
  if b.length % 2 = 1 then .error .oddLength else decodePairs [] 0 b

end Concord.Text.Hex
