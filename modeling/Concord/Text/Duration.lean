/-!
Spans of whole milliseconds as text: milliseconds below one second, from there on seconds with as
many decimals as are needed.
-/

namespace Concord.Text.Duration

def decimals (thousandths : Nat) : List Char :=
  let digits := [thousandths / 100, thousandths / 10 % 10, thousandths % 10]
  (digits.reverse.dropWhile (· == 0)).reverse.map fun d => Char.ofNat (48 + d)

def text (milliseconds : Nat) : String :=
  if milliseconds = 0 then "0ns"
  else if milliseconds < 1000 then s!"{milliseconds}ms"
  else
    let fraction := decimals (milliseconds % 1000)
    let point := if fraction.isEmpty then [] else '.' :: fraction
    toString (milliseconds / 1000) ++ String.ofList point ++ "s"

end Concord.Text.Duration
