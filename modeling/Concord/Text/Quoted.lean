import Concord.Text.Visible

/-!
Text in quotes, as error messages show it. The quote, the backslash and the usual control
characters are written with a backslash, and every other hidden character by its code point.
-/

namespace Concord.Text.Quoted

def hexDigits (n : Nat) : List Char := Nat.toDigits 16 n

def escape (mark c : Char) : List Char :=
  if c = mark then ['\\', mark]
  else if c = '\\' then ['\\', '\\']
  else if c = '\n' then ['\\', 'n']
  else if c = '\r' then ['\\', 'r']
  else if c = '\t' then ['\\', 't']
  else if c.toNat = 0 then ['\\', '0']
  else if c.toNat < 0x7F && 0x20 ≤ c.toNat then [c]
  else if Visible.isVisible c then [c]
  else ['\\', 'u', '\x7b'] ++ hexDigits c.toNat ++ ['\x7d']

def text (s : String) : String :=
  String.ofList (['"'] ++ s.toList.flatMap (escape '"') ++ ['"'])

def apostrophe : Char := Char.ofNat 39

def char (c : Char) : String :=
  String.ofList ([apostrophe] ++ escape apostrophe c ++ [apostrophe])

end Concord.Text.Quoted
