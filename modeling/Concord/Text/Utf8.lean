import Concord.Bytes

/-!
Text as UTF-8 bytes. Whether bytes are well formed is decided by the standard library; what is
added here is the place and kind of the first fault.
-/

namespace Concord.Text.Utf8

inductive Fault
  | invalid (size position : Nat)
  | incomplete (position : Nat)
deriving DecidableEq, Repr

def Fault.message : Fault → String
  | .invalid size position => s!"invalid utf-8 sequence of {size} bytes from index {position}"
  | .incomplete position => s!"incomplete utf-8 byte sequence from index {position}"

def within (lo hi : Nat) (b : UInt8) : Bool := lo ≤ b.toNat && b.toNat ≤ hi

def isContinuation (b : UInt8) : Bool := within 0x80 0xBF b

/-- The admissible range of the byte after each lead byte, and how many bytes follow that one. -/
def afterLead? (lead : UInt8) : Option ((Nat × Nat) × Nat) :=
  if within 0xC2 0xDF lead then some ((0x80, 0xBF), 0)
  else if lead = 0xE0 then some ((0xA0, 0xBF), 1)
  else if lead = 0xED then some ((0x80, 0x9F), 1)
  else if within 0xE1 0xEF lead then some ((0x80, 0xBF), 1)
  else if lead = 0xF0 then some ((0x90, 0xBF), 2)
  else if within 0xF1 0xF3 lead then some ((0x80, 0xBF), 2)
  else if lead = 0xF4 then some ((0x80, 0x8F), 2)
  else none

/-- The first fault of `b`, which begins at `position`. `pending` has the position of the lead byte
being read, the range of the next byte and the number of bytes after it. -/
def scan : (position : Nat) → (pending : Option (Nat × (Nat × Nat) × Nat)) → Bytes → Option Fault
  | _, none, [] => none
  | _, some (start, _, _), [] => some (.incomplete start)
  | position, none, b :: rest =>
    if b.toNat < 0x80 then scan (position + 1) none rest
    else match afterLead? b with
      | none => some (.invalid 1 position)
      | some (range, more) => scan (position + 1) (some (position, range, more)) rest
  | position, some (start, (lo, hi), more), b :: rest =>
    if within lo hi b then
      match more with
      | 0 => scan (position + 1) none rest
      | more + 1 => scan (position + 1) (some (start, (0x80, 0xBF), more)) rest
    else some (.invalid (position - start) start)

def fault? (b : Bytes) : Option Fault := scan 0 none b

def decode (b : Bytes) : Except Fault String :=
  match String.fromUTF8? b.toByteArray with
  | some text => .ok text
  | none => .error ((fault? b).getD (.invalid 1 0))

def encode (text : String) : Bytes := text.toByteArray.toList

end Concord.Text.Utf8
