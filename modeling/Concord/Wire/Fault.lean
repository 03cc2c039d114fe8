import Concord.Text.Utf8

/-!
Why bytes are not the encoding of a value.
-/

namespace Concord.Wire

inductive Fault
  | endOfBytes
  | shortBody
  | noSuchCase (index count : Nat)
  | wrongLength (actual expected : Nat)
  | badText (fault : Text.Utf8.Fault)
  | badPresence (byte : UInt8)
deriving DecidableEq, Repr

def Fault.message : Fault → String
  | .endOfBytes => "io error: unexpected end of file"
  | .shortBody => "io error: "
  | .noSuchCase index count =>
    "invalid value: integer `" ++ toString index ++ "`, expected variant index 0 <= i < " ++
      toString count
  | .wrongLength actual expected => s!"invalid length {actual}, expected {expected} bytes"
  | .badText fault => "string is not valid utf8: " ++ fault.message
  | .badPresence byte => s!"tag for enum is not valid, found {byte.toNat}"

end Concord.Wire
