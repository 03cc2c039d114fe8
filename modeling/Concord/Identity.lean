import Concord.Text.Hex
import Concord.Wire.Codec

/-!
Digests, public keys and signatures as opaque blocks of bytes, and the texts that stand for them.
-/

namespace Concord

structure Digest where
  raw : FixedBytes 32
deriving DecidableEq, Inhabited

structure PublicKey where
  raw : FixedBytes 32
deriving DecidableEq, Inhabited

structure Signature where
  raw : FixedBytes 64
deriving DecidableEq, Inhabited

def FixedBytes.brief {n : Nat} (b : FixedBytes n) : String := Text.Hex.encode (b.bytes.take 4)

def FixedBytes.hex {n : Nat} (b : FixedBytes n) : String := Text.Hex.encode b.bytes

namespace Digest

def zero : Digest := ⟨FixedBytes.zero 32⟩

def isZero (d : Digest) : Bool := d = zero

def bytes (d : Digest) : Bytes := d.raw.bytes

def hex (d : Digest) : String := d.raw.hex

def debug (d : Digest) : String := "Hash(" ++ d.raw.brief ++ "\u2026)"

def codec : Wire.Codec Digest := (Wire.Codec.fixed 32).map Digest.mk Digest.raw

end Digest

namespace PublicKey

def hex (k : PublicKey) : String := k.raw.hex

def brief (k : PublicKey) : String := k.raw.brief

def debug (k : PublicKey) : String := "PublicKey(" ++ k.brief ++ "\u2026)"

def codec : Wire.Codec PublicKey := (Wire.Codec.fixed 32).map PublicKey.mk PublicKey.raw

end PublicKey

namespace Signature

def codec : Wire.Codec Signature := (Wire.Codec.countedFixed 64).map Signature.mk Signature.raw

end Signature

structure Member where
  key : PublicKey
  address : String
deriving DecidableEq, Inhabited

def Member.codec : Wire.Codec Member :=
  (PublicKey.codec.pair Wire.Codec.text).map (fun x => ⟨x.1, x.2⟩) (fun m => (m.key, m.address))

end Concord
