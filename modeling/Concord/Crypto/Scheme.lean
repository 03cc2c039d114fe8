import Concord.Crypto.Blake2b
import Concord.Crypto.Ed25519
import Concord.Text.Blank
import Concord.Text.Quoted

/-!
The cryptography that the protocol relies on, as a parameter: a hash function, a signature check
and a test for keys. The protocol is defined over any scheme; the standard one is BLAKE2b with
Ed25519.
-/

namespace Concord.Crypto

structure Scheme where
  hash : Bytes → Digest
  verify : PublicKey → Digest → Signature → Bool
  isKey : PublicKey → Bool

def Scheme.standard : Scheme where
  hash b := ⟨Blake2b.digest b⟩
  verify key digest signature := Ed25519.verify key digest.bytes signature
  isKey := Ed25519.isKey

inductive KeyTextFault
  | notHex (fault : Text.Hex.Fault)
  | wrongLength (length : Nat)
  | notOnCurve
deriving DecidableEq, Repr

def KeyTextFault.message : KeyTextFault → String
  | .notHex .oddLength => "Odd number of digits"
  | .notHex (.badDigit byte position) =>
    let shown := Text.Quoted.char (Char.ofNat byte.toNat)
    s!"Invalid character {shown} at position {position}"
  | .wrongLength length => s!"expected 32 bytes, got {length}"
  | .notOnCurve => "signature error: Cannot decompress Edwards point"

inductive KeyFault
  | verifyOnly (key : PublicKey)
  | invalidSeed (fault : KeyTextFault)
  | invalidPublicKey (fault : KeyTextFault)
deriving DecidableEq

def KeyFault.message : KeyFault → String
  | .verifyOnly key => s!"signer {key.brief} holds no private key"
  | .invalidSeed fault => "invalid private key seed: " ++ fault.message
  | .invalidPublicKey fault => "invalid public key: " ++ fault.message

def KeyFault.kind : KeyFault → String
  | .verifyOnly _ => "VerifyOnly"
  | .invalidSeed _ => "InvalidSeed"
  | .invalidPublicKey _ => "InvalidPublicKey"

/-- A public key, with a function that signs for it if the private key is known. -/
structure Signer where
  key : PublicKey
  sign? : Option (Digest → Signature)

namespace Signer

def ofKeypair (pair : Ed25519.Keypair) : Signer where
  key := pair.key
  sign? := some fun digest => pair.sign digest.bytes

def verifyOnly (key : PublicKey) : Signer := ⟨key, none⟩

def sign (signer : Signer) (digest : Digest) : Except KeyFault Signature :=
  match signer.sign? with
  | some sign => .ok (sign digest)
  | none => .error (.verifyOnly signer.key)

end Signer

def blockOfText (text : String) : Except KeyTextFault (FixedBytes 32) :=
  match Text.Hex.decode (Text.Blank.trim text) with
  | .error fault => .error (.notHex fault)
  | .ok b =>
    match FixedBytes.ofBytes? 32 b with
    | some block => .ok block
    | none => .error (.wrongLength b.length)

def keypairOfText (text : String) : Except KeyFault Ed25519.Keypair :=
  match blockOfText text with
  | .ok seed => .ok (.ofSeed seed)
  | .error fault => .error (.invalidSeed fault)

def Scheme.checkKey (scheme : Scheme) (key : PublicKey) : Except KeyFault Unit :=
  if scheme.isKey key then .ok () else .error (.invalidPublicKey .notOnCurve)

def Scheme.keyOfText (scheme : Scheme) (text : String) : Except KeyFault PublicKey :=
  match blockOfText text with
  | .error fault => .error (.invalidPublicKey fault)
  | .ok block =>
    match scheme.checkKey ⟨block⟩ with
    | .ok _ => .ok ⟨block⟩
    | .error fault => .error fault

end Concord.Crypto
