import Concord.Crypto.Sha512
import Concord.Identity

/-!
Signatures over the twisted Edwards curve of the field with 2^255 - 19 elements. Points are kept
in extended coordinates: a point (x, y) is any quadruple (X, Y, Z, T) with x = X/Z, y = Y/Z and
XY = ZT. Since the curve's constant is no square, the addition law holds for all pairs of points.

Keys are read generously: a y-coordinate may exceed the modulus, and the sign of a zero
x-coordinate is ignored. Signatures are read strictly: the scalar must be below the group order,
and the recomputed point must have exactly the bytes that the signature carries.
-/

namespace Concord.Crypto.Ed25519

def modulus : Nat := 0x7fffffffffffffffffffffffffffffffffffffffffffffffffffffffffffffed

def order : Nat := 0x1000000000000000000000000000000014def9dea2f79cd65812631a5cf5d3ed

def topBit : Nat := 0x8000000000000000000000000000000000000000000000000000000000000000

def power (b e : Nat) : Nat :=
  if e = 0 then 1
  else
    let half := power b (e / 2)
    let square := half * half % modulus
    if e % 2 = 1 then square * b % modulus else square
termination_by e
decreasing_by omega

def invert (a : Nat) : Nat := power a (modulus - 2)

def negate (a : Nat) : Nat := (modulus - a % modulus) % modulus

def subtract (a b : Nat) : Nat := (a + (modulus - b)) % modulus

/-- The constant of the curve equation -x² + y² = 1 + d x² y². -/
def curveConstant : Nat :=
  37095705934669439343138083508754565189542113879843219016388785533085940283555

def rootOfMinusOne : Nat :=
  19681161376707505956807079304988542015446066515923890162744021073123829784752

structure Point where
  x : Nat
  y : Nat
  z : Nat
  t : Nat

namespace Point

def zero : Point := ⟨0, 1, 1, 0⟩

def base : Point :=
  let x := 15112221349535400772501151409588531511454012693041857206046113283949847762202
  let y := 46316835694926478169428394003475163141307993866256225615783033603165251855960
  ⟨x, y, 1, x * y % modulus⟩

def add (p q : Point) : Point :=
  let a := subtract p.y p.x * subtract q.y q.x % modulus
  let b := (p.y + p.x) * (q.y + q.x) % modulus
  let c := 2 * curveConstant * p.t % modulus * q.t % modulus
  let d := 2 * p.z * q.z % modulus
  let e := subtract b a
  let f := subtract d c
  let g := d + c
  let h := b + a
  ⟨e * f % modulus, g * h % modulus, f * g % modulus, e * h % modulus⟩

def double (p : Point) : Point :=
  let a := p.x * p.x % modulus
  let b := p.y * p.y % modulus
  let c := 2 * p.z * p.z % modulus
  let h := a + b
  let sum := p.x + p.y
  let e := subtract h (sum * sum % modulus)
  let g := subtract a b
  let f := c + g
  ⟨e * f % modulus, g * (h % modulus) % modulus, f * g % modulus, e * h % modulus⟩

def negate (p : Point) : Point := ⟨Ed25519.negate p.x, p.y, p.z, Ed25519.negate p.t⟩

/-- `m` times `p` plus `n` times `q`, from the highest of `bits` binary digits down. -/
def combine (p q : Point) (m n : Nat) (bits : Nat) : Point :=
  let both := p.add q
  (List.range bits).foldr
    (fun i sum =>
      let twice := sum.double
      match m.testBit i, n.testBit i with
      | false, false => twice
      | true, false => twice.add p
      | false, true => twice.add q
      | true, true => twice.add both)
    zero

def scale (m : Nat) (p : Point) : Point :=
  (List.range 256).foldr
    (fun i sum => if m.testBit i then sum.double.add p else sum.double) zero

def encode (p : Point) : FixedBytes 32 :=
  let zInverse := invert p.z
  let x := p.x * zInverse % modulus
  let y := p.y * zInverse % modulus
  FixedBytes.ofBytesPadded 32 (Bytes.littleEndian 32 (y + (x % 2) * topBit))

/-- The even square root of `u / v`, if there is one. -/
def evenRoot? (u v : Nat) : Option Nat :=
  let v3 := v * v % modulus * v % modulus
  let v7 := v3 * v3 % modulus * v % modulus
  let r := u * v3 % modulus * power (u * v7 % modulus) ((modulus - 5) / 8) % modulus
  let check := v * (r * r % modulus) % modulus
  let even (a : Nat) : Nat := if a % 2 = 1 then Ed25519.negate a else a
  if check = u % modulus then some (even r)
  else if check = Ed25519.negate u then some (even (r * rootOfMinusOne % modulus))
  else none

def decode? (bytes : FixedBytes 32) : Option Point :=
  let n := Bytes.ofLittleEndian bytes.bytes
  let y := n % topBit % modulus
  let y2 := y * y % modulus
  (evenRoot? (subtract y2 1) ((y2 * curveConstant + 1) % modulus)).map fun root =>
    let x := if n / topBit = 1 then Ed25519.negate root else root
    ⟨x, y, 1, x * y % modulus⟩

end Point

def expand (seed : FixedBytes 32) : Nat × Bytes :=
  let h := (Sha512.digest seed.bytes).bytes
  let n := Bytes.ofLittleEndian (h.take 32) % (topBit / 2)
  (n - n % 8 + topBit / 2, h.drop 32)

structure Keypair where
  seed : FixedBytes 32
  key : PublicKey
deriving DecidableEq, Inhabited

def Keypair.ofSeed (seed : FixedBytes 32) : Keypair :=
  ⟨seed, ⟨(Point.scale (expand seed).1 Point.base).encode⟩⟩

def scalarOf (b : Bytes) : Nat := Bytes.ofLittleEndian (Sha512.digest b).bytes % order

def Keypair.sign (pair : Keypair) (message : Bytes) : Signature :=
  let (secret, nonceSecret) := expand pair.seed
  let nonce := scalarOf (nonceSecret ++ message)
  let commitment := (Point.scale nonce Point.base).encode.bytes
  let challenge := scalarOf (commitment ++ pair.key.raw.bytes ++ message)
  let response := (nonce + challenge * secret) % order
  ⟨FixedBytes.ofBytesPadded 64 (commitment ++ Bytes.littleEndian 32 response)⟩

def isKey (key : PublicKey) : Bool := (Point.decode? key.raw).isSome

def verify (key : PublicKey) (message : Bytes) (signature : Signature) : Bool :=
  let commitment := signature.raw.bytes.take 32
  let response := Bytes.ofLittleEndian (signature.raw.bytes.drop 32)
  match Point.decode? key.raw with
  | none => false
  | some point =>
    if response < order then
      let challenge := scalarOf (commitment ++ key.raw.bytes ++ message)
      (Point.combine Point.base point.negate response challenge 253).encode.bytes == commitment
    else false

end Concord.Crypto.Ed25519
