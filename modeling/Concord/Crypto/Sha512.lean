import Concord.Bytes

/-!
The hash function SHA-512.
-/

namespace Concord.Crypto.Sha512

structure Words where
  a : UInt64
  b : UInt64
  c : UInt64
  d : UInt64
  e : UInt64
  f : UInt64
  g : UInt64
  h : UInt64

def Words.add (x y : Words) : Words :=
  ⟨x.a + y.a, x.b + y.b, x.c + y.c, x.d + y.d, x.e + y.e, x.f + y.f, x.g + y.g, x.h + y.h⟩

def Words.initial : Words :=
  ⟨0x6a09e667f3bcc908, 0xbb67ae8584caa73b, 0x3c6ef372fe94f82b, 0xa54ff53a5f1d36f1,
    0x510e527fade682d1, 0x9b05688c2b3e6c1f, 0x1f83d9abfb41bd6b, 0x5be0cd19137e2179⟩

def roundConstants : List UInt64 := [
    0x428a2f98d728ae22, 0x7137449123ef65cd, 0xb5c0fbcfec4d3b2f, 0xe9b5dba58189dbbc,
    0x3956c25bf348b538, 0x59f111f1b605d019, 0x923f82a4af194f9b, 0xab1c5ed5da6d8118,
    0xd807aa98a3030242, 0x12835b0145706fbe, 0x243185be4ee4b28c, 0x550c7dc3d5ffb4e2,
    0x72be5d74f27b896f, 0x80deb1fe3b1696b1, 0x9bdc06a725c71235, 0xc19bf174cf692694,
    0xe49b69c19ef14ad2, 0xefbe4786384f25e3, 0x0fc19dc68b8cd5b5, 0x240ca1cc77ac9c65,
    0x2de92c6f592b0275, 0x4a7484aa6ea6e483, 0x5cb0a9dcbd41fbd4, 0x76f988da831153b5,
    0x983e5152ee66dfab, 0xa831c66d2db43210, 0xb00327c898fb213f, 0xbf597fc7beef0ee4,
    0xc6e00bf33da88fc2, 0xd5a79147930aa725, 0x06ca6351e003826f, 0x142929670a0e6e70,
    0x27b70a8546d22ffc, 0x2e1b21385c26c926, 0x4d2c6dfc5ac42aed, 0x53380d139d95b3df,
    0x650a73548baf63de, 0x766a0abb3c77b2a8, 0x81c2c92e47edaee6, 0x92722c851482353b,
    0xa2bfe8a14cf10364, 0xa81a664bbc423001, 0xc24b8b70d0f89791, 0xc76c51a30654be30,
    0xd192e819d6ef5218, 0xd69906245565a910, 0xf40e35855771202a, 0x106aa07032bbd1b8,
    0x19a4c116b8d2d0c8, 0x1e376c085141ab53, 0x2748774cdf8eeb99, 0x34b0bcb5e19b48a8,
    0x391c0cb3c5c95a63, 0x4ed8aa4ae3418acb, 0x5b9cca4f7763e373, 0x682e6ff3d6b2b8a3,
    0x748f82ee5defb2fc, 0x78a5636f43172f60, 0x84c87814a1f0ab72, 0x8cc702081a6439ec,
    0x90befffa23631e28, 0xa4506cebde82bde9, 0xbef9a3f7b2c67915, 0xc67178f2e372532b,
    0xca273eceea26619c, 0xd186b8c721c0c207, 0xeada7dd6cde0eb1e, 0xf57d4f7fee6ed178,
    0x06f067aa72176fba, 0x0a637dc5a2c898a6, 0x113f9804bef90dae, 0x1b710b35131c471b,
    0x28db77f523047d84, 0x32caab7b40c72493, 0x3c9ebe0a15c9bebc, 0x431d67c49c100d4c,
    0x4cc5d4becb3e42b6, 0x597f299cfc657e2a, 0x5fcb6fab3ad6faec, 0x6c44198c4a475817]

def rotateRight (n : UInt64) (x : UInt64) : UInt64 := (x >>> n) ||| (x <<< (64 - n))

def Words.round (w : Words) (input : UInt64) : Words :=
  let sum1 := rotateRight 14 w.e ^^^ rotateRight 18 w.e ^^^ rotateRight 41 w.e
  let choice := (w.e &&& w.f) ^^^ ((~~~w.e) &&& w.g)
  let t1 := w.h + sum1 + choice + input
  let sum0 := rotateRight 28 w.a ^^^ rotateRight 34 w.a ^^^ rotateRight 39 w.a
  let majority := (w.a &&& w.b) ^^^ (w.a &&& w.c) ^^^ (w.b &&& w.c)
  ⟨t1 + sum0 + majority, w.a, w.b, w.c, w.d + t1, w.e, w.f, w.g⟩

/-- The message schedule: sixteen words of a block and `n` words computed from them. -/
def extend (words : Array UInt64) : Nat → Array UInt64
  | 0 => words
  | n + 1 =>
    let size := words.size
    let back (k : Nat) : UInt64 := words.getD (size - k) 0
    let s0 := rotateRight 1 (back 15) ^^^ rotateRight 8 (back 15) ^^^ (back 15 >>> 7)
    let s1 := rotateRight 19 (back 2) ^^^ rotateRight 61 (back 2) ^^^ (back 2 >>> 6)
    extend (words.push (back 16 + s0 + back 7 + s1)) n

def Words.compress (w : Words) (block : Array UInt64) : Words :=
  let inputs := (extend block 64).toList
  w.add ((roundConstants.zip inputs).foldl (fun w (k, m) => w.round (k + m)) w)

def padded (b : Bytes) : Bytes :=
  let size := b.length
  let zeros := (239 - size % 128) % 128
  b ++ 0x80 :: List.replicate zeros 0 ++ Bytes.bigEndian 16 (8 * size)

def byteAt (b : ByteArray) (i : Nat) : UInt64 :=
  if h : i < b.size then b[i].toUInt64 else 0

def wordAt (b : ByteArray) (i : Nat) : UInt64 :=
  byteAt b i <<< 56 ||| byteAt b (i + 1) <<< 48 ||| byteAt b (i + 2) <<< 40 |||
  byteAt b (i + 3) <<< 32 ||| byteAt b (i + 4) <<< 24 ||| byteAt b (i + 5) <<< 16 |||
  byteAt b (i + 6) <<< 8 ||| byteAt b (i + 7)

def blockWords (b : ByteArray) (block : Nat) : Array UInt64 :=
  (Array.range 16).map fun i => wordAt b (128 * block + 8 * i)

def wordBytes (w : UInt64) : Bytes := Bytes.bigEndian 8 w.toNat

def digest (b : Bytes) : FixedBytes 64 :=
  let data := (padded b).toByteArray
  let w := (List.range (data.size / 128)).foldl (fun w i => w.compress (blockWords data i))
    Words.initial
  FixedBytes.ofBytesPadded 64
    (wordBytes w.a ++ wordBytes w.b ++ wordBytes w.c ++ wordBytes w.d ++
      wordBytes w.e ++ wordBytes w.f ++ wordBytes w.g ++ wordBytes w.h)

end Concord.Crypto.Sha512
