import Concord.Bytes

/-!
The hash function BLAKE2b with a 32-byte digest and no key. The state of the compression is a
matrix of four rows of four words; a round mixes its columns and then its diagonals, which are the
columns once the rows have been turned.
-/

namespace Concord.Crypto.Blake2b

structure Row where
  a : UInt64
  b : UInt64
  c : UInt64
  d : UInt64

namespace Row

def add (x y : Row) : Row := ⟨x.a + y.a, x.b + y.b, x.c + y.c, x.d + y.d⟩

def xor (x y : Row) : Row := ⟨x.a ^^^ y.a, x.b ^^^ y.b, x.c ^^^ y.c, x.d ^^^ y.d⟩

def rotateRight (n : UInt64) (x : UInt64) : UInt64 := (x >>> n) ||| (x <<< (64 - n))

def rotateWords (n : UInt64) (x : Row) : Row :=
  ⟨rotateRight n x.a, rotateRight n x.b, rotateRight n x.c, rotateRight n x.d⟩

def turn (x : Row) : Row := ⟨x.b, x.c, x.d, x.a⟩

end Row

structure Matrix where
  top : Row
  second : Row
  third : Row
  bottom : Row

def Matrix.mixColumns (m : Matrix) (x y : Row) : Matrix :=
  let a := (m.top.add m.second).add x
  let d := (m.bottom.xor a).rotateWords 32
  let c := m.third.add d
  let b := (m.second.xor c).rotateWords 24
  let a := (a.add b).add y
  let d := (d.xor a).rotateWords 16
  let c := c.add d
  let b := (b.xor c).rotateWords 63
  ⟨a, b, c, d⟩

def Matrix.mixDiagonals (m : Matrix) (x y : Row) : Matrix :=
  let t : Matrix := ⟨m.top, m.second.turn, m.third.turn.turn, m.bottom.turn.turn.turn⟩
  let t := t.mixColumns x y
  ⟨t.top, t.second.turn.turn.turn, t.third.turn.turn, t.bottom.turn⟩

/-- The order in which the rounds take the message words; rounds eleven and twelve begin anew. -/
def schedule : List (List Nat) :=
  let orders : List (List Nat) := [
    [0, 1, 2, 3, 4, 5, 6, 7, 8, 9, 10, 11, 12, 13, 14, 15],
    [14, 10, 4, 8, 9, 15, 13, 6, 1, 12, 0, 2, 11, 7, 5, 3],
    [11, 8, 12, 0, 5, 2, 15, 13, 10, 14, 3, 6, 7, 1, 9, 4],
    [7, 9, 3, 1, 13, 12, 11, 14, 2, 6, 5, 10, 4, 0, 15, 8],
    [9, 0, 5, 7, 2, 4, 10, 15, 14, 1, 11, 12, 6, 8, 3, 13],
    [2, 12, 6, 10, 0, 11, 8, 3, 4, 13, 7, 5, 15, 14, 1, 9],
    [12, 5, 1, 15, 14, 13, 4, 10, 0, 7, 6, 3, 9, 2, 8, 11],
    [13, 11, 7, 14, 12, 1, 3, 9, 5, 0, 15, 4, 8, 6, 2, 10],
    [6, 15, 14, 9, 11, 3, 0, 8, 12, 2, 13, 7, 1, 4, 10, 5],
    [10, 2, 8, 4, 7, 6, 1, 5, 15, 11, 9, 14, 3, 12, 13, 0]]
  orders ++ orders.take 2

def round (words : Array UInt64) (m : Matrix) : List Nat → Matrix
  | [i0, i1, i2, i3, i4, i5, i6, i7, j0, j1, j2, j3, j4, j5, j6, j7] =>
    let w (i : Nat) : UInt64 := words.getD i 0
    let m := m.mixColumns ⟨w i0, w i2, w i4, w i6⟩ ⟨w i1, w i3, w i5, w i7⟩
    m.mixDiagonals ⟨w j0, w j2, w j4, w j6⟩ ⟨w j1, w j3, w j5, w j7⟩
  | _ => m

def initialTop : Row :=
  ⟨0x6a09e667f3bcc908, 0xbb67ae8584caa73b, 0x3c6ef372fe94f82b, 0xa54ff53a5f1d36f1⟩

def initialBottom : Row :=
  ⟨0x510e527fade682d1, 0x9b05688c2b3e6c1f, 0x1f83d9abfb41bd6b, 0x5be0cd19137e2179⟩

structure Chain where
  low : Row
  high : Row

def Chain.initial : Chain := ⟨initialTop.xor ⟨0x01010020, 0, 0, 0⟩, initialBottom⟩

def Chain.compress (h : Chain) (words : Array UInt64) (bytesSoFar : Nat) (isLast : Bool) : Chain :=
  let marks : Row :=
    ⟨UInt64.ofNat bytesSoFar, UInt64.ofNat (bytesSoFar / UInt64.size),
      if isLast then 0xffffffffffffffff else 0, 0⟩
  let m : Matrix := ⟨h.low, h.high, initialTop, initialBottom.xor marks⟩
  let m := schedule.foldl (round words) m
  ⟨(h.low.xor m.top).xor m.third, (h.high.xor m.second).xor m.bottom⟩

def byteAt (b : ByteArray) (i : Nat) : UInt64 :=
  if h : i < b.size then b[i].toUInt64 else 0

def wordAt (b : ByteArray) (i : Nat) : UInt64 :=
  byteAt b i ||| byteAt b (i + 1) <<< 8 ||| byteAt b (i + 2) <<< 16 ||| byteAt b (i + 3) <<< 24 |||
  byteAt b (i + 4) <<< 32 ||| byteAt b (i + 5) <<< 40 ||| byteAt b (i + 6) <<< 48 |||
  byteAt b (i + 7) <<< 56

def blockWords (b : ByteArray) (block : Nat) : Array UInt64 :=
  (Array.range 16).map fun i => wordAt b (128 * block + 8 * i)

def wordBytes (w : UInt64) : Bytes := Bytes.littleEndian 8 w.toNat

def digest (b : Bytes) : FixedBytes 32 :=
  let data := b.toByteArray
  let size := data.size
  let blocks := max 1 ((size + 127) / 128)
  let chain := (List.range blocks).foldl
    (fun h i => h.compress (blockWords data i) (min size (128 * (i + 1))) (i + 1 == blocks))
    Chain.initial
  FixedBytes.ofBytesPadded 32
    (wordBytes chain.low.a ++ wordBytes chain.low.b ++ wordBytes chain.low.c ++
      wordBytes chain.low.d)

end Concord.Crypto.Blake2b
