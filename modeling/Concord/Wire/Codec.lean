import Concord.Wire.Fault

/-!
Binary encodings with their decoders. Numbers are little endian and of fixed width, a case of an
enumeration is a 32-bit index, and sequences and texts follow a 64-bit count. A decoder returns the
bytes after the value.
-/

namespace Concord.Wire

/-- An encoding of `α`, with a decoder that returns the value at the front and the bytes after
it. -/
structure Codec (α : Type) where
  encode : α → Bytes
  decode : Bytes → Except Fault (α × Bytes)

namespace Codec

variable {α β : Type}

def number (width : Nat) (toNat : α → Nat) (ofNat : Nat → α) : Codec α where
  encode a := Bytes.littleEndian width (toNat a)
  decode b :=
    match Bytes.split? width b with
    | some (front, rest) => .ok (ofNat (Bytes.ofLittleEndian front), rest)
    | none => .error .endOfBytes

def u16 : Codec UInt16 := number 2 UInt16.toNat UInt16.ofNat
def u32 : Codec UInt32 := number 4 UInt32.toNat UInt32.ofNat
def u64 : Codec UInt64 := number 8 UInt64.toNat UInt64.ofNat

def count : Codec Nat := number 8 id id

def fixed (n : Nat) : Codec (FixedBytes n) where
  encode a := a.bytes
  decode b :=
    match Bytes.split? n b with
    | some (front, rest) =>
      match FixedBytes.ofBytes? n front with
      | some block => .ok (block, rest)
      | none => .error .endOfBytes
    | none => .error .endOfBytes

def map (c : Codec α) (forth : α → β) (back : β → α) : Codec β where
  encode x := c.encode (back x)
  decode b :=
    match c.decode b with
    | .ok (a, rest) => .ok (forth a, rest)
    | .error fault => .error fault

def pair (first : Codec α) (second : Codec β) : Codec (α × β) where
  encode x := first.encode x.1 ++ second.encode x.2
  decode b :=
    match first.decode b with
    | .error fault => .error fault
    | .ok (x, rest) =>
      match second.decode rest with
      | .error fault => .error fault
      | .ok (y, rest) => .ok ((x, y), rest)

def choice (all : List α) (index : α → Nat) : Codec α where
  encode a := Bytes.littleEndian 4 (index a)
  decode b :=
    match u32.decode b with
    | .error fault => .error fault
    | .ok (i, rest) =>
      match all[i.toNat]? with
      | some a => .ok (a, rest)
      | none => .error (.noSuchCase i.toNat all.length)

def bytes : Codec Bytes where
  encode b := count.encode b.length ++ b
  decode b :=
    match count.decode b with
    | .error fault => .error fault
    | .ok (n, rest) =>
      match Bytes.split? n rest with
      | some (front, rest) => .ok (front, rest)
      | none => .error .endOfBytes

/-- A block after its count. A wrong count is an error only after the block was read. -/
def countedFixed (n : Nat) : Codec (FixedBytes n) where
  encode a := count.encode n ++ a.bytes
  decode b :=
    match count.decode b with
    | .error fault => .error fault
    | .ok (m, rest) =>
      match Bytes.split? m rest with
      | none => .error .shortBody
      | some (front, rest) =>
        match FixedBytes.ofBytes? n front with
        | some block => .ok (block, rest)
        | none => .error (.wrongLength m n)

def text : Codec String where
  encode s := bytes.encode (Text.Utf8.encode s)
  decode b :=
    match count.decode b with
    | .error fault => .error fault
    | .ok (n, rest) =>
      match Bytes.split? n rest with
      | none => .error .shortBody
      | some (front, rest) =>
        match Text.Utf8.decode front with
        | .ok s => .ok (s, rest)
        | .error fault => .error (.badText fault)

def decodeMany (item : Codec α) :
    (n : Nat) → (read : List α) → Bytes → Except Fault (List α × Bytes)
  | 0, read, b => .ok (read.reverse, b)
  | n + 1, read, b =>
    match item.decode b with
    | .error fault => .error fault
    | .ok (a, rest) => decodeMany item n (a :: read) rest

def list (item : Codec α) : Codec (List α) where
  encode l := count.encode l.length ++ l.flatMap item.encode
  decode b :=
    match count.decode b with
    | .error fault => .error fault
    | .ok (n, rest) => decodeMany item n [] rest

def option (item : Codec α) : Codec (Option α) where
  encode
    | none => [0]
    | some a => 1 :: item.encode a
  decode
    | [] => .error .endOfBytes
    | tag :: rest =>
      if tag = 0 then .ok (none, rest)
      else if tag = 1 then
        match item.decode rest with
        | .ok (a, rest) => .ok (some a, rest)
        | .error fault => .error fault
      else .error (.badPresence tag)

def read (c : Codec α) (b : Bytes) : Except Fault α :=
  match c.decode b with
  | .ok (a, _) => .ok a
  | .error fault => .error fault

end Codec

end Concord.Wire
