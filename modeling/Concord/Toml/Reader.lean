import Concord.Toml.Document

/-!
Reading of TOML 1.0. A reader takes a value off the front of some characters and leaves the rest;
that a text is no TOML is all that is told of a fault.
-/

namespace Concord.Toml

abbrev Reader (α : Type) := List Char → Option (α × List Char)

namespace Read

def isSpace (c : Char) : Bool := c = ' ' || c = '\t'

def spaces (cs : List Char) : List Char := cs.dropWhile isSpace

def newline? : List Char → Option (List Char)
  | '\n' :: rest => some rest
  | '\r' :: '\n' :: rest => some rest
  | _ => none

def isPlain (c : Char) : Bool := c = '\t' || (0x20 ≤ c.toNat && c.toNat ≠ 0x7F)

def comment : List Char → List Char
  | '#' :: rest => rest.dropWhile isPlain
  | cs => cs

def blanks (cs : List Char) : List Char :=
  go (cs.length + 1) cs
where
  go : Nat → List Char → List Char
    | 0, cs => cs
    | n + 1, cs =>
      let cs := comment (spaces cs)
      match newline? cs with
      | some rest => go n rest
      | none => cs

def lineEnd? (cs : List Char) : Option (List Char) :=
  match comment (spaces cs) with
  | [] => some []
  | cs => newline? cs

def startsWith? : (front : List Char) → List Char → Option (List Char)
  | [], cs => some cs
  | f :: front, c :: cs => if f = c then startsWith? front cs else none
  | _ :: _, [] => none

def hexValue? (c : Char) : Option Nat :=
  if c.isDigit then some (c.toNat - 48)
  else if 'a' ≤ c ∧ c ≤ 'f' then some (c.toNat - 87)
  else if 'A' ≤ c ∧ c ≤ 'F' then some (c.toNat - 55)
  else none

def codePoint (n : Nat) : Reader Char := fun cs =>
  let digits := cs.take n
  if digits.length < n then none
  else do
    let values ← digits.mapM hexValue?
    let code := values.foldl (fun acc d => 16 * acc + d) 0
    if code < 0x110000 ∧ ¬ (0xD800 ≤ code ∧ code < 0xE000) then
      some (Char.ofNat code, cs.drop n)
    else none

def escape : Reader Char
  | 'b' :: rest => some ('\x08', rest)
  | 't' :: rest => some ('\t', rest)
  | 'n' :: rest => some ('\n', rest)
  | 'f' :: rest => some ('\x0c', rest)
  | 'r' :: rest => some ('\r', rest)
  | '"' :: rest => some ('"', rest)
  | '\\' :: rest => some ('\\', rest)
  | 'u' :: rest => codePoint 4 rest
  | 'U' :: rest => codePoint 8 rest
  | _ => none

def basicText : (fuel : Nat) → (read : List Char) → Reader String
  | 0, _, _ => none
  | fuel + 1, read, cs =>
    match cs with
    | '"' :: rest => some (String.ofList read.reverse, rest)
    | '\\' :: rest =>
      match escape rest with
      | some (c, rest) => basicText fuel (c :: read) rest
      | none => none
    | c :: rest => if isPlain c then basicText fuel (c :: read) rest else none
    | [] => none

def apostrophe : Char := Char.ofNat 39

def literalText : (read : List Char) → Reader String
  | read, c :: rest =>
    if c = apostrophe then some (String.ofList read.reverse, rest)
    else if isPlain c then literalText (c :: read) rest
    else none
  | _, [] => none

/-- A text ends at three or more quotes, of which up to two before the last three belong to it. -/
def closing? (quote : Char) (cs : List Char) : Option (List Char × List Char) :=
  let run := cs.takeWhile (· = quote)
  if 3 ≤ run.length then
    let inside := min (run.length - 3) 2
    some (List.replicate inside quote, cs.drop (inside + 3))
  else none

def continuation? (cs : List Char) : Option (List Char) :=
  match newline? (spaces cs) with
  | some rest => some (skip (rest.length + 1) rest)
  | none => none
where
  skip : Nat → List Char → List Char
    | 0, cs => cs
    | n + 1, cs =>
      match newline? (spaces cs) with
      | some rest => skip n rest
      | none => spaces cs

def longText (quote : Char) (escapes : Bool) : (fuel : Nat) → (read : List Char) → Reader String
  | 0, _, _ => none
  | fuel + 1, read, cs =>
    match closing? quote cs with
    | some (inside, rest) => some (String.ofList (read.reverse ++ inside), rest)
    | none =>
      match newline? cs with
      | some rest => longText quote escapes fuel ('\n' :: read) rest
      | none =>
        match cs with
        | [] => none
        | c :: rest =>
          if escapes && c = '\\' then
            match continuation? rest with
            | some rest => longText quote escapes fuel read rest
            | none =>
              match escape rest with
              | some (c, rest) => longText quote escapes fuel (c :: read) rest
              | none => none
          else if isPlain c then longText quote escapes fuel (c :: read) rest
          else none

def dropNewline (cs : List Char) : List Char := (newline? cs).getD cs

def text : Reader String := fun cs =>
  let fuel := cs.length + 1
  match cs with
  | '"' :: '"' :: '"' :: rest => longText '"' true fuel [] (dropNewline rest)
  | '"' :: rest => basicText fuel [] rest
  | c :: rest =>
    if c = apostrophe then
      match startsWith? [apostrophe, apostrophe] rest with
      | some rest => longText apostrophe false fuel [] (dropNewline rest)
      | none => literalText [] rest
    else none
  | [] => none

def isBareKeyChar (c : Char) : Bool := c.isAlphanum || c = '_' || c = '-'

def simpleKey : Reader String := fun cs =>
  match cs with
  | '"' :: rest => basicText (cs.length + 1) [] rest
  | c :: rest =>
    if c = apostrophe then literalText [] rest
    else
      let bare := cs.takeWhile isBareKeyChar
      if bare = [] then none else some (String.ofList bare, cs.dropWhile isBareKeyChar)
  | [] => none

def dottedKey : (fuel : Nat) → Reader (List String × String)
  | 0, _ => none
  | fuel + 1, cs =>
    match simpleKey (spaces cs) with
    | none => none
    | some (step, rest) =>
      match spaces rest with
      | '.' :: rest =>
        match dottedKey fuel rest with
        | some ((path, last), rest) => some ((step :: path, last), rest)
        | none => none
      | rest => some (([], step), rest)

def key : Reader (List String × String) := fun cs => dottedKey (cs.length + 1) cs

def digits (isDigit : Char → Bool) : (read : List Char) → Reader (List Char)
  | read, c :: d :: rest =>
    if isDigit c then digits isDigit (c :: read) (d :: rest)
    else if c = '_' && read ≠ [] && isDigit d then digits isDigit (d :: read) rest
    else if read = [] then none else some (read.reverse, c :: d :: rest)
  | read, [c] =>
    if isDigit c then some ((c :: read).reverse, [])
    else if read = [] then none else some (read.reverse, [c])
  | read, [] => if read = [] then none else some (read.reverse, [])

def numberOf (base : Nat) (cs : List Char) : Nat :=
  cs.foldl (fun n c => base * n + (hexValue? c).getD 0) 0

def sign : List Char → Bool × List Char
  | '+' :: rest => (false, rest)
  | '-' :: rest => (true, rest)
  | cs => (false, cs)

def decimalDigits : Reader (List Char)
  | '0' :: rest => some (['0'], rest)
  | cs => digits Char.isDigit [] cs

def wholeBound : Nat := 0x8000000000000000

def prefixed (base : Nat) (isDigit : Char → Bool) : Reader Node := fun cs =>
  match digits isDigit [] cs with
  | some (ds, rest) =>
    let n := numberOf base ds
    if n < wholeBound then some (.integer n, rest) else none
  | none => none

def integer : Reader Node
  | '0' :: 'x' :: rest => prefixed 16 (fun c => (hexValue? c).isSome) rest
  | '0' :: 'o' :: rest => prefixed 8 (fun c => '0' ≤ c && c ≤ '7') rest
  | '0' :: 'b' :: rest => prefixed 2 (fun c => c = '0' || c = '1') rest
  | cs =>
    let (negative, rest) := sign cs
    match decimalDigits rest with
    | none => none
    | some (ds, rest) =>
      let n := numberOf 10 ds
      if negative then if n ≤ wholeBound then some (.integer (-n), rest) else none
      else if n < wholeBound then some (.integer n, rest) else none

/-- Whether a decimal number rounds past the largest binary64 number. -/
def overflows (whole fraction : List Char) (exponent : Int) : Bool :=
  let n := numberOf 10 (whole ++ fraction)
  let e := exponent - fraction.length
  let limit := Nat.shiftLeft 1 1024 - Nat.shiftLeft 1 970
  if n = 0 then false
  else if e ≤ 0 then limit * Nat.pow 10 (min e.natAbs (n.log2 + 1)) ≤ n
  else 400 < e || limit ≤ n * Nat.pow 10 e.natAbs

def exponent : Reader Int
  | 'e' :: rest | 'E' :: rest =>
    let (negative, rest) := sign rest
    match digits Char.isDigit [] rest with
    | some (ds, rest) =>
      let n : Int := numberOf 10 ds
      some (if negative then -n else n, rest)
    | none => none
  | _ => none

def written (cs rest : List Char) : String := String.ofList (cs.take (cs.length - rest.length))

def float : Reader Node := fun cs =>
  let (negative, unsigned) := sign cs
  match unsigned with
  | 'i' :: 'n' :: 'f' :: rest => some (.float (written cs rest), rest)
  | 'n' :: 'a' :: 'n' :: rest => some (.float (written cs rest), rest)
  | _ =>
    match decimalDigits unsigned with
    | none => none
    | some (whole, rest) =>
      let fraction := match rest with
        | '.' :: rest => digits Char.isDigit [] rest
        | _ => none
      let after := match fraction with
        | some (_, rest) => rest
        | none => rest
      let power := exponent after
      match fraction, power with
      | none, none => none
      | _, _ =>
        let e := match power with
          | some (e, _) => e
          | none => 0
        let rest := match power with
          | some (_, rest) => rest
          | none => after
        let fractionDigits := match fraction with
          | some (ds, _) => ds
          | none => []
        if !negative && overflows whole fractionDigits e then none
        else some (.float (written cs rest), rest)

def fixedNumber (n lo hi : Nat) : Reader Nat := fun cs =>
  let ds := cs.take n
  if ds.length = n ∧ ds.all Char.isDigit then
    let v := numberOf 10 ds
    if lo ≤ v ∧ v ≤ hi then some (v, cs.drop n) else none
  else none

def isLeap (year : Nat) : Bool := year % 4 = 0 && (year % 100 ≠ 0 || year % 400 = 0)

def daysIn (year month : Nat) : Nat :=
  if month = 2 then if isLeap year then 29 else 28
  else if month = 4 ∨ month = 6 ∨ month = 9 ∨ month = 11 then 30
  else 31

def date? (cs : List Char) : Option (List Char) := do
  let (year, cs) ← fixedNumber 4 0 9999 cs
  let cs ← startsWith? ['-'] cs
  let (month, cs) ← fixedNumber 2 1 12 cs
  let cs ← startsWith? ['-'] cs
  let (_, cs) ← fixedNumber 2 1 (daysIn year month) cs
  return cs

def time? (cs : List Char) : Option (List Char) := do
  let (_, cs) ← fixedNumber 2 0 23 cs
  let cs ← startsWith? [':'] cs
  let (_, cs) ← fixedNumber 2 0 59 cs
  let cs ← startsWith? [':'] cs
  let (_, cs) ← fixedNumber 2 0 60 cs
  match cs with
  | '.' :: rest =>
    let fraction := rest.takeWhile Char.isDigit
    if fraction = [] then none else return rest.dropWhile Char.isDigit
  | _ => return cs

def zone? : List Char → Option (List Char)
  | 'Z' :: rest | 'z' :: rest => some rest
  | '+' :: rest | '-' :: rest => do
    let (_, cs) ← fixedNumber 2 0 23 rest
    let cs ← startsWith? [':'] cs
    let (_, cs) ← fixedNumber 2 0 59 cs
    return cs
  | _ => none

def timeAfterDate (cs : List Char) : List Char :=
  match cs with
  | c :: rest =>
    if c = 'T' || c = 't' || c = ' ' then
      match time? rest with
      | some after => (zone? after).getD after
      | none => cs
    else cs
  | [] => []

def dateTime : Reader Node := fun cs =>
  match date? cs with
  | some rest =>
    let rest := timeAfterDate rest
    some (.dateTime (written cs rest), rest)
  | none => (time? cs).map fun rest => (.dateTime (written cs rest), rest)

def arrayItems (value : Reader Node) : (fuel : Nat) → (read : List Node) → Reader Node
  | 0, _, _ => none
  | fuel + 1, read, cs =>
    match blanks cs with
    | ']' :: rest => some (.array read.reverse, rest)
    | cs =>
      match value cs with
      | none => none
      | some (item, rest) =>
        match blanks rest with
        | ',' :: rest => arrayItems value fuel (item :: read) rest
        | ']' :: rest => some (.array (item :: read).reverse, rest)
        | _ => none

def keyValue (value : Reader Node) : Reader ((List String × String) × Node) := fun cs =>
  match key cs with
  | some (k, '=' :: rest) =>
    match value (spaces rest) with
    | some (v, rest) => some ((k, v), rest)
    | none => none
  | _ => none

def inlineEntries (value : Reader Node) : (fuel : Nat) → Entries → Reader Node
  | 0, _, _ => none
  | fuel + 1, entries, cs =>
    match keyValue value cs with
    | none => none
    | some (((path, last), v), rest) =>
      match entries.assign path last v with
      | none => none
      | some entries =>
        match spaces rest with
        | ',' :: rest => inlineEntries value fuel entries rest
        | '}' :: rest => some (.table .inline entries, rest)
        | _ => none

/-- Reads a value with at most `depth` levels of nesting. -/
def value : (depth : Nat) → Reader Node
  | 0, _ => none
  | depth + 1, cs =>
    match cs with
    | '[' :: rest => arrayItems (value depth) (rest.length + 1) [] rest
    | '{' :: rest =>
      match spaces rest with
      | '}' :: rest => some (.table .inline [], rest)
      | rest => inlineEntries (value depth) (rest.length + 1) [] rest
    | 't' :: 'r' :: 'u' :: 'e' :: rest => some (.boolean true, rest)
    | 'f' :: 'a' :: 'l' :: 's' :: 'e' :: rest => some (.boolean false, rest)
    | c :: _ =>
      if c = '"' || c = apostrophe then (text cs).map fun (s, rest) => (.text s, rest)
      else (dateTime cs).or ((float cs).or (integer cs))
    | [] => none

def maxDepth : Nat := 80

structure Progress where
  root : Entries
  current : List String

def line (p : Progress) (cs : List Char) : Option (Progress × List Char) :=
  match spaces cs with
  | '[' :: '[' :: rest =>
    match key rest with
    | some ((path, last), ']' :: ']' :: rest) => do
      let root ← p.root.under path (Entries.openNext last)
      return (⟨root, path ++ [last]⟩, ← lineEnd? rest)
    | _ => none
  | '[' :: rest =>
    match key rest with
    | some ((path, last), ']' :: rest) => do
      let root ← p.root.under path (Entries.openTable last)
      return (⟨root, path ++ [last]⟩, ← lineEnd? rest)
    | _ => none
  | cs =>
    match lineEnd? cs with
    | some rest => some (p, rest)
    | none => do
      let (((path, last), v), rest) ← keyValue (value maxDepth) cs
      let root ← p.root.under p.current (Entries.assign path last v)
      return ({ p with root := root }, ← lineEnd? rest)

def lines : (fuel : Nat) → Progress → List Char → Option Entries
  | 0, _, _ => none
  | fuel + 1, p, cs =>
    if cs = [] then some p.root
    else match line p cs with
      | some (p, rest) => lines fuel p rest
      | none => none

end Read

/-- The entries of a document, or none if the text is no TOML. A byte order mark in front is
ignored. -/
def read? (s : String) : Option Entries :=
  let cs := match s.toList with
    | '\ufeff' :: rest => rest
    | cs => cs
  Read.lines (cs.length + 1) ⟨[], []⟩ cs

end Concord.Toml
