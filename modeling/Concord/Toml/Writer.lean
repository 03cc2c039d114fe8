/-!
Texts as TOML writes them: between double quotes where nothing has to be escaped, else between
single quotes, else over several lines, and with escapes only if all of these fail.
-/

namespace Concord.Toml.Write

def apostrophe : Char := Char.ofNat 39

def longestRun (c : Char) (cs : List Char) : Nat :=
  (cs.foldl (fun (best, run) d => if d = c then (max best (run + 1), run + 1) else (best, 0))
    (0, 0)).1

def needsCode (c : Char) : Bool :=
  (c.toNat ≤ 0x1F && c ≠ '\t' && c ≠ '\n') || c.toNat = 0x7F

def hex4 (n : Nat) : List Char :=
  let digits := (Nat.toDigits 16 n).map Char.toUpper
  List.replicate (4 - digits.length) '0' ++ digits

/-- One character between double quotes; over several lines, line feeds stand for themselves. -/
def escape (long : Bool) (c : Char) : List Char :=
  if c = '\x08' then ['\\', 'b']
  else if c = '\t' then ['\\', 't']
  else if c = '\n' then if long then ['\n'] else ['\\', 'n']
  else if c = '\x0c' then ['\\', 'f']
  else if c = '\r' then ['\\', 'r']
  else if c = '\\' then ['\\', '\\']
  else if needsCode c then '\\' :: 'u' :: hex4 c.toNat
  else [c]

/-- Escapes a text, and in every run of quotes those after the first `allowed`. -/
def escapeAll (long : Bool) (allowed : Nat) : (run : Nat) → List Char → List Char
  | _, [] => []
  | run, c :: rest =>
    if c = '"' then
      if run < allowed then '"' :: escapeAll long allowed (run + 1) rest
      else '\\' :: '"' :: escapeAll long allowed 0 rest
    else escape long c ++ escapeAll long allowed 0 rest

def text (s : String) : String :=
  let cs := s.toList
  let codes := cs.any needsCode
  let backslash := cs.contains '\\'
  let doubles := longestRun '"' cs
  let singles := longestRun apostrophe cs
  let broken := cs.contains '\n'
  let start := if broken then ['\n'] else []
  let basic := ['"'] ++ escapeAll false 0 0 cs ++ ['"']
  let longQuotes := ['"', '"', '"']
  let longBasic := longQuotes ++ start ++ escapeAll true 2 0 cs ++ longQuotes
  let longMarks := [apostrophe, apostrophe, apostrophe]
  String.ofList <|
    if !codes && !backslash && doubles = 0 && !broken then basic
    else if !codes && singles = 0 && !broken then [apostrophe] ++ cs ++ [apostrophe]
    else if !codes && !backslash && doubles ≤ 2 then longBasic
    else if !codes && singles ≤ 2 then longMarks ++ start ++ cs ++ longMarks
    else if broken then longBasic
    else basic

end Concord.Toml.Write
