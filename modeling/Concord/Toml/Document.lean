/-!
TOML documents as trees, and the rules by which headers and dotted keys build them. A table may be
made by its header, by the header or dotted key of something inside it, or inline; what may be
added to it later depends on that.
-/

namespace Concord.Toml

/-- A table comes of its own header, of a longer header, of a dotted key, or of an inline table. -/
inductive Origin
  | header
  | implied
  | dotted
  | inline
deriving DecidableEq, Repr

inductive Node
  | text (s : String)
  | integer (i : Int)
  | boolean (b : Bool)
  | float (written : String)
  | dateTime (written : String)
  | array (items : List Node)
  | table (origin : Origin) (entries : List (String × Node))
  /-- Tables with one header, of which the last can still grow. -/
  | tables (items : List (List (String × Node)))
deriving Inhabited

abbrev Entries := List (String × Node)

namespace Entries

def get? (entries : Entries) (key : String) : Option Node := entries.lookup key

def set (entries : Entries) (key : String) (node : Node) : Entries :=
  if (entries.lookup key).isSome then
    entries.map fun e => if e.1 = key then (key, node) else e
  else entries ++ [(key, node)]

def define (entries : Entries) (key : String) (node : Node) : Option Entries :=
  if (entries.lookup key).isSome then none else some (entries ++ [(key, node)])

def changeLast (f : Entries → Option Entries) : List Entries → Option (List Entries)
  | [] => none
  | [last] => (f last).map fun e => [e]
  | first :: rest => (changeLast f rest).map (first :: ·)

/-- Changes the table at the end of a path of headers. Missing tables are created, and an array of
tables is entered through its last. -/
def under : (path : List String) → (f : Entries → Option Entries) → Entries → Option Entries
  | [], f, entries => f entries
  | key :: path, f, entries =>
    match entries.get? key with
    | none => (under path f []).map fun e => entries.set key (.table .implied e)
    | some (.table .inline _) => none
    | some (.table origin inner) =>
      (under path f inner).map fun e => entries.set key (.table origin e)
    | some (.tables items) =>
      (changeLast (under path f) items).map fun items => entries.set key (.tables items)
    | some _ => none

/-- Defines a value under a dotted key. Missing tables are created, and only tables made by dotted
keys are entered. -/
def defineDotted : (path : List String) → (key : String) → Node → (within : Origin) → Entries →
    Option Entries
  | [], key, node, within, entries =>
    if within = .dotted then entries.define key node else none
  | step :: path, key, node, _, entries =>
    match entries.get? step with
    | none =>
      (defineDotted path key node .dotted []).map fun e => entries.set step (.table .dotted e)
    | some (.table origin inner) =>
      if origin = .dotted ∨ origin = .implied then
        (defineDotted path key node origin inner).map fun e => entries.set step (.table origin e)
      else none
    | some (.tables items) =>
      (changeLast (defineDotted path key node .header) items).map fun items =>
        entries.set step (.tables items)
    | some _ => none

def assign (path : List String) (key : String) (node : Node) (entries : Entries) :
    Option Entries :=
  if path = [] then entries.define key node else defineDotted path key node .header entries

def openTable (key : String) (entries : Entries) : Option Entries :=
  match entries.get? key with
  | none => some (entries.set key (.table .header []))
  | some (.table .implied inner) => some (entries.set key (.table .header inner))
  | some _ => none

def openNext (key : String) (entries : Entries) : Option Entries :=
  match entries.get? key with
  | none => some (entries.set key (.tables [[]]))
  | some (.tables items) => some (entries.set key (.tables (items ++ [[]])))
  | some _ => none

end Entries

end Concord.Toml
