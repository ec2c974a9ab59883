import QueryTree.Toml.Basic
import QueryTree.Toml.Scan

/-!
# Reading TOML
-/

namespace QueryTree.Toml

open Scan

/-- The text that `scan` takes. -/
def taken (scan : Scan Unit) : Scan String := do
  let before ← get
  scan
  return String.ofList (before.take (before.length - (← get).length))

/-- Takes a number, a date or a time. -/
def numberOrDate : Scan Item :=
  (do return .dateTime (← taken dateTime)) <|> do
    let before ← get
    match ← number with
    | .integer n => return .integer n
    | .float => return .float (String.ofList (before.take (before.length - (← get).length)))

/-- Takes the items of an array up to its end. A comma may follow the last one. -/
def arrayRest (value : Scan Item) : (fuel : Nat) → Scan (List Item)
  | 0 => failure
  | fuel + 1 => do
    layout
    if ← markIf ']' then return []
    let item ← value
    layout
    if ← markIf ',' then return item :: (← arrayRest value fuel)
    mark ']'
    return [item]

/-- Takes an entry: a key and what it stands for. -/
def entry (value : Scan Item) : Scan (List String × String × Item) := do
  let (path, name) ← key
  mark '='
  spaces
  return (path, name, ← value)

/-- Takes further entries of a table that is written in one place, up to its end. -/
def inlineRest (value : Scan Item) : (fuel : Nat) → Scan (List (List String × String × Item))
  | 0 => failure
  | fuel + 1 => do
    let pair ← entry value
    spaces
    if ← markIf ',' then return pair :: (← inlineRest value fuel)
    mark '\x7d'
    return [pair]

/-- Takes a table that is written in one place, after its beginning. -/
def inlineTable (value : Scan Item) : Scan Item := do
  spaces
  let pairs ← if ← markIf '\x7d' then pure [] else inlineRest value ((← get).length + 1)
  match Table.ofPairs? pairs with
  | some t => return .inline t
  | none => failure

/-- Takes a value that holds no others. -/
def scalar : Scan Item := do
  match ← peek with
  | some '"' | some '\'' => return .string (← text)
  | some 't' => do exactly "true"; return .boolean true
  | some 'f' => do exactly "false"; return .boolean false
  | _ => numberOrDate

/-- Takes a value with at most `depth` levels of arrays and tables inside each other. -/
def value : (depth : Nat) → Scan Item
  | 0 => scalar
  | depth + 1 => do
    match ← peek with
    | some '[' => do
      mark '['
      return .array (← arrayRest (value depth) ((← get).length + 1))
    | some '\x7b' => do
      mark '\x7b'
      inlineTable (value depth)
    | _ => scalar

/-- Takes a header, after its first bracket. -/
def header : Scan Line := do
  if ← markIf '[' then
    let (path, name) ← key
    exactly "]]"
    return .nextHeader path name
  else
    let (path, name) ← key
    mark ']'
    return .header path name

/-- Takes the lines of a document. -/
def lines : (fuel : Nat) → Scan (List Line)
  | 0 => failure
  | fuel + 1 => do
    spaces
    match ← peek with
    | none => return []
    | some '#' => do
      comment
      lineEnd
      lines fuel
    | some '\n' | some '\r' => do
      newline
      lines fuel
    | some '[' => do
      mark '['
      let line ← header
      lineRest
      return line :: (← lines fuel)
    | some _ => do
      let (path, name, item) ← entry (value maxDepth)
      lineRest
      return .entry path name item :: (← lines fuel)

/-- Reads a document. A byte-order mark may stand before it. -/
def read? (s : String) : Option Table := do
  let cs := match s.toList with
    | '\ufeff' :: cs => cs
    | cs => cs
  let (found, _) ← lines (cs.length + 1) |>.run cs
  let document ← Document.ofLines? found
  return document.root

end QueryTree.Toml
