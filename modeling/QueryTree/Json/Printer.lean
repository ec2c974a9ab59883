import QueryTree.Json.Basic
import QueryTree.Number.FloatText

/-!
# Writing JSON

The compact form, and the indented form with one item a line. Both quote text the same way: quotes,
backslashes and control characters are escaped and everything else is written as it is.
-/

namespace QueryTree.Json

/-- One character inside a JSON string. -/
def escapeChar (c : Char) : List Char :=
  match c with
  | '"' => ['\\', '"']
  | '\\' => ['\\', '\\']
  | '\n' => ['\\', 'n']
  | '\r' => ['\\', 'r']
  | '\t' => ['\\', 't']
  | '\x08' => ['\\', 'b']
  | '\x0c' => ['\\', 'f']
  | c => if c.toNat < 0x20 then '\\' :: 'u' :: Text.hexDigits 4 c.toNat else [c]

def quoted (s : String) : String :=
  "\"" ++ String.ofList (s.toList.flatMap escapeChar) ++ "\""

mutual

/-- The compact text of a value. -/
def compact : Json → String
  | .null => "null"
  | .bool b => if b then "true" else "false"
  | .int n => toString n
  | .float x => (Number.parts x).json
  | .string s => quoted s
  | .array items => "[" ++ Text.joinWith "," (compactItems items) ++ "]"
  | .object members => "\x7b" ++ Text.joinWith "," (compactMembers members) ++ "\x7d"
termination_by structural j => j

def compactItems : List Json → List String
  | [] => []
  | item :: items => compact item :: compactItems items
termination_by structural items => items

def compactMembers : List (String × Json) → List String
  | [] => []
  | (name, value) :: members => (quoted name ++ ":" ++ compact value) :: compactMembers members
termination_by structural members => members

end

/-- A line break and an indentation of two spaces a level. -/
def lineBreak (level : Nat) : String :=
  "\n" ++ String.ofList (List.replicate (2 * level) ' ')

/-- What stands between two brackets, one item a line; nothing if `items` is empty. -/
def block (level : Nat) (items : List String) : String :=
  if items.isEmpty then ""
  else lineBreak (level + 1) ++ Text.joinWith ("," ++ lineBreak (level + 1)) items ++
    lineBreak level

mutual

/-- The indented text of a value at `level` of nesting. -/
def indented (level : Nat) : Json → String
  | .null => "null"
  | .bool b => if b then "true" else "false"
  | .int n => toString n
  | .float x => (Number.parts x).json
  | .string s => quoted s
  | .array items => "[" ++ block level (indentedItems (level + 1) items) ++ "]"
  | .object members => "\x7b" ++ block level (indentedMembers (level + 1) members) ++ "\x7d"
termination_by structural j => j

def indentedItems (level : Nat) : List Json → List String
  | [] => []
  | item :: items => indented level item :: indentedItems level items
termination_by structural items => items

def indentedMembers (level : Nat) : List (String × Json) → List String
  | [] => []
  | (name, value) :: members =>
    (quoted name ++ ": " ++ indented level value) :: indentedMembers level members
termination_by structural members => members

end

/-- The indented text of a value. -/
def pretty (j : Json) : String :=
  indented 0 j

mutual

/-- The value with the members of every object in the order of their names. -/
def sorted : Json → Json
  | .array items => .array (sortedItems items)
  | .object members => .object ((sortedMembers members).mergeSort fun a b => !(b.1 < a.1))
  | j => j
termination_by structural j => j

def sortedItems : List Json → List Json
  | [] => []
  | item :: items => sorted item :: sortedItems items
termination_by structural items => items

def sortedMembers : List (String × Json) → List (String × Json)
  | [] => []
  | (name, value) :: members => (name, sorted value) :: sortedMembers members
termination_by structural members => members

end

end QueryTree.Json
