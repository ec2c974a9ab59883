import QueryTree.Text.Basic

/-!
# Writing TOML

Text is put into the plainest quotes that hold it: double quotes if nothing in it needs a backslash,
else single quotes, else triple quotes of either kind, and double quotes with backslashes at last.
-/

namespace QueryTree.Toml

/-- The length of the longest run of `c`, after a run of length `current`. -/
def longestRun (c : Char) : (current : Nat) → List Char → Nat
  | current, [] => current
  | current, d :: cs =>
    if d == c then longestRun c (current + 1) cs else max current (longestRun c 0 cs)

/-- Whether `c` can only be written by its number or letter: control characters except the tab and
the end of a line. -/
def isControl (c : Char) : Bool :=
  c != '\t' && c != '\n' && (c.toNat ≤ 0x1F || c.toNat == 0x7F)

/-- The quotes around a text. -/
inductive Quotes where
  | basic
  | literal
  | longBasic
  | longLiteral
deriving DecidableEq, Repr

/-- The plainest quotes that hold `cs`. -/
def quotesFor (cs : List Char) : Quotes :=
  let singles := longestRun '\'' 0 cs
  let doubles := longestRun '"' 0 cs
  let backslash := cs.contains '\\'
  let lines := cs.contains '\n'
  let control := cs.any isControl
  if !control && !backslash && doubles == 0 && !lines then .basic
  else if !control && singles == 0 && !lines then .literal
  else if !control && !backslash && doubles ≤ 2 then .longBasic
  else if !control && singles ≤ 2 then .longLiteral
  else if lines then .longBasic
  else .basic

/-- A character between double quotes. -/
def escaped (long : Bool) (c : Char) : List Char :=
  match c with
  | '\x08' => ['\\', 'b']
  | '\t' => ['\\', 't']
  | '\n' => if long then ['\n'] else ['\\', 'n']
  | '\x0c' => ['\\', 'f']
  | '\r' => ['\\', 'r']
  | '\\' => ['\\', '\\']
  | c => if isControl c then '\\' :: 'u' :: (Text.hexDigits 4 c.toNat).map Char.toUpper else [c]

/-- Text between double quotes; `allowed` quotes may come together without a backslash, `seen` of
which have come. -/
def escapedText (long : Bool) (allowed : Nat) : (seen : Nat) → List Char → List Char
  | _, [] => []
  | seen, '"' :: cs =>
    if seen < allowed then '"' :: escapedText long allowed (seen + 1) cs
    else '\\' :: '"' :: escapedText long allowed 0 cs
  | _, c :: cs => escaped long c ++ escapedText long allowed 0 cs

/-- The text of a string. Text over several lines begins on a line of its own. -/
def stringText (s : String) : String :=
  let cs := s.toList
  let start := if cs.contains '\n' then "\n" else ""
  match quotesFor cs with
  | .basic => "\"" ++ String.ofList (escapedText false 0 0 cs) ++ "\""
  | .literal => "'" ++ s ++ "'"
  | .longBasic => "\"\"\"" ++ start ++ String.ofList (escapedText true 2 0 cs) ++ "\"\"\""
  | .longLiteral => "'''" ++ start ++ s ++ "'''"

/-- The text of an array of strings: two or more have a line each. -/
def stringsText : List String → String
  | [] => "[]"
  | [s] => "[" ++ stringText s ++ "]"
  | ss => "[\n" ++ String.join (ss.map fun s => "    " ++ stringText s ++ ",\n") ++ "]"

end QueryTree.Toml
