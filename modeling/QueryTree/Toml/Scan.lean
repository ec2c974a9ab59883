import QueryTree.Text.Basic

/-!
# Reading the tokens of TOML

A scanner takes characters from the front of a text, or fails.
-/

namespace QueryTree.Toml

/-- Computations that take characters from the front of a text. -/
abbrev Scan := StateT (List Char) Option

namespace Scan

/-- The next character, which is not taken. -/
def peek : Scan (Option Char) := return (← get).head?

/-- Takes a character. -/
def next : Scan Char := fun
  | [] => none
  | c :: cs => some (c, cs)

/-- Takes the character `c`. -/
def mark (c : Char) : Scan Unit := do
  if (← next) == c then return () else failure

/-- Takes a character with `p` if one comes next; says whether it did. -/
def takeIf (p : Char → Bool) : Scan Bool := fun
  | [] => some (false, [])
  | c :: cs => if p c then some (true, cs) else some (false, c :: cs)

/-- Takes `c` if it comes next; says whether it did. -/
def markIf (c : Char) : Scan Bool :=
  takeIf (· == c)

/-- Takes the text `s`. -/
def exactly (s : String) : Scan Unit := fun cs =>
  (Text.strip? s.toList cs).map fun rest => ((), rest)

/-- Whether `s` comes next, which is not taken. -/
def ahead (s : String) : Scan Bool :=
  return (Text.strip? s.toList (← get)).isSome

/-- Takes characters with `p` as long as they come. -/
def takeWhile (p : Char → Bool) : Scan (List Char) := fun cs =>
  some (cs.takeWhile p, cs.dropWhile p)

/-- Takes a number of characters with `p`. -/
def count (p : Char → Bool) : Nat → Scan (List Char)
  | 0 => return []
  | n + 1 => do
    let c ← next
    if p c then return c :: (← count p n) else failure

/-! ## White space and comments -/

/-- Whether `c` may stand in comments and text: any but control characters, except the tab. -/
def isFree (c : Char) : Bool :=
  c == '\t' || (0x20 ≤ c.toNat && c.toNat != 0x7F)

/-- Whether a character is white space within a line. -/
def isSpace (c : Char) : Bool :=
  c == ' ' || c == '\t'

def spaces : Scan Unit := do
  let _ ← takeWhile isSpace

/-- Takes the end of a line. -/
def newline : Scan Unit := fun
  | '\n' :: cs => some ((), cs)
  | '\r' :: '\n' :: cs => some ((), cs)
  | _ => none

/-- Takes a comment if there is one. -/
def comment : Scan Unit := do
  if ← markIf '#' then
    let _ ← takeWhile isFree

/-- Takes the end of a line or of the text. -/
def lineEnd : Scan Unit := do
  if (← get).isEmpty then return () else newline

/-- Takes what may follow on a line, and its end. -/
def lineRest : Scan Unit := do
  spaces
  comment
  lineEnd

/-- The text after white space and ends of lines. -/
def dropLayout : List Char → List Char
  | '\n' :: cs => dropLayout cs
  | '\r' :: '\n' :: cs => dropLayout cs
  | c :: cs => if isSpace c then dropLayout cs else c :: cs
  | [] => []

/-- The text after white space, ends of lines and comments; `skipping` says that a comment is being
passed over. -/
def dropComments (skipping : Bool) : List Char → List Char
  | [] => []
  | '\r' :: '\n' :: cs => dropComments false cs
  | c :: cs =>
    if skipping && isFree c then dropComments true cs
    else if c == '\n' then dropComments false cs
    else if !skipping && isSpace c then dropComments false cs
    else if !skipping && c == '#' then dropComments true cs
    else c :: cs

/-- Takes white space, ends of lines and comments. -/
def layout : Scan Unit := modify (dropComments false)

/-! ## Text -/

/-- Takes the hexadecimal `digits` of a character. -/
def codePoint (digits : Nat) : Scan Char := do
  let ds ← count (fun c => (Text.hexDigit? c).isSome) digits
  match Text.hexadecimal? ds with
  | some n => if n.isValidChar then return Char.ofNat n else failure
  | none => failure

/-- Takes what follows a backslash. -/
def escape : Scan Char := do
  match ← next with
  | 'b' => return '\x08'
  | 't' => return '\t'
  | 'n' => return '\n'
  | 'f' => return '\x0c'
  | 'r' => return '\r'
  | '"' => return '"'
  | '\\' => return '\\'
  | 'u' => codePoint 4
  | 'U' => codePoint 8
  | _ => failure

/-- Takes the rest of text in double quotes. -/
def basicRest : (fuel : Nat) → Scan (List Char)
  | 0 => failure
  | fuel + 1 => do
    match ← next with
    | '"' => return []
    | '\\' => return (← escape) :: (← basicRest fuel)
    | c => if isFree c then return c :: (← basicRest fuel) else failure

/-- Takes the rest of text in single quotes, which knows no backslashes. -/
def literalRest : Scan (List Char) := do
  let cs ← takeWhile fun c => isFree c && c != '\''
  mark '\''
  return cs

/-- The number of quotes that belong to text over several lines, of those that come together, and
whether they end it: three end it, and up to two may stand before those. -/
def closingQuotes? : Nat → Option (Nat × Bool)
  | 0 => none
  | 1 => some (1, false)
  | 2 => some (2, false)
  | 3 => some (0, true)
  | 4 => some (1, true)
  | 5 => some (2, true)
  | _ => none

/-- `cs` after a backslash that ends a line, if it does. -/
def continued? (cs : List Char) : Option (List Char) := do
  let ((), rest) ← newline (cs.dropWhile isSpace)
  return dropLayout rest

/-- Takes the rest of text over several lines between triple `quote`s. -/
def longRest (quote : Char) (escapes : Bool) : (fuel : Nat) → Scan (List Char)
  | 0 => failure
  | fuel + 1 => do
    let quotes ← takeWhile (· == quote)
    match closingQuotes? quotes.length with
    | some (n, true) => return List.replicate n quote
    | some (n, false) => return List.replicate n quote ++ (← longRest quote escapes fuel)
    | none =>
      if !quotes.isEmpty then failure
      else if (← peek) == some '\n' || (← ahead "\r\n") then
        newline
        return '\n' :: (← longRest quote escapes fuel)
      else
        let c ← next
        if escapes && c == '\\' then
          match continued? (← get) with
          | some rest =>
            set rest
            longRest quote escapes fuel
          | none => return (← escape) :: (← longRest quote escapes fuel)
        else if isFree c then return c :: (← longRest quote escapes fuel)
        else failure

/-- Takes the end of the line right after triple quotes, which does not belong to the text. -/
def longStart : Scan Unit := do
  if (← peek) == some '\n' || (← ahead "\r\n") then newline

/-- Takes text in quotes of any kind. -/
def text : Scan String := do
  let fuel := (← get).length + 1
  if ← ahead "\"\"\"" then
    exactly "\"\"\""
    longStart
    return String.ofList (← longRest '"' true fuel)
  else if ← ahead "'''" then
    exactly "'''"
    longStart
    return String.ofList (← longRest '\'' false fuel)
  else if ← markIf '"' then return String.ofList (← basicRest fuel)
  else
    mark '\''
    return String.ofList (← literalRest)

/-! ## Keys -/

/-- Whether a character may stand in a key without quotes. -/
def isKeyChar (c : Char) : Bool :=
  Text.isWordChar c || c == '-'

/-- Takes one part of a key. -/
def keyPart : Scan String := do
  match ← peek with
  | some '"' => do
    mark '"'
    return String.ofList (← basicRest ((← get).length + 1))
  | some '\'' => do
    mark '\''
    return String.ofList (← literalRest)
  | _ =>
    let cs ← takeWhile isKeyChar
    if cs.isEmpty then failure else return String.ofList cs

/-- Takes the parts of a key, which are separated by points. -/
def keyParts : (fuel : Nat) → Scan (List String)
  | 0 => failure
  | fuel + 1 => do
    spaces
    let part ← keyPart
    spaces
    if ← markIf '.' then return part :: (← keyParts fuel) else return [part]

/-- The greatest depth that keys and values may have. -/
def maxDepth : Nat := 79

/-- Takes a key: the path before its last part, and that part. -/
def key : Scan (List String × String) := do
  let parts ← keyParts ((← get).length + 1)
  match parts.reverse with
  | last :: path => if parts.length ≤ maxDepth then return (path.reverse, last) else failure
  | [] => failure

/-! ## Numbers -/

/-- Digits with single underscores between them, and the rest of the text. -/
def digitRun (p : Char → Bool) : List Char → Option (List Char × List Char)
  | '_' :: d :: cs => if p d then (digitRun p cs).map fun (ds, rest) => (d :: ds, rest) else none
  | '_' :: [] => none
  | c :: cs =>
    if p c then (digitRun p cs).map fun (ds, rest) => (c :: ds, rest) else some ([], c :: cs)
  | [] => some ([], [])

/-- Takes digits that begin with a digit. -/
def digits (p : Char → Bool) : Scan (List Char) := do
  let d ← next
  if p d then return d :: (← digitRun p) else failure

/-- Takes digits without a leading zero, or one zero. -/
def plainDigits : Scan (List Char) := do
  if ← markIf '0' then return ['0'] else digits Char.isDigit

/-- Takes a sign; says whether it is a minus. -/
def sign : Scan Bool := do
  if ← markIf '-' then return true
  let _ ← markIf '+'
  return false

/-- Whether a number is too large for a 64-bit float: at least halfway from the largest one to the
next power of two. -/
def overflows (digits : Nat) (exponent : Int) : Bool :=
  let bound := (Nat.pow 2 54 - 1) * Nat.pow 2 970
  let places := (Nat.repr digits).length + exponent
  if digits == 0 || places < 300 then false
  else if 400 < places then true
  else if 0 ≤ exponent then bound ≤ digits * Nat.pow 10 exponent.toNat
  else bound * Nat.pow 10 (-exponent).toNat ≤ digits

/-- Takes the fraction of a number, if there is one. -/
def fraction : Scan (Option (List Char)) := do
  if ← markIf '.' then return some (← digits Char.isDigit) else return none

/-- Takes the exponent of a number, if there is one. -/
def exponent : Scan (Option Int) := do
  if ← takeIf (fun c => c == 'e' || c == 'E') then
    let negative ← sign
    let n := (Text.natural? (← digits Char.isDigit)).getD 0
    return some (if negative then -(n : Int) else n)
  else return none

/-- A number: its value if it is whole. The value of a float is of no concern. -/
inductive Numeral where
  | integer (n : Int)
  | float
deriving DecidableEq, Repr

/-- Whether `n` has 64 bits with a sign. -/
def fits (n : Int) : Bool :=
  -9223372036854775808 ≤ n && n ≤ 9223372036854775807

/-- The whole number, if it has 64 bits. -/
def integer (n : Int) : Scan Numeral :=
  if fits n then return .integer n else failure

/-- The number that digits of `base` denote. -/
def valueOf (base : Nat) (ds : List Char) : Nat :=
  ds.foldl (fun n c => n * base + (Text.hexDigit? c).getD 0) 0

/-- Takes a number in `base`, after `start`. -/
def based (start : String) (base : Nat) : Scan Numeral := do
  exactly start
  integer (valueOf base (← digits fun c => (Text.hexDigit? c).any (decide <| · < base)))

/-- Takes a number in base ten, whole or not. Only positive numbers can be too large for a float. -/
def decimal : Scan Numeral := do
  let negative ← sign
  if (← ahead "inf") || (← ahead "nan") then
    let _ ← count (fun _ => true) 3
    return .float
  let whole ← plainDigits
  let places ← fraction
  let power ← exponent
  match places, power with
  | none, none =>
    let n := valueOf 10 whole
    integer (if negative then -(n : Int) else n)
  | places, power =>
    let ds := places.getD []
    if !negative && overflows (valueOf 10 (whole ++ ds)) (power.getD 0 - ds.length) then failure
    else return .float

def number : Scan Numeral := do
  if ← ahead "0x" then based "0x" 16
  else if ← ahead "0o" then based "0o" 8
  else if ← ahead "0b" then based "0b" 2
  else decimal

/-! ## Dates and times -/

/-- Takes a number of `digits` digits from `low` to `high`. -/
def bounded (digits low high : Nat) : Scan Nat := do
  match Text.natural? (← count Char.isDigit digits) with
  | some n => if low ≤ n && n ≤ high then return n else failure
  | none => failure

def monthLength (year month : Nat) : Nat :=
  if month == 2 then
    if year % 4 == 0 && (year % 100 != 0 || year % 400 == 0) then 29 else 28
  else if month == 4 || month == 6 || month == 9 || month == 11 then 30
  else 31

def date : Scan Unit := do
  let year ← bounded 4 0 9999
  mark '-'
  let month ← bounded 2 1 12
  mark '-'
  let day ← bounded 2 1 31
  if monthLength year month < day then failure

def time : Scan Unit := do
  let _ ← bounded 2 0 23
  mark ':'
  let _ ← bounded 2 0 59
  mark ':'
  let _ ← bounded 2 0 60
  if ← markIf '.' then
    let ds ← takeWhile Char.isDigit
    if ds.isEmpty then failure

/-- Takes the offset of a time from universal time. -/
def offset : Scan Unit := do
  if ← takeIf (fun c => c == 'Z' || c == 'z') then return ()
  if ← takeIf (fun c => c == '+' || c == '-') then
    let _ ← bounded 2 0 23
    mark ':'
    let _ ← bounded 2 0 59
  else failure

/-- Takes the time that may follow a date. -/
def timeAfterDate : Scan Unit := do
  let c ← next
  if c == 'T' || c == 't' || c == ' ' then
    time
    offset <|> pure ()
  else failure

/-- Takes a date with or without a time, or a time. -/
def dateTime : Scan Unit :=
  (do date; timeAfterDate <|> pure ()) <|> time

end Scan

end QueryTree.Toml
