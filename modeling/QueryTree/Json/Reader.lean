import QueryTree.Json.Number

/-!
# Reading JSON

Text is cut into tokens by a machine that takes one character at a time, and tokens are put together
by a machine that holds the open arrays and objects on a stack. Both are folds, so reading is total
and needs no bound; how deeply values may nest is a parameter.
-/

namespace QueryTree.Json

/-- The pieces of JSON text. -/
inductive Token where
  | openObject
  | closeObject
  | openArray
  | closeArray
  | colon
  | comma
  | text (s : String)
  /-- A number, a truth value or `null`. -/
  | atom (j : Json)

/-! ## Tokens -/

/-- What the lexer is in the middle of. Characters read so far are held in reverse. -/
inductive LexState where
  | idle
  | word (read : List Char)
  | text (read : List Char)
  /-- After a backslash. -/
  | escape (read : List Char)
  /-- In the four digits of an escape; `pending` is the first half of a surrogate pair. -/
  | code (read : List Char) (pending : Option Nat) (count value : Nat)
  /-- After the half `high` of a surrogate pair: a backslash must follow. -/
  | pair (read : List Char) (high : Nat)
  /-- After the backslash of the second half: a `u` must follow. -/
  | pairMark (read : List Char) (high : Nat)

/-- The lexer's state and the tokens found, latest first. -/
structure Lexer where
  state : LexState := .idle
  found : List Token := []

/-- The value of a bare word. -/
def atom? (cs : List Char) : Option Json :=
  if cs == "true".toList then some (.bool true)
  else if cs == "false".toList then some (.bool false)
  else if cs == "null".toList then some .null
  else number? cs

def isSpace (c : Char) : Bool :=
  c == ' ' || c == '\n' || c == '\r' || c == '\t'

/-- A character between tokens. -/
def lexIdle (found : List Token) (c : Char) : Lexer :=
  if isSpace c then ⟨.idle, found⟩
  else match c with
    | '\x7b' => ⟨.idle, .openObject :: found⟩
    | '\x7d' => ⟨.idle, .closeObject :: found⟩
    | '[' => ⟨.idle, .openArray :: found⟩
    | ']' => ⟨.idle, .closeArray :: found⟩
    | ':' => ⟨.idle, .colon :: found⟩
    | ',' => ⟨.idle, .comma :: found⟩
    | '"' => ⟨.text [], found⟩
    | c => ⟨.word [c], found⟩

/-- Whether a character ends a bare word. -/
def endsWord (c : Char) : Bool :=
  isSpace c || ['\x7b', '\x7d', '[', ']', ':', ',', '"'].contains c

/-- The character a one-letter escape stands for. -/
def escape? : Char → Option Char
  | '"' => some '"'
  | '\\' => some '\\'
  | '/' => some '/'
  | 'b' => some '\x08'
  | 'f' => some '\x0c'
  | 'n' => some '\n'
  | 'r' => some '\r'
  | 't' => some '\t'
  | _ => none

/-- The end of a four-digit escape. Halves of a pair make one character; a half alone is none. -/
def lexCode (read : List Char) (pending : Option Nat) (value : Nat) : Option LexState :=
  match pending with
  | some high =>
    if 0xDC00 ≤ value && value < 0xE000 then
      some (.text (Char.ofNat (0x10000 + (high - 0xD800) * 0x400 + (value - 0xDC00)) :: read))
    else none
  | none =>
    if 0xD800 ≤ value && value < 0xDC00 then some (.pair read value)
    else if 0xDC00 ≤ value && value < 0xE000 then none
    else some (.text (Char.ofNat value :: read))

/-- Takes the character `c`. -/
def Lexer.step (l : Lexer) (c : Char) : Option Lexer :=
  match l.state with
  | .idle => some (lexIdle l.found c)
  | .word read =>
    if endsWord c then do
      let value ← atom? read.reverse
      return lexIdle (.atom value :: l.found) c
    else some ⟨.word (c :: read), l.found⟩
  | .text read =>
    if c == '"' then some ⟨.idle, .text (String.ofList read.reverse) :: l.found⟩
    else if c == '\\' then some ⟨.escape read, l.found⟩
    else if c.toNat < 0x20 then none
    else some ⟨.text (c :: read), l.found⟩
  | .escape read =>
    if c == 'u' then some ⟨.code read none 0 0, l.found⟩
    else (escape? c).map fun e => ⟨.text (e :: read), l.found⟩
  | .code read pending count value => do
    let value := value * 16 + (← Text.hexDigit? c)
    if count == 3 then return ⟨← lexCode read pending value, l.found⟩
    else return ⟨.code read pending (count + 1) value, l.found⟩
  | .pair read high => if c == '\\' then some ⟨.pairMark read high, l.found⟩ else none
  | .pairMark read high => if c == 'u' then some ⟨.code read (some high) 0 0, l.found⟩ else none

def tokens? (s : String) : Option (List Token) := do
  let l ← s.toList.foldlM Lexer.step {}
  match l.state with
  | .idle => return l.found.reverse
  | .word read => return (.atom (← atom? read.reverse) :: l.found).reverse
  | _ => none

/-! ## Values -/

/-- An array or object that is still open, with what it holds so far in reverse. -/
inductive Frame where
  | array (items : List Json)
  | object (members : List (String × Json)) (key : String)

/-- What may come next. -/
inductive Expect where
  | value
  | valueOrClose
  | key
  | keyOrClose
  | colon
  | commaOrClose
  | nothing

/-- The open arrays and objects, innermost first, and the whole value once it is complete. -/
structure Assembly where
  stack : List Frame := []
  expect : Expect := .value
  result : Option Json := none

/-- Puts the complete value `j` in its place. -/
def Assembly.put (a : Assembly) (j : Json) : Assembly :=
  match a.stack with
  | [] => ⟨[], .nothing, some j⟩
  | .array items :: stack => ⟨.array (j :: items) :: stack, .commaOrClose, none⟩
  | .object members key :: stack => ⟨.object ((key, j) :: members) "" :: stack, .commaOrClose, none⟩

/-- Opens `frame`, unless `limit` are open already. -/
def Assembly.push (limit : Option Nat) (a : Assembly) (frame : Frame) (expect : Expect) :
    Option Assembly :=
  if limit.any (· ≤ a.stack.length) then none else some ⟨frame :: a.stack, expect, none⟩

/-- Takes the token `t`. -/
def Assembly.step (limit : Option Nat) (a : Assembly) (t : Token) : Option Assembly :=
  let value? (t : Token) : Option Assembly :=
    match t with
    | .atom j => some (a.put j)
    | .text s => some (a.put (.string s))
    | .openArray => a.push limit (.array []) .valueOrClose
    | .openObject => a.push limit (.object [] "") .keyOrClose
    | _ => none
  let close? (t : Token) : Option Assembly :=
    match t, a.stack with
    | .closeArray, .array items :: stack =>
      some (Assembly.put ⟨stack, .value, none⟩ (.array items.reverse))
    | .closeObject, .object members _ :: stack =>
      some (Assembly.put ⟨stack, .value, none⟩ (.object members.reverse))
    | _, _ => none
  let key? (t : Token) : Option Assembly :=
    match t, a.stack with
    | .text s, .object members _ :: stack => some ⟨.object members s :: stack, .colon, none⟩
    | _, _ => none
  match a.expect with
  | .value => value? t
  | .valueOrClose => match t with
    | .closeArray => close? t
    | t => value? t
  | .key => key? t
  | .keyOrClose => match t with
    | .closeObject => close? t
    | t => key? t
  | .colon => match t with
    | .colon => some { a with expect := .value }
    | _ => none
  | .commaOrClose => match t, a.stack with
    | .comma, .array _ :: _ => some { a with expect := .value }
    | .comma, .object _ _ :: _ => some { a with expect := .key }
    | t, _ => close? t
  | .nothing => none

/-- Reads one JSON value, with at most `limit` arrays and objects open at a time. -/
def read? (limit : Option Nat) (s : String) : Option Json := do
  let a ← (← tokens? s).foldlM (Assembly.step limit) {}
  a.result

/-- How many arrays and objects may be open in a document from outside. -/
def documentDepth : Nat := 127

def readDocument? (s : String) : Option Json :=
  read? (some documentDepth) s

end QueryTree.Json
