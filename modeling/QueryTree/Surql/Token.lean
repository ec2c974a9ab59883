import QueryTree.Text.Basic

/-!
# Names and quoted text in a query

A name that is a plain word stands bare. Any other name is put into back-ticks, or into double
quotes where it is the key of an object.
-/

namespace QueryTree.Surql.Token

/-- Whether `name` can stand bare: a word of ASCII letters, digits and underscores that does not
begin with a digit. -/
def isPlain (name : String) : Bool :=
  match name.toList with
  | [] => false
  | c :: cs => !c.isDigit && (c :: cs).all Text.isWordChar

/-- A character inside double quotes: `\` and `"` come after a backslash. -/
def escapeQuoted (c : Char) : List Char :=
  if c == '\\' || c == '"' then ['\\', c] else [c]

/-- Text in double quotes. -/
def quote (s : String) : String :=
  "\"" ++ String.ofList (s.toList.flatMap escapeQuoted) ++ "\""

/-- A character inside back-ticks: the back-tick comes after a backslash. -/
def escapeTicked (c : Char) : List Char :=
  if c == '\x60' then ['\\', c] else [c]

/-- The name of a table, a column or a label. -/
def ident (name : String) : String :=
  if isPlain name then name
  else "\x60" ++ String.ofList (name.toList.flatMap escapeTicked) ++ "\x60"

/-- The key of an object. -/
def objectKey (key : String) : String :=
  if isPlain key then key else quote key

/-- `c` as text: the double quote is put into single quotes. -/
def char (c : Char) : String :=
  if c == '"' then "'\"'" else quote (String.singleton c)

end QueryTree.Surql.Token
