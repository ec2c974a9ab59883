import QueryTree.Number.FloatText
import QueryTree.Surql.Basic
import QueryTree.Surql.Token

/-!
# The text of a query

Operands are put into parentheses only where the text would read differently without them: an
operation inside another one, a negated number that would open a comment, the start of a path
that is not a single token.
-/

namespace QueryTree.Surql

/-- The name of a constant. -/
def Constant.text : Constant → String
  | .mathPi => "math::PI"
  | .mathE => "math::E"
  | .mathTau => "math::TAU"
  | .mathInf => "math::INF"
  | .mathNegInf => "math::NEG_INF"
  | .timeMinimum => "time::MINIMUM"
  | .timeMaximum => "time::MAXIMUM"
  | .durationMax => "duration::MAX"

/-- The sign of an operator. -/
def UnaryOp.text : UnaryOp → String
  | .not => "!"
  | .neg => "-"

/-- The sign of an operator. -/
def BinaryOp.text : BinaryOp → String
  | .and => "&&"
  | .or => "||"
  | .add => "+"
  | .sub => "-"
  | .mul => "*"
  | .div => "/"
  | .mod => "%"
  | .pow => "**"
  | .equal => "=="
  | .notEqual => "!="
  | .lessThan => "<"
  | .lessThanOrEqual => "<="
  | .moreThan => ">"
  | .moreThanOrEqual => ">="
  | .coalesce => "??"
  | .contains => "CONTAINS"

/-- The name of a type to cast to. -/
def CastKind.text : CastKind → String
  | .bool => "bool"
  | .int => "int"
  | .float => "float"
  | .decimal => "decimal"
  | .string => "string"
  | .duration => "duration"
  | .number => "number"
  | .uuid => "uuid"
  | .regex => "regex"
  | .record => "record"
  | .set => "set"
  | .array => "array"

/-- A float. One that is not finite has no digits and is written by its name. -/
def floatText (parts : Number.FloatParts) : String :=
  match parts with
  | .infinity false => Constant.mathInf.text
  | .infinity true => Constant.mathNegInf.text
  | other => other.display

def Numeral.text : Numeral → String
  | .int n => toString n.toInt
  | .uint n => Nat.repr n.toNat
  | .float x => floatText (Number.parts x)
  | .float32 x => floatText (Number.parts32 x)
  | .decimal d => d.text ++ "dec"

/-- Whether the text of a number begins with a sign. -/
def Numeral.isNegative : Numeral → Bool
  | .int n => n < 0
  | .uint _ => false
  | .float x => (Number.parts x).isNegative
  | .float32 x => (Number.parts32 x).isNegative
  | .decimal d => d.negative

def parens (s : String) : String := "(" ++ s ++ ")"

/-- `s`, in parentheses if `needed`. -/
def parensIf (needed : Bool) (s : String) : String :=
  if needed then parens s else s

def commas (items : List String) : String := Text.joinWith ", " items

namespace Term

/-- Whether a term needs parentheses as an operand of a `binary` operator. -/
def looseInBinary : Term → Bool
  | .binary _ _ _ | .cast _ _ => true
  | _ => false

/-- Whether a term needs parentheses after a `cast` or an operator in front of it. -/
def looseAfterSign : Term → Bool
  | .binary _ _ _ | .range _ _ => true
  | _ => false

/-- Whether `t` needs parentheses after `op`. A minus must not be followed by another one, which
would open a comment. -/
def looseUnder (op : UnaryOp) (t : Term) : Bool :=
  match op, t with
  | .neg, .unary _ _ => true
  | .neg, .number n => n.isNegative
  | _, t => t.looseAfterSign

/-- Whether a term needs parentheses as an end of a `range`. -/
def looseInRange : Term → Bool
  | .number _ | .param _ | .path _ | .call _ _ => false
  | _ => true

/-- Whether a term needs parentheses as the start of a `path`. -/
def looseAtStart : Term → Bool
  | .param _ | .call _ _ | .array _ | .object _ | .constant _ | .subquery _ | .path _ => false
  | _ => true

/-- Whether a term is just the field `name` of the current row. -/
def isField (name : String) : Term → Bool
  | .path [.field f] => f == name
  | _ => false

end Term

/-- What comes after a column: its label, unless the column has that name anyway. -/
def Column.labelText : Column → String
  | ⟨_, none⟩ => ""
  | ⟨t, some label⟩ => if t.isField label then "" else " AS " ++ Token.ident label

mutual

/-- The text of a term. -/
def Term.text : Term → String
  | .absent => "NONE"
  | .null => "null"
  | .bool b => if b then "true" else "false"
  | .number n => n.text
  | .string s => Token.quote s
  | .char c => Token.char c
  | .duration d => d.text
  | .dateTime t => "d\"" ++ t.text ++ "\""
  | .guid g => "u\"" ++ g.text ++ "\""
  | .point x y => parens ((Number.parts x).display ++ ", " ++ (Number.parts y).display)
  | .array items => "[" ++ commas (Term.texts items) ++ "]"
  | .object [] => "\x7b\x7d"
  | .object (m :: members) => "\x7b " ++ commas (Term.memberTexts (m :: members)) ++ " \x7d"
  | .param name => "$" ++ name
  | .path parts => Part.texts true parts
  | .constant c => c.text
  | .call function args => function ++ parens (commas (Term.texts args))
  | .unary op operand => op.text ++ parensIf (operand.looseUnder op) operand.text
  | .binary left op right =>
    parensIf left.looseInBinary left.text ++ " " ++ op.text ++ " " ++
      parensIf right.looseInBinary right.text
  | .cast kind operand => "<" ++ kind.text ++ "> " ++ parensIf operand.looseAfterSign operand.text
  | .range first last =>
    parensIf first.looseInRange first.text ++ ".." ++ parensIf last.looseInRange last.text
  | .subquery s => parens s.text
termination_by structural t => t

def Term.texts : List Term → List String
  | [] => []
  | t :: ts => t.text :: Term.texts ts
termination_by structural ts => ts

def Term.memberTexts : List (String × Term) → List String
  | [] => []
  | (key, t) :: members => (Token.objectKey key ++ ": " ++ t.text) :: Term.memberTexts members
termination_by structural ms => ms

/-- The text of a path. A field at its beginning has no point in front. -/
def Part.texts (first : Bool) : List Part → String
  | [] => ""
  | part :: parts =>
    (match part with
      | .start t => parensIf t.looseAtStart t.text
      | .field name => if first then Token.ident name else "." ++ Token.ident name
      | .parent => ".$parent"
      | .index n => "[" ++ toString n.toInt ++ "]"
      | .item t => "[" ++ t.text ++ "]"
      | .method name args => "." ++ name ++ parens (commas (Term.texts args))) ++
      Part.texts false parts
termination_by structural parts => parts

def Column.texts : List Column → List String
  | [] => []
  | ⟨t, label⟩ :: columns => (t.text ++ Column.labelText ⟨t, label⟩) :: Column.texts columns
termination_by structural columns => columns

/-- The text of what a statement puts out. No columns at all stand for the whole row. -/
def Columns.text : Columns → String
  | .all => "*"
  | .value t => "VALUE " ++ t.text
  | .list [] => "*"
  | .list (c :: columns) => commas (Column.texts (c :: columns))
termination_by structural c => c

/-- The text of what a statement reads. -/
def Target.text : Target → String
  | .table name => Token.ident name
  | .subquery s => parens s.text
termination_by structural t => t

/-- The text of an order, level by level. -/
def OrderBy.texts : List OrderBy → List String
  | [] => []
  | ⟨t, descending⟩ :: order =>
    (t.text ++ if descending then " DESC" else "") :: OrderBy.texts order
termination_by structural order => order

/-- A clause with a term; nothing without one. -/
def Term.clauseText (keyword : String) : Option Term → String
  | none => ""
  | some t => keyword ++ t.text
termination_by structural t => t

/-- The clause that groups rows; nothing without keys. -/
def GroupBy.clauseText : Option GroupBy → String
  | none => ""
  | some .all => " GROUP ALL"
  | some (.keys []) => ""
  | some (.keys (t :: terms)) => " GROUP BY " ++ commas (Term.texts (t :: terms))
termination_by structural g => g

/-- The text of a statement, its clauses in the order the language wants. -/
def Statement.text : Statement → String
  | ⟨columns, target, only, cond, group, order, limit, start⟩ =>
    "SELECT " ++ columns.text ++ (if only then " FROM ONLY " else " FROM ") ++ target.text ++
      Term.clauseText " WHERE " cond ++ GroupBy.clauseText group ++
      (if order.isEmpty then "" else " ORDER BY " ++ commas (OrderBy.texts order)) ++
      Term.clauseText " LIMIT " limit ++ Term.clauseText " START " start
termination_by structural s => s

end

def Query.text : Query → String
  | .statement s => s.text
  | .term t => t.text

end QueryTree.Surql
