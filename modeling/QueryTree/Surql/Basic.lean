import QueryTree.Guid
import QueryTree.Number.Decimal
import QueryTree.Time.Duration
import QueryTree.Time.Instant

/-!
# SurrealQL

The part of the query language that compiled trees use: terms, paths and the `SELECT` statement.
-/

namespace QueryTree.Surql

/-- A number as it is written. -/
inductive Numeral where
  | int (n : Int64)
  | uint (n : UInt64)
  | float (x : Float)
  | float32 (x : Float32)
  | decimal (d : Decimal)

/-- Constants the language has names for. -/
inductive Constant where
  | mathPi
  | mathE
  | mathTau
  | mathInf
  | mathNegInf
  | timeMinimum
  | timeMaximum
  | durationMax
deriving DecidableEq, Repr

/-- Operators with one operand. -/
inductive UnaryOp where
  | not
  | neg
deriving DecidableEq, Repr

/-- Operators with two operands. -/
inductive BinaryOp where
  | and
  | or
  | add
  | sub
  | mul
  | div
  | mod
  | pow
  | equal
  | notEqual
  | lessThan
  | lessThanOrEqual
  | moreThan
  | moreThanOrEqual
  | coalesce
  | contains
deriving DecidableEq, Repr

/-- The types a value can be cast to. -/
inductive CastKind where
  | bool
  | int
  | float
  | decimal
  | string
  | duration
  | number
  | uuid
  | regex
  | record
  | set
  | array
deriving DecidableEq, Repr

mutual

/-- An expression of the language. -/
inductive Term where
  /-- `NONE`: no value, which is not `null`. -/
  | absent
  | null
  | bool (b : Bool)
  | number (n : Numeral)
  | string (s : String)
  | char (c : Char)
  | duration (d : Duration)
  | dateTime (t : Instant)
  | guid (g : Guid)
  | point (x y : Float)
  | array (items : List Term)
  | object (members : List (String × Term))
  /-- A parameter of the query. -/
  | param (name : String)
  /-- A walk into a row or a value, one part after the other. -/
  | path (parts : List Part)
  | constant (c : Constant)
  | call (function : String) (args : List Term)
  | unary (op : UnaryOp) (operand : Term)
  | binary (left : Term) (op : BinaryOp) (right : Term)
  | cast (kind : CastKind) (operand : Term)
  | range (first last : Term)
  | subquery (s : Statement)

/-- One step of a path. -/
inductive Part where
  /-- The value the path starts at. -/
  | start (t : Term)
  | field (name : String)
  /-- The row of the enclosing query. -/
  | parent
  | index (n : Int64)
  /-- The item at a computed index. -/
  | item (t : Term)
  | method (name : String) (args : List Term)

/-- A column of the result, under a name of its own or another one. -/
structure Column where
  term : Term
  label : Option String

/-- What a statement puts out for each row. -/
inductive Columns where
  | all
  | value (t : Term)
  | list (columns : List Column)

/-- What a statement reads. -/
inductive Target where
  | table (name : String)
  | subquery (s : Statement)

/-- Which rows are taken together. -/
inductive GroupBy where
  | all
  | keys (terms : List Term)

/-- One level of an order. -/
structure OrderBy where
  term : Term
  descending : Bool

/-- A `SELECT` statement. -/
structure Statement where
  columns : Columns
  target : Target
  /-- One record is wanted instead of an array of them. -/
  only : Bool
  cond : Option Term
  group : Option GroupBy
  order : List OrderBy
  limit : Option Term
  start : Option Term

end

/-- A whole query. -/
inductive Query where
  | statement (s : Statement)
  | term (t : Term)

namespace Term

instance : Inhabited Term := ⟨.null⟩

/-- A field of the current row. -/
def field (name : String) : Term := .path [.field name]

def int (n : Int64) : Term := .number (.int n)

def float (x : Float) : Term := .number (.float x)

/-- `t` one step further; a term that is no path becomes the start of one. -/
def step (t : Term) (p : Part) : Term :=
  match t with
  | .path parts => .path (parts ++ [p])
  | other => .path [.start other, p]

end Term

end QueryTree.Surql
