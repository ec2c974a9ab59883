import QueryTree.Error
import QueryTree.Value.Basic

/-!
# Expression trees

A tree is what a query library records instead of running it: method calls on typed receivers with
lambdas as arguments. `users.Where(u => u.Age >= minAge)` is a call of `Where` on the `Queryable`
surface whose arguments are a source and a lambda; `minAge` is a captured variable.

The same type holds trees that are being compiled. Captured values have become named parameters,
sources have become tables, and query operators have become selects, in which a `row` stands for the
current row of the select with that scope.
-/

namespace QueryTree

/-- The built-in type that declares a method or a static member. -/
inductive Surface where
  | queryable
  | enumerable
  | string
  | math
  | dateTime
  | timeSpan
  | regex
  | vector2
  | vector3
  | vector4
  | float32
  | float64
  | object
deriving DecidableEq, Repr

/-- The name of a `Surface` in messages. -/
def Surface.name : Surface → String
  | .queryable => "Queryable"
  | .enumerable => "Enumerable"
  | .string => "string"
  | .math => "Math"
  | .dateTime => "DateTime"
  | .timeSpan => "TimeSpan"
  | .regex => "Regex"
  | .vector2 => "Vector2"
  | .vector3 => "Vector3"
  | .vector4 => "Vector4"
  | .float32 => "float"
  | .float64 => "double"
  | .object => "object"

/-- The full name of `method` in messages. -/
def Surface.qualify (s : Surface) (method : String) : String :=
  s.name ++ "." ++ method

/-- Operators with one operand. -/
inductive UnaryOp where
  | not
  | negate
  | unaryPlus
  /-- Conversion to the type of the node. -/
  | convert
  /-- A lambda passed on as a tree. -/
  | quote
  | arrayLength
deriving DecidableEq, Repr

/-- Operators with two operands. -/
inductive BinaryOp where
  | andAlso
  | orElse
  | and
  | or
  | exclusiveOr
  | leftShift
  | rightShift
  | add
  | subtract
  | multiply
  | divide
  | modulo
  | power
  | equal
  | notEqual
  | lessThan
  | lessThanOrEqual
  | greaterThan
  | greaterThanOrEqual
  | coalesce
  | arrayIndex
deriving DecidableEq, Repr

/-- A table and the type of its rows. -/
structure TableSource where
  table : String
  element : Ty
deriving DecidableEq

/-- What a captured variable held when the tree was made. -/
inductive Capture where
  | value (v : Value)
  /-- A table, used in place of the variable. -/
  | source (s : TableSource)
  /-- The variable could not be read. -/
  | unavailable

/-- A parameter of a lambda. -/
structure LambdaParam where
  name : String
  ty : Ty
deriving DecidableEq

/-- Which select a row belongs to. -/
structure ScopeId where
  index : Nat
deriving DecidableEq, Repr

/-- Functions that turn many rows into one value. -/
inductive AggregateKind where
  | count
  | sum
  | min
  | max
  | average
  | flatten
  | distinct
deriving DecidableEq, Repr

mutual

/-- An expression tree. -/
inductive Expr where
  | constant (value : Value) (ty : Ty)
  | captured (name : String) (capture : Capture) (ty : Ty)
  | source (s : TableSource)
  | parameter (name : String) (ty : Ty)
  | member (base : Expr) (name : String) (ty : Ty)
  | static (surface : Surface) (name : String) (ty : Ty)
  | call (surface : Surface) (method : String) (receiver : Option Expr) (args : List Expr) (ty : Ty)
  | unary (op : UnaryOp) (operand : Expr) (ty : Ty)
  | binary (op : BinaryOp) (left right : Expr) (ty : Ty)
  | lambda (params : List LambdaParam) (body : Expr)
  /-- An object of named members in declared order. -/
  | newObject (ty : Ty) (members : List (String × Expr))
  | newArray (ty : Ty) (items : List Expr)
  | construct (ty : Ty) (args : List Expr)
  /-- All rows of a table. -/
  | table (name : String) (element : Ty)
  /-- A captured value, by the name of its query parameter. -/
  | named (name : String) (ty : Ty)
  /-- The current row of the select with `scope`. -/
  | row (scope : ScopeId) (ty : Ty)
  | select (s : Select)
  /-- A select as an array of its rows. -/
  | subquery (s : Select)
  /-- What a scalar query operator makes of the rows. -/
  | custom (inner : Expr) (ty : Ty)
  /-- An aggregate over the rows of the current group. -/
  | groupAggregate (kind : AggregateKind) (selector : Option Expr) (ty : Ty)

/-- A field a select puts out, under its own name unless it has another. -/
structure OutputField where
  expr : Expr
  label : Option String

/-- What a select puts out for each row, or for all of them. -/
inductive Projection where
  /-- The row itself. -/
  | all
  | expr (e : Expr)
  | fields (fields : List OutputField)
  /-- The number of rows, of those only that satisfy a condition if there is one. -/
  | count (predicate : Option Expr)
  | aggregation (kind : AggregateKind) (selector : Expr) (label : String)

/-- Which rows of a select are taken together. -/
inductive RowGroup where
  | all
  | keys (keys : List Expr)

/-- One level of an order of rows. -/
structure SortKey where
  expr : Expr
  descending : Bool

/-- Where the rows of a select come from. -/
inductive RowSource where
  | table (name : String)
  | subquery (s : Select)

/-- How the rows of a select over groups relate to the select that was grouped. -/
structure GroupKey where
  /-- The key as computed over the rows that are grouped. -/
  inner : Expr
  /-- The key as read back from a row of the grouped select. -/
  outer : Expr
  /-- What is grouped, without the grouping. -/
  source : Select
  /-- The rows of the current group. -/
  values : Expr

/-- A query: rows of `source` that pass `filter`, grouped, ordered, cut to a window and projected.
-/
structure Select where
  scope : ScopeId
  /-- The type of the rows of the source. -/
  element : Ty
  source : RowSource
  projection : Projection
  filter : Option Expr
  group : Option RowGroup
  orderings : List SortKey
  take : Option Expr
  skip : Option Expr
  /-- The query yields the one row it has instead of an array. -/
  single : Bool
  groupKey : Option GroupKey

end

namespace Expr

instance : Inhabited Expr := ⟨.constant .null .unknown⟩

/-- The name of the kind of node. -/
def kind : Expr → String
  | .constant _ _ => "Constant"
  | .captured _ _ _ => "Captured"
  | .source _ => "Source"
  | .parameter _ _ => "Parameter"
  | .member _ _ _ => "Member"
  | .static _ _ _ => "Static"
  | .call _ _ _ _ _ => "Call"
  | .unary _ _ _ => "Unary"
  | .binary _ _ _ _ => "Binary"
  | .lambda _ _ => "Lambda"
  | .newObject _ _ => "New"
  | .newArray _ _ => "NewArray"
  | .construct _ _ => "Construct"
  | .table _ _ => "Table"
  | .named _ _ => "Named"
  | .row _ _ => "Row"
  | .select _ => "Select"
  | .subquery _ => "Subquery"
  | .custom _ _ => "Custom"
  | .groupAggregate _ _ _ => "GroupAggregate"

/-- The expression inside any `quote`. -/
def unquote : Expr → Expr
  | .unary .quote operand _ => operand.unquote
  | e => e
termination_by structural e => e

def constant? : Expr → Option Value
  | .constant v _ => some v
  | _ => none

def isLambda : Expr → Bool
  | .lambda _ _ => true
  | _ => false

/-- Whether the expression is the parameter `name`. -/
def isParameter (name : String) : Expr → Bool
  | .parameter n _ => n == name
  | _ => false

/-- Whether the expression is a lambda with a parameter `name`. -/
def shadows (name : String) : Expr → Bool
  | .lambda params _ => params.any (·.name == name)
  | _ => false

/-- Parameter and body of a lambda with one parameter, quoted or not, as an argument of `method`. -/
def asLambda (method : String) (e : Expr) : Except Error (LambdaParam × Expr) :=
  match e.unquote with
  | .lambda [param] body => .ok (param, body)
  | .lambda params _ => .error (.lambdaArity method params.length)
  | other => .error (.lambdaExpected method other.kind)

end Expr

/-! ## Types of expressions -/

/-- The name a field is put out under: its label, or the name of the member it is. -/
def OutputField.name : OutputField → String
  | ⟨_, some label⟩ => label
  | ⟨.member _ name _, none⟩ => name
  | ⟨_, none⟩ => "Value"

mutual

/-- The type of an expression; of a lambda, that of its body. -/
def Expr.ty : Expr → Ty
  | .constant _ t | .captured _ _ t | .parameter _ t | .member _ _ t | .static _ _ t
  | .call _ _ _ _ t | .unary _ _ t | .binary _ _ _ t | .newObject t _ | .newArray t _
  | .construct t _ | .named _ t | .row _ t | .custom _ t | .groupAggregate _ _ t => t
  | .source s => .queryable s.element
  | .table _ element => .queryable element
  | .lambda _ body => body.ty
  | .select s => .queryable s.projectedType
  | .subquery s => .array s.projectedType
termination_by structural e => e

/-- The type of the rows a select puts out. -/
def Select.projectedType : Select → Ty
  | ⟨_, element, _, projection, _, _, _, _, _, _, _⟩ => projection.ty element
termination_by structural s => s

/-- The type of what a projection makes of rows of type `element`. -/
def Projection.ty (element : Ty) : Projection → Ty
  | .all => element
  | .expr e => e.ty
  | .fields fields => .anonymous (OutputField.types fields)
  | .count _ => .anonymous [("count", .int64)]
  | .aggregation _ selector label => .anonymous [(label, selector.ty)]
termination_by structural p => p

def OutputField.types : List OutputField → List (String × Ty)
  | [] => []
  | ⟨e, label⟩ :: fields => (OutputField.name ⟨e, label⟩, e.ty) :: OutputField.types fields
termination_by structural fields => fields

end

end QueryTree
