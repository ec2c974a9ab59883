import QueryTree.Expr.Basic

/-!
# Making expressions

Constructors that work out the type of what they make.
-/

namespace QueryTree.Expr

/-- `v` as a constant of its own type. -/
def lit (v : Value) : Expr := .constant v v.type

/-- A whole number of 32 bits. -/
def int32 (n : Int64) : Expr := .constant (.int n) .int32

def null : Expr := .constant .null (.prim .object)

/-- `v` as a captured value of its own type. -/
def capture (name : String) (v : Value) : Expr := .captured name (.value v) v.type

/-- A call without receiver. -/
def staticCall (surface : Surface) (method : String) (args : List Expr) (t : Ty) : Expr :=
  .call surface method none args t

/-- A call on a receiver. -/
def methodCall (receiver : Expr) (surface : Surface) (method : String) (args : List Expr) (t : Ty) :
    Expr :=
  .call surface method (some receiver) args t

/-- The member `name` of `e`, of the type that `e` gives it. -/
def field (e : Expr) (name : String) : Expr := .member e name (e.ty.memberType name)

/-- The type of `op` on these operands. -/
def binaryType (op : BinaryOp) (left right : Expr) : Ty :=
  match op with
  | .andAlso | .orElse | .equal | .notEqual | .lessThan | .lessThanOrEqual | .greaterThan
  | .greaterThanOrEqual => .bool
  | .coalesce => right.ty
  | .arrayIndex => left.ty.element.getD .unknown
  | _ => left.ty

/-- `op` on two operands. -/
def combine (op : BinaryOp) (left right : Expr) : Expr :=
  .binary op left right (binaryType op left right)

def eq (left right : Expr) : Expr := combine .equal left right
def and (left right : Expr) : Expr := combine .andAlso left right
/-- `left`, or `right` where it is missing. -/
def coalesce (left right : Expr) : Expr := combine .coalesce left right
/-- An element of `sequence`. -/
def index (sequence position : Expr) : Expr := combine .arrayIndex sequence position

def not (e : Expr) : Expr := .unary .not e e.ty
def neg (e : Expr) : Expr := .unary .negate e e.ty
def convert (e : Expr) (t : Ty) : Expr := .unary .convert e t

def memberTypes (members : List (String × Expr)) : List (String × Ty) :=
  members.map fun (name, e) => (name, e.ty)

/-- An object of the type that `members` make. -/
def objectOf (members : List (String × Expr)) : Expr :=
  .newObject (.anonymous (memberTypes members)) members

/-- An array of items of type `element`. -/
def arrayOf (element : Ty) (items : List Expr) : Expr := .newArray (.array element) items

/-- `e` with the type `t`, where a node carries a type of its own choice. -/
def withType (e : Expr) (t : Ty) : Expr :=
  match e with
  | .constant v _ => .constant v t
  | .parameter name _ => .parameter name t
  | .member base name _ => .member base name t
  | .call surface method receiver args _ => .call surface method receiver args t
  | .binary op left right _ => .binary op left right t
  | .unary op operand _ => .unary op operand t
  | other => other

end QueryTree.Expr
