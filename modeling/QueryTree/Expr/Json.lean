import QueryTree.Expr.Basic
import QueryTree.Value.Json

/-!
# Trees as JSON

A tree is an object whose `node` names its kind, with one member for each part. Only the nodes that
a query library records have such a form. Other members are passed over, and a part that stands
twice is refused.
-/

namespace QueryTree

/-! ## Names -/

def Surface.all : List Surface :=
  [.queryable, .enumerable, .string, .math, .dateTime, .timeSpan, .regex, .vector2,
    .vector3, .vector4,
   .float32, .float64, .object]

/-- The name of a `Surface` in a tree. -/
def Surface.tag : Surface → String
  | .queryable => "Queryable"
  | .enumerable => "Enumerable"
  | .string => "String"
  | .math => "Math"
  | .dateTime => "DateTime"
  | .timeSpan => "TimeSpan"
  | .regex => "Regex"
  | .vector2 => "Vector2"
  | .vector3 => "Vector3"
  | .vector4 => "Vector4"
  | .float32 => "Float32"
  | .float64 => "Float64"
  | .object => "Object"

def Surface.ofTag? (tag : String) : Option Surface :=
  Surface.all.find? (·.tag == tag)

def UnaryOp.all : List UnaryOp :=
  [.not, .negate, .unaryPlus, .convert, .quote, .arrayLength]

/-- The name of a `UnaryOp` in a tree. -/
def UnaryOp.tag : UnaryOp → String
  | .not => "Not"
  | .negate => "Negate"
  | .unaryPlus => "UnaryPlus"
  | .convert => "Convert"
  | .quote => "Quote"
  | .arrayLength => "ArrayLength"

def UnaryOp.ofTag? (tag : String) : Option UnaryOp :=
  UnaryOp.all.find? (·.tag == tag)

def BinaryOp.all : List BinaryOp :=
  [.andAlso, .orElse, .and, .or, .exclusiveOr, .leftShift, .rightShift, .add, .subtract, .multiply,
   .divide, .modulo, .power, .equal, .notEqual, .lessThan, .lessThanOrEqual, .greaterThan,
   .greaterThanOrEqual, .coalesce, .arrayIndex]

/-- The name of a `BinaryOp` in a tree. -/
def BinaryOp.tag : BinaryOp → String
  | .andAlso => "AndAlso"
  | .orElse => "OrElse"
  | .and => "And"
  | .or => "Or"
  | .exclusiveOr => "ExclusiveOr"
  | .leftShift => "LeftShift"
  | .rightShift => "RightShift"
  | .add => "Add"
  | .subtract => "Subtract"
  | .multiply => "Multiply"
  | .divide => "Divide"
  | .modulo => "Modulo"
  | .power => "Power"
  | .equal => "Equal"
  | .notEqual => "NotEqual"
  | .lessThan => "LessThan"
  | .lessThanOrEqual => "LessThanOrEqual"
  | .greaterThan => "GreaterThan"
  | .greaterThanOrEqual => "GreaterThanOrEqual"
  | .coalesce => "Coalesce"
  | .arrayIndex => "ArrayIndex"

def BinaryOp.ofTag? (tag : String) : Option BinaryOp :=
  BinaryOp.all.find? (·.tag == tag)

/-! ## Parts -/

/-- The members that write `s`. -/
def TableSource.toMembers (s : TableSource) : List (String × Json) :=
  [("table", .string s.table), ("element", s.element.toJson)]

/-- Reads a table from `fields`. -/
def TableSource.ofFields? (fields : List (String × Json)) : Option TableSource := do
  return ⟨← Ty.stringMember? "table" fields, ← Ty.ofMember? "element" fields⟩

def Capture.toJson : Capture → Json
  | .value v => Ty.taggedOf "Value" v.toTagged
  | .source s => Ty.taggedOf "Source" (.object s.toMembers)
  | .unavailable => Ty.tagged "Unavailable"

def Capture.ofJson? (j : Json) : Option Capture := do
  let fields ← j.fields? ["kind", "of"]
  match ← Ty.stringMember? "kind" fields with
  | "Value" => return .value (← Value.ofTagged? (← fields.lookup "of"))
  | "Source" =>
    return .source (← TableSource.ofFields? (← (← fields.lookup "of").fields? ["table", "element"]))
  | "Unavailable" => if Ty.hasNoContent "of" fields then some .unavailable else none
  | _ => none

def LambdaParam.toJson (p : LambdaParam) : Json :=
  .object [("name", .string p.name), ("ty", p.ty.toJson)]

def LambdaParam.ofJson? (j : Json) : Option LambdaParam := do
  let fields ← j.fields? ["name", "ty"]
  return ⟨← Ty.stringMember? "name" fields, ← Ty.ofMember? "ty" fields⟩

namespace Expr

/-- Reads the member `params` of a lambda. -/
def paramsMember? (members : List (String × Json)) : Option (List LambdaParam) := do
  (← (← members.lookup "params").items?).mapM LambdaParam.ofJson?

/-! ## Writing -/

/-- A node with its `kind` and `parts`. -/
def node (kind : String) (parts : List (String × Json)) : Json :=
  .object (("node", .string kind) :: parts)

mutual

/-- Writes a tree. A node that only compiling makes is written as `null`, which is no tree. -/
def toJson : Expr → Json
  | .constant v t => node "Constant" [("value", v.toTagged), ("ty", t.toJson)]
  | .captured name c t =>
    node "Captured" [("name", .string name), ("value", c.toJson), ("ty", t.toJson)]
  | .source s => node "Source" s.toMembers
  | .parameter name t => node "Parameter" [("name", .string name), ("ty", t.toJson)]
  | .member base name t =>
    node "Member" [("expr", base.toJson), ("member", .string name), ("ty", t.toJson)]
  | .static surface name t =>
    node "Static" [("surface", .string surface.tag), ("member", .string name), ("ty", t.toJson)]
  | .call surface method receiver args t =>
    node "Call" (("surface", .string surface.tag) :: ("method", .string method) ::
      receiverToJson receiver ++ [("args", .array (listToJson args)), ("ty", t.toJson)])
  | .unary op operand t =>
    node "Unary" [("op", .string op.tag), ("operand", operand.toJson), ("ty", t.toJson)]
  | .binary op left right t =>
    node "Binary" [("op", .string op.tag), ("left", left.toJson), ("right", right.toJson),
      ("ty", t.toJson)]
  | .lambda params body =>
    node "Lambda" [("params", .array (params.map LambdaParam.toJson)), ("body", body.toJson)]
  | .newObject t members =>
    node "New" [("ty", t.toJson), ("members", .array (membersToJson members))]
  | .newArray t items => node "NewArray" [("ty", t.toJson), ("items", .array (listToJson items))]
  | .construct t args => node "Construct" [("ty", t.toJson), ("args", .array (listToJson args))]
  | _ => .null
termination_by structural e => e

/-- Writes the receiver of a call, if there is one. -/
def receiverToJson : Option Expr → List (String × Json)
  | none => []
  | some e => [("instance", e.toJson)]
termination_by structural e => e

def listToJson : List Expr → List Json
  | [] => []
  | e :: es => e.toJson :: listToJson es
termination_by structural es => es

/-- Writes members as pairs. -/
def membersToJson : List (String × Expr) → List Json
  | [] => []
  | (name, e) :: members => .array [.string name, e.toJson] :: membersToJson members
termination_by structural members => members

end

/-! ## Reading -/

/-- The names of the parts of a kind of node. -/
def partNames : String → List String
  | "Constant" => ["value", "ty"]
  | "Captured" => ["name", "value", "ty"]
  | "Source" => ["table", "element"]
  | "Parameter" => ["name", "ty"]
  | "Member" => ["expr", "member", "ty"]
  | "Static" => ["surface", "member", "ty"]
  | "Call" => ["surface", "method", "instance", "args", "ty"]
  | "Unary" => ["op", "operand", "ty"]
  | "Binary" => ["op", "left", "right", "ty"]
  | "Lambda" => ["params", "body"]
  | "New" => ["ty", "members"]
  | "NewArray" => ["ty", "items"]
  | "Construct" => ["ty", "args"]
  | _ => []

/-- The kind of a node, unless it has a part twice. -/
def kind? (members : List (String × Json)) : Option String :=
  (Ty.stringMember? "node" members).filter fun kind => Json.distinct ("node" :: partNames kind)
    members

mutual

def ofJson? : Json → Option Expr
  | .object members => do
    match ← kind? members with
    | "Constant" =>
      return .constant (← Value.ofTagged? (← members.lookup "value")) (← Ty.ofMember? "ty" members)
    | "Captured" =>
      return .captured (← Ty.stringMember? "name" members)
        (← Capture.ofJson? (← members.lookup "value")) (← Ty.ofMember? "ty" members)
    | "Source" => return .source (← TableSource.ofFields? members)
    | "Parameter" =>
      return .parameter (← Ty.stringMember? "name" members) (← Ty.ofMember? "ty" members)
    | "Member" =>
      return .member (← ofMember? "expr" members) (← Ty.stringMember? "member" members)
        (← Ty.ofMember? "ty" members)
    | "Static" =>
      return .static (← Surface.ofTag? (← Ty.stringMember? "surface" members))
        (← Ty.stringMember? "member" members) (← Ty.ofMember? "ty" members)
    | "Call" =>
      return .call (← Surface.ofTag? (← Ty.stringMember? "surface" members))
        (← Ty.stringMember? "method" members) (← receiver? members) (← listMember? "args" members)
        (← Ty.ofMember? "ty" members)
    | "Unary" =>
      return .unary (← UnaryOp.ofTag? (← Ty.stringMember? "op" members))
        (← ofMember? "operand" members) (← Ty.ofMember? "ty" members)
    | "Binary" =>
      return .binary (← BinaryOp.ofTag? (← Ty.stringMember? "op" members))
        (← ofMember? "left" members) (← ofMember? "right" members) (← Ty.ofMember? "ty" members)
    | "Lambda" => return .lambda (← paramsMember? members) (← ofMember? "body" members)
    | "New" => return .newObject (← Ty.ofMember? "ty" members) (← pairsMember? "members" members)
    | "NewArray" => return .newArray (← Ty.ofMember? "ty" members) (← listMember? "items" members)
    | "Construct" => return .construct (← Ty.ofMember? "ty" members) (← listMember? "args" members)
    | _ => none
  | _ => none
termination_by structural j => j

/-- Reads the tree in the member `name`. -/
def ofMember? (name : String) : List (String × Json) → Option Expr
  | [] => none
  | (key, j) :: members => if name == key then ofJson? j else ofMember? name members
termination_by structural members => members

/-- Reads the receiver of a call, which may be missing or `null`. -/
def receiver? : List (String × Json) → Option (Option Expr)
  | [] => some none
  | (key, j) :: members =>
    if "instance" == key then
      match j with
      | .null => some none
      | j => (ofJson? j).map some
    else receiver? members
termination_by structural members => members

/-- Reads the trees in the member `name`. -/
def listMember? (name : String) : List (String × Json) → Option (List Expr)
  | [] => none
  | (key, j) :: members =>
    if name == key then
      match j with
      | .array items => listOf? items
      | _ => none
    else listMember? name members
termination_by structural members => members

def listOf? : List Json → Option (List Expr)
  | [] => some []
  | j :: items => do return (← ofJson? j) :: (← listOf? items)
termination_by structural items => items

/-- Reads the named trees in the member `name`. -/
def pairsMember? (name : String) : List (String × Json) → Option (List (String × Expr))
  | [] => none
  | (key, j) :: members =>
    if name == key then
      match j with
      | .array items => pairsOf? items
      | _ => none
    else pairsMember? name members
termination_by structural members => members

/-- Reads named trees written as pairs. -/
def pairsOf? : List Json → Option (List (String × Expr))
  | [] => some []
  | .array [.string name, j] :: items => do return (name, ← ofJson? j) :: (← pairsOf? items)
  | _ => none
termination_by structural items => items

end

/-! ## Equality of written trees -/

def sameCapture : Capture → Capture → Bool
  | .value v, .value w => v == w
  | .source s, .source t => s == t
  | .unavailable, .unavailable => true
  | _, _ => false

mutual

/-- Whether two trees are the same up to `==` of their values. Nodes that only compiling makes equal
nothing. -/
def sameTree : Expr → Expr → Bool
  | .constant v s, .constant w t => v == w && s == t
  | .captured n c s, .captured m d t => n == m && sameCapture c d && s == t
  | .source s, .source t => s == t
  | .parameter n s, .parameter m t => n == m && s == t
  | .member a n s, .member b m t => a.sameTree b && n == m && s == t
  | .static u n s, .static v m t => u == v && n == m && s == t
  | .call u n a as s, .call v m b bs t =>
    u == v && n == m && sameReceiver a b && sameTrees as bs && s == t
  | .unary o a s, .unary p b t => o == p && a.sameTree b && s == t
  | .binary o a c s, .binary p b d t => o == p && a.sameTree b && c.sameTree d && s == t
  | .lambda ps a, .lambda qs b => ps == qs && a.sameTree b
  | .newObject s as, .newObject t bs => s == t && sameMembers as bs
  | .newArray s as, .newArray t bs => s == t && sameTrees as bs
  | .construct s as, .construct t bs => s == t && sameTrees as bs
  | _, _ => false
termination_by structural e => e

def sameReceiver : Option Expr → Option Expr → Bool
  | none, none => true
  | some a, some b => a.sameTree b
  | _, _ => false
termination_by structural e => e

def sameTrees : List Expr → List Expr → Bool
  | [], [] => true
  | a :: as, b :: bs => a.sameTree b && sameTrees as bs
  | _, _ => false
termination_by structural es => es

def sameMembers : List (String × Expr) → List (String × Expr) → Bool
  | [], [] => true
  | (n, a) :: as, (m, b) :: bs => n == m && a.sameTree b && sameMembers as bs
  | _, _ => false
termination_by structural es => es

end

end Expr

end QueryTree
